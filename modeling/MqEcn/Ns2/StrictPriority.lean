import Mathlib.Algebra.BigOperators.Fin
import MqEcn.Library.Accounting
import MqEcn.Library.Selection
import MqEcn.Ns2.Dwrr.Step

/-!
Contract: strict priority over one buffer, as the NS2 disciplines with priority queues have it.

Owns: what such a discipline holds, as one FIFO a queue; what an enque and a deque do to these
FIFOs; that they keep the limit of the buffer, and the test that does; and the search for the
first priority queue that holds a packet.

Does not own: any discipline, and which of the lower queues is served.
-/

set_option autoImplicit false

namespace MqEcn.Ns2.StrictPriority

open MqEcn.Library
open MqEcn.Ns2.Dwrr (MarkedFrom)

/-- The priority queues, in their order, and the queues below them. -/
abbrev QueueId := Fin 8 ⊕ Fin 64

/-- Bytes in all queues. -/
def stored (contents : QueueId → List Packet) : Nat := ∑ queue, byteLength (contents queue)

/-- The queue is the one a port that serves its priority queues first, in their order, comes
to. -/
def Front (contents : QueueId → List Packet) : QueueId → Prop
  | .inl i => ∀ k < i, contents (.inl k) = []
  | .inr _ => ∀ k, contents (.inl k) = []

/-- A deque hands out the head of the queue it comes to, as the marking leaves it. -/
structure Sends (mark : Packet → Packet) (before after : QueueId → List Packet) (queue : QueueId)
    (sent : Packet) : Prop where
  front : Front before queue
  head : ∃ pkt rest, before queue = pkt :: rest ∧ sent = mark pkt ∧
    after = Function.update before queue rest

/-- What a deque answers: a packet of the queue it comes to, or nothing where nothing is
stored. -/
def Answers (mark : Packet → Packet) (before after : QueueId → List Packet) :
    Option (QueueId × Packet) → Prop
  | none => stored before = 0 ∧ after = before
  | some (queue, sent) => Sends mark before after queue sent

/-- An enque drops a packet exactly when it does not fit into the buffer, and appends it to its
queue else. -/
structure Takes (limit : Int) (target : Option QueueId) (p : Packet)
    (before after : QueueId → List Packet) (taken : Bool) : Prop where
  fits : taken = true ↔ stored before + p.size ≤ limit
  drop : taken = false → after = before
  append : taken = true → ∃ queue marked, target = some queue ∧ MarkedFrom p marked ∧
    after = Function.update before queue (before queue ++ [marked])

/-- The bytes stored fit into the buffer. -/
def Fits (limit : Int) (contents : QueueId → List Packet) : Prop :=
  (stored contents : Int) ≤ max 0 limit

section

variable {limit : Int} {before after : QueueId → List Packet}

private theorem stored_update {queue : QueueId} {content : List Packet}
    (updated : after = Function.update before queue content) :
    stored after + byteLength (before queue) = stored before + byteLength content := by
  rw [updated]
  exact Accounting.total_update byteLength before queue content

theorem Fits.takes {target : Option QueueId} {p : Packet} {taken : Bool}
    (fits : Fits limit before) (takes : Takes limit target p before after taken) :
    Fits limit after := by
  cases taken with
  | false =>
      rw [takes.drop rfl]
      exact fits
  | true =>
      obtain ⟨queue, marked, _, marker, updated⟩ := takes.append rfl
      have room := takes.fits.mp rfl
      have total := stored_update updated
      rw [byteLength_append, byteLength_cons, byteLength_nil, marker.1] at total
      unfold Fits
      rw [le_max_iff]
      right
      omega

theorem Fits.answers {mark : Packet → Packet} {answer : Option (QueueId × Packet)}
    (fits : Fits limit before) (answers : Answers mark before after answer) :
    Fits limit after := by
  cases answer with
  | none =>
      rw [answers.2]
      exact fits
  | some served =>
      obtain ⟨pkt, rest, front, _, updated⟩ := answers.head
      have total := stored_update updated
      rw [front, byteLength_cons] at total
      unfold Fits at fits ⊢
      omega

end

/-- The test of the buffer ahead of an admission: a packet is dropped exactly when it does not
fit. -/
theorem fits_of_tested {State : Type} {limit : Int} {held size : Nat} {full q' : State}
    {admitted : Option State} {taken : Bool}
    (returns : (if limit < held + size then some (full, false)
      else admitted.map fun q => (q, true)) = some (q', taken)) :
    taken = true ↔ (held : Int) + size ≤ limit := by
  split at returns
  next beyond =>
    cases returns
    simp only [Bool.false_eq_true, false_iff, not_le]
    exact beyond
  next fits =>
    obtain ⟨_, _, same⟩ := Option.map_eq_some_iff.mp returns
    cases same
    exact iff_of_true rfl (not_lt.mp fits)

/-! ### Priority queues above others -/

section

variable {Prio : Type} {packets : Prio → List Packet} {prio prio' : Fin 8 → Prio}
  {lower lower' : Fin 64 → List Packet}

theorem elim_of_prio {i : Fin 8} {cl : Prio} (updated : prio' = Function.update prio i cl)
    (same : lower' = lower) :
    Sum.elim (packets ∘ prio') lower' =
      Function.update (Sum.elim (packets ∘ prio) lower) (.inl i) (packets cl) := by
  rw [updated, same, Function.comp_update, Sum.update_elim_inl]

theorem elim_of_lower {i : Fin 64} {content : List Packet} (same : prio' = prio)
    (updated : lower' = Function.update lower i content) :
    Sum.elim (packets ∘ prio') lower' =
      Function.update (Sum.elim (packets ∘ prio) lower) (.inr i) content := by
  rw [updated, same, Sum.update_elim_inr]

theorem elim_of_same (same : prio' = prio) (sameLower : lower' = lower) :
    Sum.elim (packets ∘ prio') lower' = Sum.elim (packets ∘ prio) lower := by
  rw [same, sameLower]

theorem stored_elim (prio : Fin 8 → List Packet) (lower : Fin 64 → List Packet) :
    stored (Sum.elim prio lower) =
      ((List.finRange 64).map fun i => byteLength (lower i)).sum +
        ((List.finRange 8).map fun i => byteLength (prio i)).sum := by
  unfold stored
  rw [Fintype.sum_sum_type, Fin.sum_univ_def, Fin.sum_univ_def, Nat.add_comm]
  rfl

end

/-! ### The priority queues -/

section

variable {contents : Fin 8 → List Packet} {num : Nat}
  {ask : Fin 8 → Option (Fin 8 × Packet × List Packet)}

/-- The head of a FIFO and what it leaves behind. -/
def Asks (contents : Fin 8 → List Packet) (ask : Fin 8 → Option (Fin 8 × Packet × List Packet)) :
    Prop :=
  ∀ i, ask i = match contents i with
    | [] => none
    | pkt :: rest => some (i, pkt, rest)

private theorem Asks.eq_none_iff (asks : Asks contents ask) {i : Fin 8} :
    ask i = none ↔ contents i = [] := by
  rw [asks i]
  cases contents i with
  | nil => exact ⟨fun _ => rfl, fun _ => rfl⟩
  | cons pkt rest => simp

private theorem Asks.eq_some (asks : Asks contents ask) {k i : Fin 8} {pkt : Packet}
    {rest : List Packet} (answers : ask k = some (i, pkt, rest)) :
    k = i ∧ contents k = pkt :: rest := by
  rw [asks k] at answers
  cases content : contents k with
  | nil =>
      rw [content] at answers
      cases answers
  | cons first others =>
      rw [content] at answers
      cases answers
      exact ⟨rfl, rfl⟩

/-- What a search answers is the head of its queue. -/
theorem Asks.front_of_findSome (asks : Asks contents ask) {queues : List (Fin 8)} {i : Fin 8}
    {pkt : Packet} {rest : List Packet} (found : queues.findSome? ask = some (i, pkt, rest)) :
    contents i = pkt :: rest := by
  obtain ⟨k, _, answers⟩ := List.exists_of_findSome?_eq_some found
  obtain ⟨rfl, front⟩ := asks.eq_some answers
  exact front

/-- The search stops at the first priority queue that holds a packet. -/
theorem Asks.front_of_found (asks : Asks contents ask)
    (inside : ∀ i : Fin 8, num ≤ i → contents i = []) {i : Fin 8} {pkt : Packet}
    {rest : List Packet}
    (found : ((List.finRange 8).filter fun i : Fin 8 => decide ((i : Nat) < num)).findSome? ask =
      some (i, pkt, rest)) :
    contents i = pkt :: rest ∧ ∀ k < i, contents k = [] := by
  have sorted := (List.pairwise_lt_finRange 8).filter fun i : Fin 8 => decide ((i : Nat) < num)
  obtain ⟨k, _, answers, earlier⟩ := (Selection.findSome?_eq_some_iff_of_sorted sorted).mp found
  obtain ⟨rfl, front⟩ := asks.eq_some answers
  refine ⟨front, fun j lower => ?_⟩
  rcases Nat.lt_or_ge (j : Nat) num with used | unused
  · exact asks.eq_none_iff.mp (earlier j (by simp [used]) lower)
  · exact inside j unused

/-- It finds nothing only where no priority queue holds a packet. -/
theorem Asks.empty_of_not_found (asks : Asks contents ask)
    (inside : ∀ i : Fin 8, num ≤ i → contents i = [])
    (nothing : ((List.finRange 8).filter fun i : Fin 8 => decide ((i : Nat) < num)).findSome? ask =
      none) (i : Fin 8) : contents i = [] := by
  rcases Nat.lt_or_ge (i : Nat) num with used | unused
  · rw [List.findSome?_eq_none_iff] at nothing
    exact asks.eq_none_iff.mp (nothing i (by simp [used]))
  · exact inside i unused

end

end MqEcn.Ns2.StrictPriority
