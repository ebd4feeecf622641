import MqEcn.Library.ActiveRing
import MqEcn.Ns2.Dwrr.Step

/-!
Contract: the active list of the NS2 DWRR discipline in every reachable state.

Owns: the invariant that ties the chain of the active list, the flags and the FIFOs of the
queues together, its preservation by every operation, and the termination and the answer of
`enque` and `deque`.

Does not own: the order of service and the sum of the quanta.
-/

set_option autoImplicit false

namespace MqEcn.Ns2.Dwrr

open Finset
open MqEcn.Library
open MqEcn.Library.LinkedList
open MqEcn.Library.Transition
open Relation (ReflTransGen)

/-! ### The invariant -/

/-- The queues in `ring` are those that hold packets, which are the active ones; only the
first of them can have been granted the quantum of its visit. -/
structure Ordered (slots : Fin 64 → Slot) (ring : List (Fin 64)) : Prop where
  nodup : ring.Nodup
  mem_iff : ∀ i, i ∈ ring ↔ (slots i).packets ≠ []
  active_iff : ∀ i, (slots i).active = true ↔ (slots i).packets ≠ []
  current : ∀ i, (slots i).current = true → ring.head? = some i
  deficit : ∀ i, 0 ≤ (slots i).deficitCounter
  quantum : ∀ i, 0 < (slots i).quantum

/-- The invariant of the discipline, whose active list goes through `ring`. -/
structure Valid (config : Config) (q : DwrrQueue) (ring : List (Fin 64)) : Prop where
  lists : Lists q ring
  ordered : Ordered (slots q) ring
  inside : ∀ i, (slots q i).packets ≠ [] → (i : Nat) < config.queueNum

theorem Slot.credit_nonneg {slot : Slot} (deficit : 0 ≤ slot.deficitCounter)
    (quantum : 0 < slot.quantum) : 0 ≤ slot.credit := by
  unfold Slot.credit
  split <;> omega

/-- The marks of a queue. -/
def Slot.flags (slot : Slot) : ActiveRing.Flags :=
  ⟨!slot.packets.isEmpty, slot.active, slot.current⟩

private theorem Slot.flags_busy_iff (slot : Slot) : slot.flags.busy = true ↔ slot.packets ≠ [] := by
  show (!slot.packets.isEmpty) = true ↔ slot.packets ≠ []
  simp

namespace Ordered

variable {slots : Fin 64 → Slot} {ring tail : List (Fin 64)} {i : Fin 64}

/-- The marks agree with a ring of the queues. -/
theorem consistent (ordered : Ordered slots ring) :
    ActiveRing.Consistent (fun i => (slots i).flags) ring where
  nodup := ordered.nodup
  mem_iff := fun i => (ordered.mem_iff i).trans (slots i).flags_busy_iff.symm
  active_eq := fun i =>
    Bool.eq_iff_iff.mpr ((ordered.active_iff i).trans (slots i).flags_busy_iff.symm)
  current := ordered.current

/-- The invariant is a consistent ring with counters in range. -/
theorem of_consistent (consistent : ActiveRing.Consistent (fun i => (slots i).flags) ring)
    (deficit : ∀ i, 0 ≤ (slots i).deficitCounter) (quantum : ∀ i, 0 < (slots i).quantum) :
    Ordered slots ring where
  nodup := consistent.nodup
  mem_iff := fun i => (consistent.mem_iff i).trans (slots i).flags_busy_iff
  active_iff := fun i =>
    (Bool.eq_iff_iff.mp (consistent.active_eq i)).trans (slots i).flags_busy_iff
  current := consistent.current
  deficit := deficit
  quantum := quantum

/-- One slot is replaced, and its marks with it. -/
theorem update (ordered : Ordered slots ring) {ring' : List (Fin 64)} {slot : Slot}
    (consistent : ActiveRing.Consistent
      (Function.update (fun i => (slots i).flags) i slot.flags) ring')
    (deficit : 0 ≤ slot.deficitCounter) (quantum : 0 < slot.quantum) :
    Ordered (Function.update slots i slot) ring' := by
  apply of_consistent
  · have same : (fun k => (Function.update slots i slot k).flags) =
        Function.update (fun k => (slots k).flags) i slot.flags :=
      Function.comp_update Slot.flags slots i slot
    rw [same]
    exact consistent
  · intro k
    by_cases same : k = i
    · subst same
      rwa [Function.update_self]
    · rw [Function.update_of_ne same]
      exact ordered.deficit k
  · intro k
    by_cases same : k = i
    · subst same
      rwa [Function.update_self]
    · rw [Function.update_of_ne same]
      exact ordered.quantum k

/-- A slot is replaced by one with the same marks. -/
theorem update_of_flags_eq (ordered : Ordered slots ring) {slot : Slot}
    (same : slot.flags = (slots i).flags) (deficit : 0 ≤ slot.deficitCounter)
    (quantum : 0 < slot.quantum) : Ordered (Function.update slots i slot) ring := by
  apply ordered.update _ deficit quantum
  rw [same, Function.update_eq_self i fun k => (slots k).flags]
  exact ordered.consistent

/-- A queue that takes its first packet joins at the tail. -/
theorem activate (ordered : Ordered slots ring) (inactive : (slots i).active = false)
    (p : Packet) :
    Ordered
      (Function.update slots i
        { slots i with
          deficitCounter := 0, active := true, current := false,
          packets := (slots i).packets ++ [p] })
      (ring ++ [i]) := by
  have idle : (slots i).flags.busy = false := (ordered.consistent.active_eq i).symm.trans inactive
  apply ordered.update
  · show ActiveRing.Consistent (Function.update _ i ⟨!((slots i).packets ++ [p]).isEmpty, _, _⟩) _
    rw [show ((slots i).packets ++ [p]).isEmpty = false by simp]
    exact ordered.consistent.join idle
  · exact le_rfl
  · exact ordered.quantum i

/-- A queue that holds packets takes one more. -/
theorem append (ordered : Ordered slots ring) (active : (slots i).active = true) (p : Packet) :
    Ordered (Function.update slots i { slots i with packets := (slots i).packets ++ [p] })
      ring := by
  have busy : (slots i).flags.busy = true := (ordered.consistent.active_eq i).symm.trans active
  apply ordered.update_of_flags_eq
  · show ActiveRing.Flags.mk (!((slots i).packets ++ [p]).isEmpty) _ _ =
      ActiveRing.Flags.mk (slots i).flags.busy _ _
    rw [busy]
    simp
  · exact ordered.deficit i
  · exact ordered.quantum i

/-- A pass of the loop keeps the order. -/
theorem joins {marked : Packet} {slots' : Fin 64 → Slot} {ring' : List (Fin 64)}
    (ordered : Ordered slots ring) (joins : Joins i marked slots ring slots' ring') :
    Ordered slots' ring' := by
  cases joins with
  | activate inactive => exact ordered.activate inactive marked
  | append active => exact ordered.append active marked

private theorem pass {before after : (Fin 64 → Slot) × List (Fin 64)}
    (ordered : Ordered before.1 before.2) (pass : Passes before after) :
    Ordered after.1 after.2 := by
  cases pass with
  | @intro slots i tail pkt rest front blocked =>
      have first : Ordered slots (i :: tail) := ordered
      apply first.update
      · exact first.consistent.turn
      · exact Slot.credit_nonneg (first.deficit i) (first.quantum i)
      · exact first.quantum i

theorem passes {before after : (Fin 64 → Slot) × List (Fin 64)}
    (ordered : Ordered before.1 before.2) (passes : ReflTransGen Passes before after) :
    Ordered after.1 after.2 := by
  induction passes with
  | refl => exact ordered
  | tail _ last inductionHypothesis => exact inductionHypothesis.pass last

/-- The head queue sends its head packet, and is removed with its last one. -/
theorem send (ordered : Ordered slots (i :: tail)) {size : Nat} (rest : List Packet)
    (affordable : size ≤ (slots i).credit) :
    Ordered (Function.update slots i ((slots i).visit.sent size rest))
      (if rest = [] then tail else i :: tail) := by
  rw [Slot.visit_eq]
  unfold Slot.sent
  by_cases last : rest = []
  · rw [if_pos last, if_pos last]
    apply ordered.update
    · rw [last]
      exact ordered.consistent.leave
    · exact le_rfl
    · exact ordered.quantum i
  · rw [if_neg last, if_neg last]
    apply ordered.update
    · have kept : (!rest.isEmpty) = (slots i).flags.busy := by
        rw [ordered.consistent.head_busy]
        simp [last]
      show ActiveRing.Consistent (Function.update _ i ⟨!rest.isEmpty, _, true⟩) _
      rw [kept]
      exact ordered.consistent.visit
    · show 0 ≤ (slots i).credit - size
      omega
    · exact ordered.quantum i

end Ordered

/-! ### Operations -/

/-- How a deque ends: `q'` is left behind, and its active list goes through `ring'`. -/
inductive Deques (config : Config) (q : DwrrQueue) (ring : List (Fin 64)) (q' : DwrrQueue) :
    Option (Fin 64 × Packet) → List (Fin 64) → Prop
  | idle (empty : totalByteLength config q = 0) (same : SameSchedule q q') :
      Deques config q ring q' none ring
  | send {middle : Fin 64 → Slot} {choice : Choice} {tail : List (Fin 64)} {marked : Packet}
      (busy : totalByteLength config q ≠ 0)
      (passes : ReflTransGen Passes (slots q, ring) (middle, choice.queue :: tail))
      (front : (middle choice.queue).packets = choice.pkt :: choice.rest)
      (affordable : choice.pkt.size ≤ (middle choice.queue).credit)
      (marker : MarkedFrom choice.pkt marked)
      (after : slots q' = Function.update middle choice.queue
        ((middle choice.queue).visit.sent choice.pkt.size choice.rest))
      (lists : Lists q' (if choice.rest = [] then tail else choice.queue :: tail))
      (quantumSum : q'.quantumSum =
        if choice.rest = [] then q.quantumSum - (middle choice.queue).quantum
        else q.quantumSum) :
      Deques config q ring q' (some (choice.queue, marked))
        (if choice.rest = [] then tail else choice.queue :: tail)

section

variable {config : Config} {q q' : DwrrQueue} {ring ring' tail : List (Fin 64)} {i : Fin 64}

theorem passes_frame_of_run {before after : (Fin 64 → Slot) × List (Fin 64)}
    (passes : ReflTransGen Passes before after) (k : Fin 64) :
    (after.1 k).packets = (before.1 k).packets ∧ (after.1 k).quantum = (before.1 k).quantum := by
  induction passes with
  | refl => exact ⟨rfl, rfl⟩
  | tail _ last inductionHypothesis =>
      have same := (passes_frame last).1 k
      exact ⟨same.1.trans inductionHypothesis.1, same.2.trans inductionHypothesis.2⟩

private theorem Deques.of_same {q'' : DwrrQueue} {pkt : Option (Fin 64 × Packet)}
    (deques : Deques config q ring q' pkt ring') (same : SameSchedule q' q'') :
    Deques config q ring q'' pkt ring' := by
  cases deques with
  | idle empty before => exact .idle empty (before.trans same)
  | send busy passes front affordable marker after lists quantumSum =>
      exact .send busy passes front affordable marker (same.slots.trans after) (same.lists lists)
        (same.quantumSum.trans quantumSum)

namespace Valid

theorem of_same (valid : Valid config q ring) (same : SameSchedule q q') :
    Valid config q' ring := by
  refine ⟨same.lists valid.lists, ?_, ?_⟩
  · rw [same.slots]
    exact valid.ordered
  · rw [same.slots]
    exact valid.inside

/-- The port holds bytes exactly when a queue is listed. -/
theorem totalByteLength_eq_zero_iff (valid : Valid config q ring) :
    totalByteLength config q = 0 ↔ ring = [] := by
  rw [Dwrr.totalByteLength_eq_zero_iff, List.eq_nil_iff_forall_not_mem]
  constructor
  · intro empty i member
    have busy := (valid.ordered.mem_iff i).mp member
    exact busy (empty i (valid.inside i busy))
  · intro unlisted i _
    by_contra busy
    exact unlisted i ((valid.ordered.mem_iff i).mpr busy)

private theorem busy (valid : Valid config q ring) : ∀ k ∈ ring, (slots q k).packets ≠ [] :=
  fun k => (valid.ordered.mem_iff k).mp

theorem enque {p : Packet} {taken : Bool} (valid : Valid config q ring)
    (enques : Enques config p q ring q' taken ring') : Valid config q' ring' := by
  have inside : ∀ {slot : Slot}, slots q' = Function.update (slots q) (classify config p) slot →
      ∀ k, (slots q' k).packets ≠ [] → (k : Nat) < config.queueNum := by
    intro slot after k busy
    by_cases same : k = classify config p
    · rw [same]
      exact classify_lt config p
    · rw [after, Function.update_of_ne same] at busy
      exact valid.inside k busy
  cases enques with
  | drop same => exact valid.of_same same
  | activate marker inactive after lists quantumSum =>
      refine ⟨lists, ?_, inside after⟩
      rw [after]
      exact valid.ordered.activate inactive _
  | append marker active after lists quantumSum =>
      refine ⟨lists, ?_, inside after⟩
      rw [after]
      exact valid.ordered.append active _

theorem deque {pkt : Option (Fin 64 × Packet)} (valid : Valid config q ring)
    (deques : Deques config q ring q' pkt ring') : Valid config q' ring' := by
  cases deques with
  | idle empty same => exact valid.of_same same
  | @send middle choice tail marked busy passes front affordable marker after lists quantumSum =>
      have ordered : Ordered middle (choice.queue :: tail) := valid.ordered.passes passes
      have frame := passes_frame_of_run passes
      refine ⟨lists, ?_, fun k stored => ?_⟩
      · rw [after]
        exact ordered.send choice.rest affordable
      · apply valid.inside k
        by_cases same : k = choice.queue
        · have before := (frame k).1
          rw [same, front] at before
          rw [same, ← before]
          exact List.cons_ne_nil _ _
        · rw [after, Function.update_of_ne same, (frame k).1] at stored
          exact stored

theorem enque_cases {pow : ℚ → ℚ → ℚ} {now : ℚ} {p : Packet} {taken : Bool}
    (valid : Valid config q ring) (returns : Dwrr.enque pow config now p q = some (q', taken)) :
    ∃ ring', Enques config p q ring q' taken ring' := by
  have active_iff : ∀ k, (slots q k).active = true ↔ k ∈ ring := fun k =>
    (valid.ordered.active_iff k).trans (valid.ordered.mem_iff k).symm
  obtain ⟨last, code, ring', same, enques⟩ :=
    enque_returns pow config now p valid.lists active_iff
  rw [returns] at same
  cases same
  exact ⟨ring', enques⟩

/-- What a deque answers once the loop has selected a packet. -/
theorem send_of_selects {now : ℚ} {middle : Fin 64 → Slot} {choice : Choice} {visited : DwrrQueue}
    (valid : Valid config q ring) (busy : totalByteLength config q ≠ 0)
    (selects : Selects q ring visited choice middle tail) :
    ∃ q' marked, (serve config now choice visited).map (fun served =>
        (served.1, some (choice.queue, served.2))) = some (q', some (choice.queue, marked)) ∧
      Deques config q ring q' (some (choice.queue, marked))
        (if choice.rest = [] then tail else choice.queue :: tail) := by
  have frame := passes_frame_of_run selects.passes
  have stored : (slots q choice.queue).packets ≠ [] := by
    rw [← (frame choice.queue).1, selects.front]
    exact List.cons_ne_nil _ _
  obtain ⟨q', marked, serves, effect⟩ :=
    serve_returns now (valid.inside _ stored) selects.lists
  have after := effect.after
  have sum := effect.quantumSum
  rw [selects.after, Function.update_self] at sum
  rw [selects.after, Function.update_self, Function.update_idem] at after
  refine ⟨q', marked, by rw [serves, Option.map_some], .send busy selects.passes selects.front
    selects.affordable effect.marker after effect.lists ?_⟩
  rw [sum, selects.quantumSum, Slot.visit_eq]

theorem deque_cases {now : ℚ} {fuel : Nat} {pkt : Option (Fin 64 × Packet)}
    (valid : Valid config q ring) (returns : Dwrr.deque config now fuel q = some (q', pkt)) :
    ∃ ring', Deques config q ring q' pkt ring' := by
  unfold Dwrr.deque at returns
  rcases Option.map_eq_some_iff.mp returns with ⟨⟨q₁, answer⟩, body, finishes⟩
  cases finishes
  have same := sameSchedule_finish config.toTuning now (totalByteLength config q₁ = 0) q₁
  split at body
  next positive =>
    rcases Option.bind_eq_some_iff.mp body with ⟨⟨visited, choice⟩, found, serves⟩
    have busy : totalByteLength config q ≠ 0 := Nat.ne_of_gt positive
    have nonempty := mt valid.totalByteLength_eq_zero_iff.mpr busy
    rcases select_cases valid.lists nonempty valid.busy found with ⟨middle, tail, selects⟩
    rcases valid.send_of_selects busy selects with ⟨last, marked, sends, deques⟩
    rw [sends] at serves
    cases serves
    exact ⟨_, deques.of_same same⟩
  next zero =>
    cases body
    exact ⟨ring, .idle (by omega) same⟩

/-- A deque comes to its end, and the same one for all sufficient fuel. -/
theorem deque_returns (valid : Valid config q ring) (now : ℚ) :
    ∃ fuel₀ q' pkt, (∀ fuel ≥ fuel₀, Dwrr.deque config now fuel q = some (q', pkt)) ∧
      (pkt.isSome = true ↔ 0 < totalByteLength config q) := by
  by_cases positive : 0 < totalByteLength config q
  · have busy : totalByteLength config q ≠ 0 := Nat.ne_of_gt positive
    have nonempty := mt valid.totalByteLength_eq_zero_iff.mpr busy
    obtain ⟨visited, choice, found⟩ := select_returns config.toTuning now valid.lists nonempty
      valid.busy valid.ordered.quantum (Nat.lt_succ_self _)
    rcases select_cases valid.lists nonempty valid.busy found with ⟨middle, tail, selects⟩
    rcases @send_of_selects _ _ _ _ now _ _ _ valid busy selects with ⟨last, marked, sends, _⟩
    refine ⟨∑ k, (slots q k).shortfall + 1,
      finish config.toTuning now (totalByteLength config last = 0) last,
      some (choice.queue, marked), fun fuel enough => ?_, by simp [positive]⟩
    unfold Dwrr.deque
    rw [if_pos positive, select_mono found enough, Option.bind_some, sends, Option.map_some]
  · refine ⟨0, finish config.toTuning now (totalByteLength config q = 0) q, none, fun fuel _ => ?_,
      by simp [positive]⟩
    unfold Dwrr.deque
    rw [if_neg positive, Option.map_some]

theorem command {request : Command} (valid : Valid config q ring)
    (returns : Dwrr.command config q request = some q') : Valid config q' ring := by
  cases request with
  | setQuantum queueId quantum =>
      rcases setQuantum_cases returns with ⟨i, _, positive, after, sameLinks, _⟩
      refine ⟨?_, ?_, fun k stored => ?_⟩
      · exact valid.lists.of_links sameLinks
      · rw [after]
        apply valid.ordered.update_of_flags_eq
        · rfl
        · exact valid.ordered.deficit i
        · exact positive
      · apply valid.inside k
        by_cases same : k = i
        · subst same
          rw [after, Function.update_self] at stored
          exact stored
        · rw [after, Function.update_of_ne same] at stored
          exact stored
  | setThresh queueId thresh =>
      rcases setThresh_cases returns with ⟨sameSlots, sameLinks, _⟩
      refine ⟨?_, ?_, ?_⟩
      · exact valid.lists.of_links sameLinks
      · rw [sameSlots]
        exact valid.ordered
      · rw [sameSlots]
        exact valid.inside

end Valid

end

/-! ### Reachable states -/

theorem valid_construct (config : Config) : Valid config construct [] := by
  refine ⟨.nil, ⟨List.nodup_nil, fun i => ?_, fun i => ?_, fun i => ?_, fun i => ?_, fun i => ?_⟩,
    fun i stored => absurd rfl stored⟩
  · simp [slots, construct, PacketDwrr.slot]
  · simp [slots, construct, PacketDwrr.slot]
  · simp [slots, construct, PacketDwrr.slot]
  · simp [slots, construct, PacketDwrr.slot]
  · simp [slots, construct, PacketDwrr.slot]

theorem valid_step {pow : ℚ → ℚ → ℚ} {s s' : Sys} {event : Event Command}
    (step : Step pow s event s') (valid : ∃ ring, Valid s.config s.q ring) :
    ∃ ring', Valid s'.config s'.q ring' := by
  rcases valid with ⟨ring, valid⟩
  cases step with
  | enque later returns =>
      rcases valid.enque_cases returns with ⟨ring', enques⟩
      exact ⟨ring', valid.enque enques⟩
  | deque later returns =>
      rcases valid.deque_cases returns with ⟨ring', deques⟩
      exact ⟨ring', valid.deque deques⟩
  | command returns => exact ⟨ring, valid.command returns⟩
  | timeout later pending => exact ⟨ring, valid.of_same ⟨rfl, rfl, rfl⟩⟩

theorem valid_of_reachable {pow : ℚ → ℚ → ℚ} {s : Sys} (reachable : Reachable pow s) :
    ∃ ring, Valid s.config s.q ring := by
  apply reachable.invariant (fun s => ∃ ring, Valid s.config s.q ring) _ valid_step
  intro start fresh
  rw [fresh]
  exact ⟨[], valid_construct start.config⟩

/-! ### Ranges -/

/-- Quanta and sizes are below `2 ^ 30`, and a counter that may still be granted a quantum is
as well. -/
structure Fits (slots : Fin 64 → Slot) : Prop where
  quantum : ∀ i, (slots i).quantum < 2 ^ 30
  size : ∀ i, ∀ pkt ∈ (slots i).packets, pkt.size < 2 ^ 30
  deficit : ∀ i, (slots i).deficitCounter < if (slots i).current then 2 ^ 31 else 2 ^ 30

namespace Fits

variable {slots : Fin 64 → Slot} {i : Fin 64}

/-- Granting a quantum does not overflow an `int`. -/
theorem credit_lt (fits : Fits slots) (i : Fin 64) : (slots i).credit < 2 ^ 31 := by
  have quantum := fits.quantum i
  have deficit := fits.deficit i
  unfold Slot.credit
  split at deficit
  next current => simp only [current, if_true]; omega
  next waiting => simp only [waiting]; simp only [Bool.false_eq_true, if_false]; omega

theorem update (fits : Fits slots) {slot : Slot} (quantum : slot.quantum < 2 ^ 30)
    (size : ∀ pkt ∈ slot.packets, pkt.size < 2 ^ 30)
    (deficit : slot.deficitCounter < if slot.current then 2 ^ 31 else 2 ^ 30) :
    Fits (Function.update slots i slot) := by
  refine ⟨fun k => ?_, fun k => ?_, fun k => ?_⟩
  all_goals by_cases same : k = i
  · subst same
    rwa [Function.update_self]
  · rw [Function.update_of_ne same]
    exact fits.quantum k
  · subst same
    rwa [Function.update_self]
  · rw [Function.update_of_ne same]
    exact fits.size k
  · subst same
    rwa [Function.update_self]
  · rw [Function.update_of_ne same]
    exact fits.deficit k

private theorem passes {before after : (Fin 64 → Slot) × List (Fin 64)} (fits : Fits before.1)
    (passes : ReflTransGen Passes before after) : Fits after.1 := by
  induction passes with
  | refl => exact fits
  | tail _ last inductionHypothesis =>
      cases last with
      | @intro slots i tail pkt rest front blocked =>
          have first : Fits slots := inductionHypothesis
          have small := first.size i pkt (by simp [front])
          refine first.update (first.quantum i) (first.size i) ?_
          show (slots i).credit < 2 ^ 30
          omega

private theorem send (fits : Fits slots) {pkt : Packet} {rest : List Packet}
    (front : (slots i).packets = pkt :: rest) :
    Fits (Function.update slots i ((slots i).visit.sent pkt.size rest)) := by
  have size : ∀ other ∈ rest, other.size < 2 ^ 30 := by
    intro other member
    exact fits.size i other (by simp [front, member])
  rw [Slot.visit_eq]
  unfold Slot.sent
  by_cases last : rest = []
  · rw [if_pos last]
    refine fits.update (fits.quantum i) size ?_
    show (0 : Int) < 2 ^ 30
    decide
  · rw [if_neg last]
    have credit := fits.credit_lt i
    refine fits.update (fits.quantum i) size ?_
    show (slots i).credit - pkt.size < 2 ^ 31
    omega

end Fits

/-- A packet or a quantum below `2 ^ 30`. -/
def Small : Event Command → Prop
  | .enque _ p _ => p.size < 2 ^ 30
  | .command (.setQuantum _ quantum) => quantum < 2 ^ 30
  | _ => True

private theorem fits_step {pow : ℚ → ℚ → ℚ} {s s' : Sys} {event : Event Command}
    (step : Step pow s event s') (small : Small event) (valid : ∃ ring, Valid s.config s.q ring)
    (fits : Fits (slots s.q)) : Fits (slots s'.q) := by
  rcases valid with ⟨ring, valid⟩
  cases step with
  | @enque now p q' taken later returns =>
      rcases valid.enque_cases returns with ⟨ring', enques⟩
      have stored : ∀ {marked : Packet}, MarkedFrom p marked →
          ∀ pkt ∈ (slots s.q (classify s.config p)).packets ++ [marked], pkt.size < 2 ^ 30 := by
        intro marked marker pkt member
        rcases List.mem_append.mp member with old | new
        · exact fits.size _ pkt old
        · rw [List.mem_singleton.mp new, marker.1]
          exact small
      cases enques with
      | drop same =>
          rw [same.slots]
          exact fits
      | activate marker inactive after lists quantumSum =>
          rw [after]
          refine fits.update (fits.quantum _) (stored marker) ?_
          show (0 : Int) < 2 ^ 30
          decide
      | append marker active after lists quantumSum =>
          rw [after]
          exact fits.update (fits.quantum _) (stored marker) (fits.deficit _)
  | deque later returns =>
      rcases valid.deque_cases returns with ⟨ring', deques⟩
      cases deques with
      | idle empty same =>
          rw [same.slots]
          exact fits
      | send busy passes front affordable marker after lists quantumSum =>
          have middle : Fits _ := fits.passes passes
          rw [after]
          exact middle.send front
  | @command request q' returns =>
      cases request with
      | setQuantum queueId quantum =>
          rcases setQuantum_cases returns with ⟨i, _, _, after, _, _⟩
          rw [after]
          exact fits.update small (fits.size i) (fits.deficit i)
      | setThresh queueId thresh =>
          rw [(setThresh_cases returns).1]
          exact fits
  | timeout later pending => exact fits

private theorem fits_of_run {pow : ℚ → ℚ → ℚ} {start s : Sys} {events : List (Event Command)}
    (fresh : Initial start) (run : Run (Step pow) start events s)
    (small : ∀ event ∈ events, Small event) : Fits (slots s.q) := by
  have both := (run.restrict small).preserves
    (fun s => (∃ ring, Valid s.config s.q ring) ∧ Fits (slots s.q))
    (fun step before =>
      ⟨valid_step step.1 before.1, fits_step step.1 step.2 before.1 before.2⟩)
  apply (both _).2
  rw [fresh]
  refine ⟨⟨[], valid_construct start.config⟩, fun i => ?_, fun i => ?_, fun i => ?_⟩
  · show (1500 : Int) < 2 ^ 30
    decide
  · intro pkt member
    exact absurd member List.not_mem_nil
  · show (0 : Int) < 2 ^ 30
    decide

/-! ### The active list -/

/-- The active list goes through `ring`: the queues that hold packets, each once. They are
the active ones, and at most the first of them is being visited. -/
structure WellLinked (q : DwrrQueue) (ring : List (Fin 64)) : Prop where
  chain : Chain (fun i => (q.queues i).next) q.activeList ring
  nodup : ring.Nodup
  mem_iff : ∀ i, i ∈ ring ↔ 0 < (q.queues i).packets.length
  active_iff : ∀ i, (q.queues i).active = true ↔ 0 < (q.queues i).packets.length
  current : ∀ i, (q.queues i).current = true → ring.head? = some i
  deficit : ∀ i, 0 ≤ (q.queues i).deficitCounter

theorem Valid.wellLinked {config : Config} {q : DwrrQueue} {ring : List (Fin 64)}
    (valid : Valid config q ring) : WellLinked q ring where
  chain := valid.lists
  nodup := valid.ordered.nodup
  mem_iff := fun i => (valid.ordered.mem_iff i).trans List.length_pos_iff.symm
  active_iff := fun i => (valid.ordered.active_iff i).trans List.length_pos_iff.symm
  current := valid.ordered.current
  deficit := valid.ordered.deficit

/-- **Active list and progress.** After every run the pointers of the active list form a
finite chain through the queues that hold packets; an enque ends; a deque ends whatever the
sizes and the quanta, without coming to a NULL head, and returns a packet exactly when the
port holds bytes. With sizes and quanta below `2 ^ 30` no counter of the loop overflows an
`int`. -/
theorem activeList_of_run {pow : ℚ → ℚ → ℚ} {start s : Sys} {events : List (Event Command)}
    (fresh : Initial start) (run : Run (Step pow) start events s) :
    ∃ ring, WellLinked s.q ring ∧
      (∀ now p, ∃ q' taken, enque pow s.config now p s.q = some (q', taken)) ∧
      (∀ now, ∃ fuel₀ q' pkt, (∀ fuel ≥ fuel₀, deque s.config now fuel s.q = some (q', pkt)) ∧
        (pkt.isSome = true ↔ 0 < totalByteLength s.config s.q)) ∧
      ((∀ event ∈ events, Small event) → ∀ middle, ReflTransGen Passes (slots s.q, ring) middle →
        ∀ i, 0 ≤ (middle.1 i).credit ∧ (middle.1 i).credit < 2 ^ 31) := by
  rcases valid_of_reachable ⟨start, events, fresh, run⟩ with ⟨ring, valid⟩
  refine ⟨ring, valid.wellLinked, fun now p => ?_, valid.deque_returns, ?_⟩
  · have active_iff : ∀ k, (slots s.q k).active = true ↔ k ∈ ring := fun k =>
      (valid.ordered.active_iff k).trans (valid.ordered.mem_iff k).symm
    rcases enque_returns pow s.config now p valid.lists active_iff with ⟨q', taken, _, returns, _⟩
    exact ⟨q', taken, returns⟩
  · intro small middle passes i
    have ordered : Ordered middle.1 middle.2 := valid.ordered.passes passes
    have fits : Fits middle.1 := (fits_of_run fresh run small).passes passes
    exact ⟨Slot.credit_nonneg (ordered.deficit i) (ordered.quantum i), fits.credit_lt i⟩

/-- A packet of queue 0 is sent while queue 1 holds one of two quanta. -/
def twoQuanta : List (Event Command) :=
  [.enque 0 (segment 0 1500 fullSize_pos) true, .enque 0 (segment 1 3000 (by decide)) true,
    .deque 1 (some (0, segment 0 1500 fullSize_pos)), .enque 1 (segment 0 1500 fullSize_pos) true]

private theorem twoQuanta_replays :
    (replay (Sys.next wholePow 8) (fun _ => True) fresh twoQuanta).isSome = true := by
  decide +kernel

def waiting : Sys := (replay (Sys.next wholePow 8) (fun _ => True) fresh twoQuanta).get
  twoQuanta_replays

theorem waiting_activeList : ∃ ring, WellLinked waiting.q ring ∧
    (∀ now p, ∃ q' taken, enque wholePow waiting.config now p waiting.q = some (q', taken)) ∧
    (∀ now, ∃ fuel₀ q' pkt,
      (∀ fuel ≥ fuel₀, deque waiting.config now fuel waiting.q = some (q', pkt)) ∧
        (pkt.isSome = true ↔ 0 < totalByteLength waiting.config waiting.q)) ∧
    ((∀ event ∈ twoQuanta, Small event) →
      ∀ middle, ReflTransGen Passes (slots waiting.q, ring) middle →
        ∀ i, 0 ≤ (middle.1 i).credit ∧ (middle.1 i).credit < 2 ^ 31) :=
  have initial : Initial fresh := rfl
  activeList_of_run initial (RunWithin.of_replay_isSome Sys.next_sound twoQuanta_replays).run

end MqEcn.Ns2.Dwrr
