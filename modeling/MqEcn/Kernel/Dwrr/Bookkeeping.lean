import MqEcn.Kernel.Dwrr.Step

/-!
Contract: the bookkeeping of `sch_dwrr` in every reachable state.

Owns: the invariant that ties the cached priority, the active lists and the FIFO
contents together, its preservation by every operation, the counters as sums, and
the exactness of the subtractions of `dwrr_dequeue`.

Does not own: termination of the loop and fairness.
-/

set_option autoImplicit false

namespace MqEcn.Kernel.Dwrr

open MqEcn.Kernel
open MqEcn.Library.Transition
open MqEcn.Library.Word
open Relation (ReflTransGen)

/-! ### The active lists -/

/-- A queue is linked once into the active list of its priority while its FIFO holds
a packet, and nowhere else. -/
def Linked (q : DwrrSchedData) : Prop :=
  ∀ prio i, (q.active prio).count i =
    if (q.queues i).prio = prio ∧ (q.queues i).qdisc ≠ [] then 1 else 0

namespace Linked

variable {q : DwrrSchedData}

theorem mem_iff (linked : Linked q) {prio i : Fin 8} :
    i ∈ q.active prio ↔ (q.queues i).prio = prio ∧ (q.queues i).qdisc ≠ [] := by
  rw [← List.count_pos_iff, linked prio i]
  split <;> simp_all

theorem nodup (linked : Linked q) (prio : Fin 8) : (q.active prio).Nodup := by
  rw [List.nodup_iff_count_le_one]
  intro i
  rw [linked prio i]
  split <;> omega

/-- The head of an active list has that priority and a packet. -/
theorem head (linked : Linked q) {prio i : Fin 8} {ring : List (Fin 8)}
    (isHead : q.active prio = i :: ring) :
    (q.queues i).prio = prio ∧ (q.queues i).qdisc ≠ [] :=
  linked.mem_iff.mp (by simp [isHead])

/-- Moving the head to the tail links the same queues. -/
theorem rotate (linked : Linked q) {params : Params} {prio i : Fin 8} {ring : List (Fin 8)}
    (isHead : q.active prio = i :: ring) : Linked (dwrrRotate params prio i q) := by
  intro other j
  have same := view_rotate params prio i q
  rw [prio_of_view same, qdisc_of_view same, ← linked other j, dwrrRotate_active]
  by_cases here : other = prio
  · subst here
    rw [Function.update_self, isHead, List.erase_cons_head, List.count_append,
      List.count_cons, List.count_cons, List.count_nil]
    omega
  · rw [Function.update_of_ne here]

theorem rotations (linked : Linked q) {params : Params} {prio : Fin 8} {middle : DwrrSchedData}
    (rotations : ReflTransGen (Rotates params prio) q middle) : Linked middle := by
  induction rotations with
  | refl => exact linked
  | tail _ last inductionHypothesis =>
      cases last with
      | intro isHead _ _ => exact inductionHypothesis.rotate isHead

/-- A queue is unlinked when its last packet leaves. -/
theorem transmit (linked : Linked q) {params : Params} {now result : Int} {prio i : Fin 8}
    {ring : List (Fin 8)} {skb : Skb} {rest : List Skb} (isHead : q.active prio = i :: ring)
    (front : (q.queues i).qdisc = skb :: rest) :
    Linked (dwrrTransmit params now prio i skb rest result q).1 := by
  intro other j
  obtain ⟨own, busy⟩ := linked.head isHead
  have before := linked other j
  rw [dwrrTransmit_prio, dwrrTransmit_qdisc, dwrrTransmit_active]
  by_cases last : rest = []
  · rw [if_pos last]
    by_cases same : j = i
    · subst same
      rw [if_pos rfl, if_neg fun both => both.2 last]
      by_cases here : other = prio
      · subst here
        rw [if_pos ⟨own, busy⟩, isHead, List.count_cons_self] at before
        rw [Function.update_self, isHead, List.erase_cons_head]
        omega
      · rw [Function.update_of_ne here, before, if_neg fun both => here (both.1.symm.trans own)]
    · rw [if_neg same, ← before]
      by_cases here : other = prio
      · subst here
        rw [Function.update_self, isHead, List.erase_cons_head,
          List.count_cons_of_ne (Ne.symm same)]
      · rw [Function.update_of_ne here]
  · rw [if_neg last, before]
    by_cases same : j = i
    · subst same
      simp [front, last]
    · simp [same]

/-- A queue is linked when it takes its first packet. -/
theorem store (linked : Linked q) (params : Params) (now : Int) (i prio : Fin 8) (skb : Skb) :
    Linked (dwrrAdmit params now i prio skb q) := by
  intro other j
  have before := linked other j
  have own := dwrrAdmit_prio params now i prio skb q j
  rw [dwrrAdmit_active]
  simp only [dwrrAdmit_busy]
  by_cases idle : (q.queues i).qdisc = []
  · rw [if_pos idle]
    by_cases same : j = i
    · subst same
      rw [if_pos ⟨rfl, idle⟩] at own
      rw [if_neg fun both => both.2 idle] at before
      rw [own]
      by_cases here : other = prio
      · subst here
        rw [Function.update_self, List.count_append, before]
        simp
      · rw [Function.update_of_ne here, before, if_neg fun both => here both.1.symm]
    · rw [if_neg fun both => same both.1] at own
      simp only [own, same, false_or]
      rw [← before]
      by_cases here : other = prio
      · subst here
        rw [Function.update_self, List.count_append, List.count_singleton,
          if_neg (by simpa using Ne.symm same), Nat.add_zero]
      · rw [Function.update_of_ne here]
  · rw [if_neg fun both => idle both.2] at own
    rw [if_neg idle, before, own]
    by_cases same : j = i
    · subst same
      simp [idle]
    · simp [same]

end Linked

theorem linked_dwrrInit (now : Int) (rate : Nat) : Linked (dwrrInit now rate) := by
  intro prio i
  simp [dwrrInit, dwrrChange]

theorem Linked.step {bfifo : Bfifo} {s s' : Sys} {event : Event Param}
    (step : Step bfifo s event s') (linked : Linked s.q) : Linked s'.q := by
  cases step with
  | enqueue later returns =>
      obtain ⟨roundTime, ⟨_, rfl⟩ | ⟨_, _, rfl⟩⟩ := dwrrEnqueue_cases returns
      · exact linked
      · exact Linked.store (q := { s.q with roundTime }) linked _ _ _ _ _
  | dequeue later returns =>
      rcases dwrrDequeue_cases returns with ⟨_, rfl, _⟩ | ⟨prio, middle, _, rotations, exit⟩
      · exact linked
      · have rotated := linked.rotations rotations
        cases exit with
        | fault | null | throttled => exact rotated
        | packet head front affordable enough => exact rotated.transmit head front
  | sysctl => exact linked
  | change => exact linked

/-- Every reachable state links exactly the queues that hold packets. -/
theorem linked_of_reachable {bfifo : Bfifo} {s : Sys} (reachable : Reachable bfifo s) :
    Linked s.q := by
  apply reachable.invariant (fun s => Linked s.q) _ Linked.step
  intro start fresh
  obtain ⟨rate, initial⟩ := fresh
  rw [initial]
  exact linked_dwrrInit _ _

/-! ### The deficits -/

/-- Every deficit is a 32-bit value. -/
def DeficitsFit (q : DwrrSchedData) : Prop := ∀ i, (q.queues i).deficit < 2 ^ 32

private theorem DeficitsFit.rotate {q : DwrrSchedData} (fit : DeficitsFit q) (params : Params)
    (prio i : Fin 8) : DeficitsFit (dwrrRotate params prio i q) := by
  intro other
  by_cases same : other = i
  · subst same
    have quantum := (params.queueQuantum_range other).2
    have sum := u32_lt ((q.queues other).deficit + params.queueQuantum other)
    rw [dwrrRotate_deficit]
    split <;> omega
  · rw [dwrrRotate_deficit_of_ne _ _ _ same]
    exact fit other

theorem DeficitsFit.rotations {params : Params} {prio : Fin 8} {q middle : DwrrSchedData}
    (fit : DeficitsFit q) (rotations : ReflTransGen (Rotates params prio) q middle) :
    DeficitsFit middle := by
  induction rotations with
  | refl => exact fit
  | tail _ last inductionHypothesis =>
      cases last with
      | intro => exact inductionHypothesis.rotate _ _ _

theorem DeficitsFit.step {bfifo : Bfifo} {s s' : Sys} {event : Event Param}
    (step : Step bfifo s event s') (fit : DeficitsFit s.q) : DeficitsFit s'.q := by
  cases step with
  | enqueue later returns =>
      obtain ⟨roundTime, ⟨_, rfl⟩ | ⟨_, _, rfl⟩⟩ := dwrrEnqueue_cases returns
      · exact fit
      · intro other
        rw [dwrrAdmit_deficit]
        split
        · exact lt_of_le_of_lt (s.params.queueQuantum_range _).2 (by decide)
        · exact fit other
  | dequeue later returns =>
      rcases dwrrDequeue_cases returns with ⟨_, rfl, _⟩ | ⟨prio, middle, _, rotations, exit⟩
      · exact fit
      · have rotated := fit.rotations rotations
        cases exit with
        | fault | null | throttled => exact rotated
        | @packet i ring skb rest head front affordable enough =>
            intro other
            by_cases same : other = i
            · subst same
              rw [dwrrTransmit_deficit]
              exact u32_lt _
            · rw [dwrrTransmit_deficit_of_ne _ _ _ _ _ _ _ same]
              exact rotated other
  | sysctl => exact fit
  | change => exact fit

theorem deficitsFit_of_reachable {bfifo : Bfifo} {s : Sys} (reachable : Reachable bfifo s) :
    DeficitsFit s.q := by
  apply reachable.invariant (fun s => DeficitsFit s.q) _ DeficitsFit.step
  intro start fresh i
  obtain ⟨rate, initial⟩ := fresh
  simp [initial, dwrrInit, dwrrChange]

/-! ### The counters -/

theorem balanced_dwrrInit (now : Int) (rate : Nat) : (view (dwrrInit now rate)).Balanced :=
  Ledger.balanced_of_empty (fun _ => rfl) (fun _ => rfl) (fun _ => rfl) rfl rfl

theorem balanced_step {bfifo : Bfifo} (bounded : bfifo.Bounded) {s s' : Sys}
    {event : Event Param} (step : Step bfifo s event s') (linked : Linked s.q)
    (balanced : (view s.q).Balanced) : (view s'.q).Balanced := by
  cases step with
  | enqueue later returns =>
      obtain ⟨roundTime, ⟨_, rfl⟩ | ⟨_, accepted, rfl⟩⟩ := dwrrEnqueue_cases returns
      · exact balanced
      · obtain ⟨marked, sameLen, viewed⟩ := view_admit s.params _ _ _ _ { s.q with roundTime }
        rw [viewed, view_roundTime]
        apply balanced.enter
        rw [sameLen]
        exact bounded _ _ accepted
  | dequeue later returns =>
      rcases dwrrDequeue_cases returns with ⟨_, rfl, _⟩ | ⟨prio, middle, _, rotations, exit⟩
      · exact balanced
      · have same := view_of_rotations rotations
        rw [← same] at balanced
        cases exit with
        | fault | null | throttled => exact balanced
        | packet head front affordable enough =>
            rw [view_transmit]
            exact balanced.depart front ((linked.rotations rotations).head head).1
  | sysctl => exact balanced
  | change => exact balanced

theorem balanced_of_reachable {bfifo : Bfifo} (bounded : bfifo.Bounded) {s : Sys}
    (reachable : Reachable bfifo s) : (view s.q).Balanced := by
  suffices invariant : Linked s.q ∧ (view s.q).Balanced from invariant.2
  apply reachable.invariant fun s => Linked s.q ∧ (view s.q).Balanced
  · intro start fresh
    obtain ⟨rate, initial⟩ := fresh
    rw [initial]
    exact ⟨linked_dwrrInit _ _, balanced_dwrrInit _ _⟩
  · intro first event last step both
    exact ⟨both.1.step step, balanced_step bounded step both.1 both.2⟩

/-! ### The invariant -/

/-- The bookkeeping of the qdisc. -/
structure Bookkeeping (q : DwrrSchedData) : Prop where
  /-- A queue with packets is linked exactly once in the list of its priority. -/
  linked : ∀ i, (q.queues i).qdisc ≠ [] → (q.active (q.queues i).prio).count i = 1
  /-- It is in no other list. -/
  elsewhere : ∀ i prio, prio ≠ (q.queues i).prio → i ∉ q.active prio
  /-- A queue without packets is in no list. -/
  unlinked : ∀ i, (q.queues i).qdisc = [] → ∀ prio, i ∉ q.active prio
  lenBytes : ∀ i, (q.queues i).lenBytes = ((q.queues i).qdisc.map skbSize).sum
  prioLenBytes : ∀ prio,
    q.prioLenBytes prio = ∑ i with (q.queues i).prio = prio, (q.queues i).lenBytes
  sumLenBytes : q.sumLenBytes = ∑ i, (q.queues i).lenBytes
  qlen : q.qlen = ∑ i, (q.queues i).qdisc.length

/-- The five subtractions of a dequeue that returns a packet of queue `i`, taken
from the state `middle` the loop exits in: none of them wraps. -/
structure SubtractsExactly (prio i : Fin 8) (len : Nat) (middle q' : DwrrSchedData) : Prop where
  prioLenBytes : q'.prioLenBytes prio + len = middle.prioLenBytes prio
  sumLenBytes : q'.sumLenBytes + len = middle.sumLenBytes
  qlen : q'.qlen + 1 = middle.qlen
  lenBytes : (q'.queues i).lenBytes + len = (middle.queues i).lenBytes
  deficit : (q'.queues i).deficit + len = (middle.queues i).deficit

private theorem bookkeeping_of_invariants {q : DwrrSchedData} (linked : Linked q)
    (balanced : (view q).Balanced) : Bookkeeping q where
  linked := fun i nonempty => by rw [linked, if_pos ⟨rfl, nonempty⟩]
  elsewhere := fun i prio different member => different (linked.mem_iff.mp member).1.symm
  unlinked := fun i empty prio member => (linked.mem_iff.mp member).2 empty
  lenBytes := balanced.lenBytes
  prioLenBytes := fun prio => by
    rw [Finset.sum_filter]
    exact balanced.prioLenBytes prio
  sumLenBytes := balanced.sumLenBytes
  qlen := balanced.qlen

private theorem subtractsExactly {params : Params} {now result : Int} {q : DwrrSchedData}
    {prio i : Fin 8} {ring : List (Fin 8)} {skb : Skb} {rest : List Skb} (linked : Linked q)
    (balanced : (view q).Balanced) (fit : DeficitsFit q) (head : q.active prio = i :: ring)
    (front : (q.queues i).qdisc = skb :: rest) (affordable : skbSize skb ≤ (q.queues i).deficit) :
    SubtractsExactly prio i (skbSize skb) q
      (dwrrTransmit params now prio i skb rest result q).1 := by
  have own := (linked.head head).1
  obtain ⟨lenCovers, prioCovers, sumCovers, countCovers⟩ := balanced.covers front
  have prioLt := balanced.prioLenBytes_lt prio
  have lenLt := balanced.lenBytes_lt i
  simp only [view, own] at lenCovers prioCovers sumCovers countCovers prioLt lenLt
  refine ⟨?_, ?_, ?_, ?_, ?_⟩
  · simpa [dwrrTransmit] using u32Sub_add_of_le prioLt prioCovers
  · exact u32Sub_add_of_le balanced.sumLenBytes_lt sumCovers
  · exact u32Sub_add_of_le balanced.qlen_lt countCovers
  · simpa [dwrrTransmit] using u32Sub_add_of_le lenLt lenCovers
  · rw [dwrrTransmit_deficit]
    exact u32Sub_add_of_le (fit i) affordable

/-- **Bookkeeping.** In every reachable state the active lists link exactly the
queues that hold packets, every counter is the sum it stands for, and a dequeue
that returns a packet wraps no subtraction. -/
theorem bookkeeping_of_reachable {bfifo : Bfifo} (bounded : bfifo.Bounded) {s : Sys}
    (reachable : Reachable bfifo s) :
    Bookkeeping s.q ∧
      ∀ (now : Int) (fuel : Nat) (q' : DwrrSchedData) (i : Fin 8) (skb : Skb),
        dwrrDequeue s.params now fuel s.q = some (q', .packet i skb) →
          ∃ prio middle, prioSchedule s.q = some prio ∧
            ReflTransGen (Rotates s.params prio) s.q middle ∧
            Exits s.params now prio middle q' (.packet i skb) ∧
            SubtractsExactly prio i (skbSize skb) middle q' := by
  have linked := linked_of_reachable reachable
  have balanced := balanced_of_reachable bounded reachable
  refine ⟨bookkeeping_of_invariants linked balanced, fun now fuel q' i skb returns => ?_⟩
  rcases dwrrDequeue_cases returns with ⟨_, _, impossible⟩ |
    ⟨prio, middle, selected, rotations, exit⟩
  · cases impossible
  · refine ⟨prio, middle, selected, rotations, exit, ?_⟩
    have same := view_of_rotations rotations
    cases exit with
    | packet head front affordable enough =>
        rw [skbSize_eq_of_len_eq (dwrrTransmit_markedFrom _ _ _ _ _ _ _ _).len_eq]
        rw [← same] at balanced
        exact subtractsExactly (linked.rotations rotations) balanced
          ((deficitsFit_of_reachable reachable).rotations rotations) head front affordable

/-! ### A loaded qdisc -/

/-- A fresh qdisc at 1 Gbit/s with the default parameters. -/
def idle : Sys := ⟨paramsInit, dwrrInit 0 125000000, 0⟩

/-- The state after an enqueue at `now`. -/
def Sys.enqueue (s : Sys) (now : Int) (skb : Skb) : Sys :=
  ⟨s.params, (dwrrEnqueue byteLimit s.params now skb s.q).1, now⟩

theorem Sys.enqueue_step {s : Sys} {now : Int} {skb : Skb} {ret : NetXmit} (later : s.clock ≤ now)
    (returns : (dwrrEnqueue byteLimit s.params now skb s.q).2 = ret) :
    Step byteLimit s (.enqueue now skb ret) (s.enqueue now skb) :=
  .enqueue later (Prod.ext rfl returns)

/-- Two frames in queue 0 and one in queue 1. -/
def loaded : Sys :=
  ((idle.enqueue 1 (fullFrame 0)).enqueue 2 (fullFrame 4)).enqueue 3 (fullFrame 0)

def loadedHistory : List (Event Param) :=
  [.enqueue 1 (fullFrame 0) .success, .enqueue 2 (fullFrame 4) .success,
    .enqueue 3 (fullFrame 0) .success]

private theorem loaded_run : Run (Step byteLimit) idle loadedHistory loaded :=
  .cons (Sys.enqueue_step (by decide) (by decide))
    (.cons (Sys.enqueue_step (by decide) (by decide))
      (.single (Sys.enqueue_step (by decide) (by decide))))

theorem loaded_reachable : Reachable byteLimit loaded :=
  ⟨idle, loadedHistory, ⟨_, rfl⟩, loaded_run⟩

theorem bookkeeping_of_loaded : Bookkeeping loaded.q :=
  (bookkeeping_of_reachable byteLimit_bounded loaded_reachable).1

end MqEcn.Kernel.Dwrr
