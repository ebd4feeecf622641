import Mathlib.Algebra.BigOperators.Fin
import MqEcn.Kernel.PrioDwrr.Step

/-!
Contract: the bookkeeping of `sch_prio_dwrr` in every reachable state.

Owns: the invariant that ties the active list, the flags, the FIFOs and the cached quanta of
the DWRR queues together, its preservation by every operation, the counters as sums, and the
exactness of the subtractions of a dequeue.

Does not own: termination of the loop, the estimates, and the order of service.
-/

set_option autoImplicit false

namespace MqEcn.Kernel.PrioDwrr

open Finset
open MqEcn.Kernel
open MqEcn.Library
open MqEcn.Library.Transition
open MqEcn.Library.Word
open Relation (ReflTransGen)

/-! ### The active list and the quanta -/

/-- What a queue contributes to `quantum_sum`. -/
def DwrrClass.granted (cl : DwrrClass) : Nat := if cl.active then cl.quantum else 0

/-- `PRIO_DWRR_QDISC_QUANTUM_MAX`. -/
def quantumMax : Nat := 200 * 1024

/-- The active list, the flags and the quanta of the DWRR queues agree. -/
structure Scheduled (q : PrioDwrrSchedData) : Prop where
  consistent : ActiveRing.Consistent (flags q) q.activeList
  granted_le : ∀ i, (q.dwrrQueues i).granted ≤ quantumMax
  quantumSum : q.quantumSum = ∑ i, (q.dwrrQueues i).granted
  deficit_lt : ∀ i, (q.dwrrQueues i).deficitCounter < 2 ^ 32

theorem DwrrClass.credit_lt {cl : DwrrClass} (deficit : cl.deficitCounter < 2 ^ 32) :
    cl.credit < 2 ^ 32 := by
  unfold DwrrClass.credit
  split
  · exact deficit
  · exact u32_lt _

/-- A queue that is marked active and takes a packet keeps its marks and its quantum. -/
theorem DwrrClass.stored_of_active (cl : DwrrClass) (now : Int) (quantum : Nat) (marked : Skb)
    (active : cl.active = true) (marks : cl.flags.active = cl.flags.busy) :
    (cl.stored now quantum marked).flags = cl.flags ∧
      (cl.stored now quantum marked).granted = cl.granted ∧
      (cl.stored now quantum marked).deficitCounter = cl.deficitCounter := by
  have busy : cl.flags.busy = true := marks.symm.trans active
  unfold stored
  rw [if_pos active]
  refine ⟨?_, rfl, rfl⟩
  show ActiveRing.Flags.mk _ cl.active cl.curr = ActiveRing.Flags.mk cl.flags.busy cl.active cl.curr
  rw [busy]
  simp

/-- A queue that is not is granted the quantum of the moment. -/
theorem DwrrClass.stored_of_inactive (cl : DwrrClass) (now : Int) (quantum : Nat) (marked : Skb)
    (inactive : ¬cl.active = true) :
    (cl.stored now quantum marked).flags = ⟨true, true, false⟩ ∧
      (cl.stored now quantum marked).granted = quantum ∧
      (cl.stored now quantum marked).deficitCounter = 0 := by
  unfold stored
  rw [if_neg inactive]
  exact ⟨by simp [flags], rfl, rfl⟩

/-- The quanta that reach the scheduler. -/
theorem queueQuantum_le (params : Params) (i : Fin 7) : params.queueQuantum i ≤ quantumMax :=
  (params.queueQuantum_range i).2

section

variable {q q' middle : PrioDwrrSchedData} {i : Fin 7} {ring : List (Fin 7)} {skb : Skb}
  {rest : List Skb}

namespace Scheduled

/-- The quanta of seven queues stay far below `2 ^ 32`. -/
theorem quantumSum_le (scheduled : Scheduled q) : q.quantumSum ≤ 7 * quantumMax := by
  have total := Accounting.total_le_card_mul scheduled.granted_le
  rw [Fintype.card_fin, ← scheduled.quantumSum] at total
  exact total

/-- The head of the active list holds packets and is marked active. -/
theorem head_active (scheduled : Scheduled q) (head : q.activeList = i :: ring) :
    (q.dwrrQueues i).active = true := by
  have consistent := scheduled.consistent
  rw [head] at consistent
  exact (consistent.active_eq i).trans consistent.head_busy

theorem head_busy (scheduled : Scheduled q) (head : q.activeList = i :: ring) :
    (q.dwrrQueues i).qdisc ≠ [] := by
  have consistent := scheduled.consistent
  rw [head] at consistent
  have busy : (!(q.dwrrQueues i).qdisc.isEmpty) = true := consistent.head_busy
  simpa using busy

/-- The sum covers the quantum of the head, so taking it away wraps nowhere. -/
theorem quantum_le_quantumSum (scheduled : Scheduled q) (head : q.activeList = i :: ring) :
    (q.dwrrQueues i).quantum ≤ q.quantumSum := by
  have part := Accounting.measure_le_total DwrrClass.granted q.dwrrQueues i
  rw [← scheduled.quantumSum] at part
  unfold DwrrClass.granted at part
  rwa [if_pos (scheduled.head_active head)] at part

/-- One DWRR queue is replaced, and `quantum_sum` moves with what it contributes. -/
theorem update (scheduled : Scheduled q) {cl : DwrrClass}
    (queues : q'.dwrrQueues = Function.update q.dwrrQueues i cl)
    (consistent : ActiveRing.Consistent (Function.update (flags q) i cl.flags) q'.activeList)
    (granted : cl.granted ≤ quantumMax)
    (exchange : q'.quantumSum + (q.dwrrQueues i).granted = q.quantumSum + cl.granted)
    (deficit : cl.deficitCounter < 2 ^ 32) : Scheduled q' := by
  refine ⟨?_, fun k => ?_, ?_, fun k => ?_⟩
  · rw [flags_update queues]
    exact consistent
  · rw [queues]
    by_cases same : k = i
    · subst same
      rwa [Function.update_self]
    · rw [Function.update_of_ne same]
      exact scheduled.granted_le k
  · have total := Accounting.total_update DwrrClass.granted q.dwrrQueues i cl
    rw [← scheduled.quantumSum, ← queues] at total
    omega
  · rw [queues]
    by_cases same : k = i
    · subst same
      rwa [Function.update_self]
    · rw [Function.update_of_ne same]
      exact scheduled.deficit_lt k

/-- What only reads the DWRR queues, the list and the sum does not see the other fields. -/
theorem congr (scheduled : Scheduled q) (queues : q'.dwrrQueues = q.dwrrQueues)
    (activeList : q'.activeList = q.activeList) (quantumSum : q'.quantumSum = q.quantumSum) :
    Scheduled q' := by
  have same : flags q' = flags q := by
    unfold flags
    rw [queues]
  refine ⟨?_, ?_, ?_, ?_⟩
  · rw [same, activeList]
    exact scheduled.consistent
  · rw [queues]
    exact scheduled.granted_le
  · rw [quantumSum, queues]
    exact scheduled.quantumSum
  · rw [queues]
    exact scheduled.deficit_lt

theorem idleReset (scheduled : Scheduled q) (params : Params) (now : Int) :
    Scheduled (idleReset params now q) := by
  rcases exists_idleReset_eq params now q with ⟨roundTimeNs, quantumSumEstimate, reset⟩
  rw [reset]
  exact scheduled.congr rfl rfl rfl

private theorem refresh (scheduled : Scheduled q) (head : q.activeList = i :: ring) :
    Scheduled (refresh i q) := by
  have consistent := scheduled.consistent
  rw [head] at consistent
  apply scheduled.update (refresh_dwrrQueues i q)
  · rw [refresh_activeList, head]
    exact consistent.visit
  · exact scheduled.granted_le i
  · rw [refresh_quantumSum]
    rfl
  · exact DwrrClass.credit_lt (scheduled.deficit_lt i)

/-- Exchanging the quantum of the head wraps nowhere. -/
theorem rotate_quantumSum_eq (scheduled : Scheduled q) (params : Params) (now : Int)
    (head : q.activeList = i :: ring) :
    (rotate params now i (PrioDwrr.refresh i q)).quantumSum =
      q.quantumSum - (q.dwrrQueues i).quantum + params.queueQuantum i := by
  have sum := scheduled.quantumSum_le
  have covers := scheduled.quantum_le_quantumSum head
  have fresh := queueQuantum_le params i
  unfold quantumMax at sum fresh
  rw [rotate_quantumSum, u32Sub_of_le (by omega) covers, u32_of_lt (by omega)]

private theorem rotate (scheduled : Scheduled q) (params : Params) (now : Int)
    (head : q.activeList = i :: ring) : Scheduled (rotate params now i (PrioDwrr.refresh i q)) := by
  have consistent := scheduled.consistent
  rw [head] at consistent
  have active := scheduled.head_active head
  have covers := scheduled.quantum_le_quantumSum head
  have grants : (q.dwrrQueues i).granted = (q.dwrrQueues i).quantum := if_pos active
  have turned : ((q.dwrrQueues i).turned now (params.queueQuantum i)).granted =
      params.queueQuantum i := if_pos active
  apply scheduled.update (rotate_dwrrQueues params now i q)
  · rw [rotate_activeList params now head]
    exact consistent.turn
  · rw [turned]
    exact queueQuantum_le params i
  · rw [scheduled.rotate_quantumSum_eq params now head, grants, turned]
    omega
  · exact DwrrClass.credit_lt (scheduled.deficit_lt i)

theorem rotations {params : Params} {now : Int} (scheduled : Scheduled q)
    (rotations : ReflTransGen (Rotates params now) q middle) : Scheduled middle := by
  induction rotations with
  | refl => exact scheduled
  | tail _ last inductionHypothesis =>
      cases last with
      | intro head front blocked => exact inductionHypothesis.rotate params now head

/-- Taking the quantum of a queue that retires wraps nowhere. -/
theorem transmit_quantumSum_eq (scheduled : Scheduled q) (params : Params) (now toks : Int)
    (skb : Skb) (rest : List Skb) (head : q.activeList = i :: ring) :
    (transmit params now i skb rest toks (PrioDwrr.refresh i q)).1.quantumSum =
      if rest = [] then q.quantumSum - (q.dwrrQueues i).quantum else q.quantumSum := by
  have sum := scheduled.quantumSum_le
  unfold quantumMax at sum
  rw [transmit_quantumSum,
    u32Sub_of_le (by omega) (scheduled.quantum_le_quantumSum head)]

private theorem transmit (scheduled : Scheduled q) (params : Params) (now toks : Int)
    (head : q.activeList = i :: ring) :
    Scheduled (transmit params now i skb rest toks (PrioDwrr.refresh i q)).1 := by
  have consistent := scheduled.consistent
  rw [head] at consistent
  have active := scheduled.head_active head
  have covers := scheduled.quantum_le_quantumSum head
  have grants : (q.dwrrQueues i).granted = (q.dwrrQueues i).quantum := if_pos active
  have bounded := scheduled.granted_le i
  have exact := scheduled.transmit_quantumSum_eq params now toks skb rest head
  have list := transmit_activeList params now toks skb rest head
  apply scheduled.update (transmit_dwrrQueues params now toks i skb rest q)
  · rw [list]
    by_cases last : rest = []
    · rw [if_pos last]
      have retired : ((q.dwrrQueues i).sent q.rate now skb rest).flags = ⟨false, false, false⟩ := by
        simp [DwrrClass.flags, DwrrClass.sent, last]
      rw [retired]
      exact consistent.leave
    · rw [if_neg last]
      have stays : ((q.dwrrQueues i).sent q.rate now skb rest).flags =
          { flags q i with current := true } := by
        have busy : (flags q i).busy = true := consistent.head_busy
        simp only [DwrrClass.flags, DwrrClass.sent, if_neg last, ActiveRing.Flags.mk.injEq, busy]
        exact ⟨by simp [last], rfl, trivial⟩
      rw [stays]
      exact consistent.visit
  · unfold DwrrClass.granted DwrrClass.sent
    by_cases last : rest = []
    · simp [last]
    · simp only [if_neg last, active, if_true]
      omega
  · rw [exact, grants]
    unfold DwrrClass.granted DwrrClass.sent
    by_cases last : rest = []
    · simp only [if_pos last, Bool.false_eq_true, if_false]
      omega
    · simp only [if_neg last, active, if_true]
  · exact u32_lt _

private theorem dwrrAdmit (scheduled : Scheduled q) (params : Params) (now : Int) (i : Fin 7)
    (skb : Skb) :
    Scheduled (dwrrAdmit params now i skb q) := by
  rcases dwrrAdmit_dwrrQueues params now i skb q with ⟨marked, _, queues⟩
  have consistent := scheduled.consistent
  by_cases active : (q.dwrrQueues i).active = true
  · have list : (PrioDwrr.dwrrAdmit params now i skb q).activeList = q.activeList := if_pos active
    have total : (PrioDwrr.dwrrAdmit params now i skb q).quantumSum = q.quantumSum := if_pos active
    obtain ⟨sameFlags, sameGrant, sameDeficit⟩ :=
      (q.dwrrQueues i).stored_of_active now (params.queueQuantum i) marked active
        (consistent.active_eq i)
    apply scheduled.update queues
    · rw [list, sameFlags]
      show ActiveRing.Consistent (Function.update (flags q) i (flags q i)) q.activeList
      rw [Function.update_eq_self]
      exact consistent
    · rw [sameGrant]
      exact scheduled.granted_le i
    · rw [total, sameGrant]
    · rw [sameDeficit]
      exact scheduled.deficit_lt i
  · have idle : (flags q i).busy = false := by
      rw [← consistent.active_eq i]
      exact Bool.eq_false_iff.mpr active
    have list : (PrioDwrr.dwrrAdmit params now i skb q).activeList = q.activeList ++ [i] :=
      if_neg active
    have total : (PrioDwrr.dwrrAdmit params now i skb q).quantumSum =
        u32 (q.quantumSum + params.queueQuantum i) := if_neg active
    have nothing : (q.dwrrQueues i).granted = 0 := if_neg active
    have sum := scheduled.quantumSum_le
    have fresh := queueQuantum_le params i
    obtain ⟨joined, grant, deficit⟩ :=
      (q.dwrrQueues i).stored_of_inactive now (params.queueQuantum i) marked active
    apply scheduled.update queues
    · rw [list, joined]
      exact consistent.join idle
    · rw [grant]
      exact fresh
    · unfold quantumMax at sum fresh
      rw [total, nothing, grant, u32_of_lt (by omega)]
      rfl
    · rw [deficit]
      exact Nat.two_pow_pos 32

end Scheduled

end

theorem scheduled_qdiscInit (now : Int) (rate : Nat) : Scheduled (qdiscInit now rate) where
  consistent := ActiveRing.consistent_nil fun _ => rfl
  granted_le := fun _ => Nat.zero_le _
  quantumSum := by
    symm
    apply sum_eq_zero
    intro i _
    rfl
  deficit_lt := fun _ => Nat.two_pow_pos 32

private theorem Scheduled.exits {params : Params} {now : Int} {q q' : PrioDwrrSchedData}
    {outcome : Dequeued} (scheduled : Scheduled q) (exit : Exits params now q q' outcome) :
    Scheduled q' := by
  cases exit with
  | fault => exact scheduled
  | null head | throttled head => exact scheduled.refresh head
  | packet head => exact scheduled.transmit params now _ head

theorem Scheduled.step {bfifo : Bfifo} {s s' : Sys} {event : Event Param}
    (step : Step bfifo s event s') (scheduled : Scheduled s.q) : Scheduled s'.q := by
  cases step with
  | @enqueue now skb q' ret later returns =>
      have reset := scheduled.idleReset s.params now
      cases qdiscEnqueue_cases returns with
      | refused => exact reset
      | prio => exact reset.congr rfl rfl rfl
      | dwrr => exact reset.dwrrAdmit s.params now _ skb
  | @dequeue now fuel q' outcome later returns =>
      cases qdiscDequeue_cases returns with
      | prio busy ends =>
          cases ends with
          | null | throttled => exact scheduled
          | packet => exact scheduled.congr rfl rfl rfl
      | dwrr idle active rotations exit => exact (scheduled.rotations rotations).exits exit
      | idle idle inactive stays nothing =>
          rw [stays]
          exact scheduled
  | sysctl => exact scheduled
  | change => exact scheduled.congr rfl rfl rfl

/-- In every reachable state the list, the flags and the quanta agree. -/
theorem scheduled_of_reachable {bfifo : Bfifo} {s : Sys} (reachable : Reachable bfifo s) :
    Scheduled s.q := by
  apply reachable.invariant (fun s => Scheduled s.q) _ Scheduled.step
  intro start fresh
  rcases fresh with ⟨rate, initial⟩
  rw [initial]
  exact scheduled_qdiscInit _ _

/-! ### The counters -/

/-- Every counter is the sum it stands for, with some count of the bytes in the DWRR queues. -/
def Counted (q : PrioDwrrSchedData) : Prop := ∃ dwrrLenBytes, (view dwrrLenBytes q).Balanced

theorem counted_qdiscInit (now : Int) (rate : Nat) : Counted (qdiscInit now rate) := by
  refine ⟨0, Ledger.balanced_of_empty ?_ ?_ ?_ rfl rfl⟩
  · intro id
    show (account (qdiscInit now rate) id).fifo = []
    unfold account
    split <;> rfl
  · intro id
    show (account (qdiscInit now rate) id).lenBytes = 0
    unfold account
    split <;> rfl
  · intro group
    show (if group = 0 then 0 else if group = 1 then 0 else 0) = 0
    rw [ite_self, ite_self]

theorem view_of_rotations {params : Params} {now : Int} {q middle : PrioDwrrSchedData}
    (dwrrLenBytes : Nat) (rotations : ReflTransGen (Rotates params now) q middle) :
    view dwrrLenBytes middle = view dwrrLenBytes q := by
  induction rotations with
  | refl => rfl
  | tail _ last inductionHypothesis =>
      cases last with
      | intro head front blocked => rw [view_rotate, inductionHypothesis]

private theorem Counted.exits {params : Params} {now : Int} {q q' : PrioDwrrSchedData}
    {outcome : Dequeued} (counted : Counted q) (exit : Exits params now q q' outcome) :
    Counted q' := by
  rcases counted with ⟨dwrrLenBytes, balanced⟩
  cases exit with
  | fault => exact ⟨dwrrLenBytes, balanced⟩
  | null | throttled =>
      refine ⟨dwrrLenBytes, ?_⟩
      rw [view_refresh]
      exact balanced
  | @packet i ring skb marked rest head front affordable enough marker =>
      refine ⟨u32Sub dwrrLenBytes (skbSize skb), ?_⟩
      rw [view_transmit]
      apply balanced.depart
      · show (account q (dwrrId i)).fifo = skb :: rest
        rw [account_dwrrId]
        exact front
      · show (account q (dwrrId i)).prio = 1
        rw [account_dwrrId]

private theorem Counted.enqueue {bfifo : Bfifo} (bounded : bfifo.Bounded) {params : Params}
    {now : Int} {skb : Skb} {q q' : PrioDwrrSchedData} {ret : NetXmit} (counted : Counted q)
    (enqueues : Enqueues bfifo params now skb q q' ret) : Counted q' := by
  rcases counted with ⟨dwrrLenBytes, balanced⟩
  rw [← view_idleReset dwrrLenBytes params now q] at balanced
  rcases exists_idleReset_eq params now q with ⟨roundTimeNs, quantumSumEstimate, reset⟩
  cases enqueues with
  | refused => exact ⟨dwrrLenBytes, balanced⟩
  | @prio i target accepted =>
      obtain ⟨marked, sameLen, entered⟩ :=
        view_prioAdmit dwrrLenBytes params now (idleReset params now q) i skb
      refine ⟨dwrrLenBytes, ?_⟩
      rw [entered]
      apply balanced.enter
      show backlog (account (idleReset params now q) (prioId i)).fifo + marked.len ≤ maxBufferBytes
      rw [account_prioId, sameLen, reset]
      exact bounded _ _ accepted
  | @dwrr i target accepted =>
      obtain ⟨marked, sameLen, entered⟩ :=
        view_dwrrAdmit dwrrLenBytes params now (idleReset params now q) i skb
      refine ⟨u32 (dwrrLenBytes + skbSize skb), ?_⟩
      rw [entered]
      apply balanced.enter
      show backlog (account (idleReset params now q) (dwrrId i)).fifo + marked.len ≤ maxBufferBytes
      rw [account_dwrrId, sameLen, reset]
      exact bounded _ _ accepted

theorem Counted.step {bfifo : Bfifo} (bounded : bfifo.Bounded) {s s' : Sys}
    {event : Event Param} (step : Step bfifo s event s') (counted : Counted s.q) :
    Counted s'.q := by
  cases step with
  | enqueue later returns => exact counted.enqueue bounded (qdiscEnqueue_cases returns)
  | @dequeue now fuel q' outcome later returns =>
      cases qdiscDequeue_cases returns with
      | prio busy ends =>
          cases ends with
          | null | throttled => exact counted
          | @packet i skb marked rest found front enough marker =>
              rcases counted with ⟨dwrrLenBytes, balanced⟩
              refine ⟨dwrrLenBytes, ?_⟩
              rw [view_prioSent]
              apply balanced.depart
              · show (account s.q (prioId i)).fifo = skb :: rest
                rw [account_prioId]
                exact front
              · show (account s.q (prioId i)).prio = 0
                rw [account_prioId]
      | dwrr idle active rotations exit =>
          rcases counted with ⟨dwrrLenBytes, balanced⟩
          rw [← view_of_rotations dwrrLenBytes rotations] at balanced
          exact Counted.exits ⟨dwrrLenBytes, balanced⟩ exit
      | idle idle inactive stays nothing =>
          rw [stays]
          exact counted
  | sysctl => exact counted
  | change => exact counted

theorem counted_of_reachable {bfifo : Bfifo} (bounded : bfifo.Bounded) {s : Sys}
    (reachable : Reachable bfifo s) : Counted s.q := by
  apply reachable.invariant (fun s => Counted s.q) _ (Counted.step bounded)
  intro start fresh
  rcases fresh with ⟨rate, initial⟩
  rw [initial]
  exact counted_qdiscInit _ _

/-! ### The invariant -/

/-- The bookkeeping of the qdisc. -/
structure Bookkeeping (q : PrioDwrrSchedData) : Prop where
  /-- A DWRR queue is marked active exactly while it holds packets. -/
  active : ∀ i, (q.dwrrQueues i).active = true ↔ (q.dwrrQueues i).qdisc ≠ []
  /-- It is linked once while it holds packets, else not at all. -/
  linked : ∀ i, q.activeList.count i = if (q.dwrrQueues i).qdisc = [] then 0 else 1
  /-- Only the head of the list can be in a visit. -/
  curr : ∀ i, (q.dwrrQueues i).curr = true → q.activeList.head? = some i
  quantumSum : q.quantumSum = ∑ i with (q.dwrrQueues i).active = true, (q.dwrrQueues i).quantum
  prioLenBytes : ∀ i, (q.prioQueues i).lenBytes = ((q.prioQueues i).qdisc.map skbSize).sum
  dwrrLenBytes : ∀ i, (q.dwrrQueues i).lenBytes = ((q.dwrrQueues i).qdisc.map skbSize).sum
  sumPrioLenBytes : q.sumPrioLenBytes = ∑ i, (q.prioQueues i).lenBytes
  sumLenBytes : q.sumLenBytes = q.sumPrioLenBytes + ∑ i, (q.dwrrQueues i).lenBytes
  qlen : q.qlen = ∑ i, (q.prioQueues i).qdisc.length + ∑ i, (q.dwrrQueues i).qdisc.length

/-- The subtractions of a dequeue of `len` bytes from priority queue `i`: none wraps. -/
structure PrioSubtracts (i : Fin 1) (len : Nat) (q q' : PrioDwrrSchedData) : Prop where
  lenBytes : (q'.prioQueues i).lenBytes + len = (q.prioQueues i).lenBytes
  sumLenBytes : q'.sumLenBytes + len = q.sumLenBytes
  sumPrioLenBytes : q'.sumPrioLenBytes + len = q.sumPrioLenBytes
  qlen : q'.qlen + 1 = q.qlen

/-- The subtractions of the pass that takes `len` bytes from DWRR queue `i`: none wraps. -/
structure DwrrSubtracts (i : Fin 7) (len : Nat) (q q' : PrioDwrrSchedData) : Prop where
  sumLenBytes : q'.sumLenBytes + len = q.sumLenBytes
  qlen : q'.qlen + 1 = q.qlen
  lenBytes : (q'.dwrrQueues i).lenBytes + len = (q.dwrrQueues i).lenBytes
  deficitCounter : (q'.dwrrQueues i).deficitCounter + len = (q.dwrrQueues i).credit
  quantumSum : q'.quantumSum +
    (if (q'.dwrrQueues i).qdisc = [] then (q.dwrrQueues i).quantum else 0) = q.quantumSum

/-- How a dequeue comes to return `skb`: the packet that was peeked is the one removed, and a
DWRR packet leaves only when no priority queue holds one. -/
inductive Departs (params : Params) (now : Int) (q q' : PrioDwrrSchedData) (skb : Skb) :
    Fin 8 → Prop
  | prio {i : Fin 1} {peeked : Skb} {rest : List Skb} (found : prioQueuesPeek q = some peeked)
      (removed : prioQueuesDequeuePeeked q = some (i, peeked, prioTake i peeked rest q))
      (before : (q.prioQueues i).qdisc = peeked :: rest)
      (after : (q'.prioQueues i).qdisc = rest) (marker : MarkedFrom peeked skb)
      (exact : PrioSubtracts i (skbSize peeked) q q') : Departs params now q q' skb (prioId i)
  | dwrr {i : Fin 7} {middle : PrioDwrrSchedData} {peeked : Skb} {rest : List Skb}
      (idle : ∀ k, (q.prioQueues k).qdisc = [])
      (rotations : ReflTransGen (Rotates params now) q middle)
      (head : middle.activeList.head? = some i)
      (found : peek (middle.dwrrQueues i).qdisc = some peeked)
      (removed : dequeuePeeked (middle.dwrrQueues i).qdisc = some (peeked, rest))
      (before : (q.dwrrQueues i).qdisc = peeked :: rest)
      (after : (q'.dwrrQueues i).qdisc = rest) (marker : MarkedFrom peeked skb)
      (exact : DwrrSubtracts i (skbSize peeked) middle q') : Departs params now q q' skb (dwrrId i)

/-- A pass that moves the head to the tail exchanges its quantum in `quantum_sum`, and the
subtraction does not wrap. -/
structure RotatesExactly (params : Params) (i : Fin 7) (q q' : PrioDwrrSchedData) : Prop where
  covers : (q.dwrrQueues i).quantum ≤ q.quantumSum
  quantumSum : q'.quantumSum = q.quantumSum - (q.dwrrQueues i).quantum + params.queueQuantum i

/-- A total over all queues is the one over either kind. -/
theorem sum_ids (f : Fin 8 → Nat) :
    ∑ id, f id = ∑ i : Fin 1, f (prioId i) + ∑ i : Fin 7, f (dwrrId i) := by
  rw [Fin.sum_univ_succ, Fin.sum_univ_one]
  rfl

theorem bookkeeping_of_invariants {q : PrioDwrrSchedData} (scheduled : Scheduled q)
    (counted : Counted q) : Bookkeeping q := by
  rcases counted with ⟨dwrrLenBytes, balanced⟩
  have busy_iff : ∀ i, (flags q i).busy = true ↔ (q.dwrrQueues i).qdisc ≠ [] := by
    intro i
    show (!(q.dwrrQueues i).qdisc.isEmpty) = true ↔ _
    simp
  have total := balanced.sumLenBytes
  have prioTotal := balanced.prioLenBytes 0
  have count := balanced.qlen
  have apart : (1 : Fin 8) ≠ 0 := by decide
  simp only [view, sum_ids, Account.heldAt, account_prioId, account_dwrrId] at total prioTotal count
  simp only [if_true, apart, if_false, sum_const_zero, Nat.add_zero] at prioTotal
  refine ⟨fun i => ?_, fun i => ?_, scheduled.consistent.current, ?_, fun i => ?_, fun i => ?_,
    prioTotal, ?_, count⟩
  · rw [← busy_iff, ← scheduled.consistent.active_eq i]
    rfl
  · rw [scheduled.consistent.count_eq i]
    by_cases empty : (q.dwrrQueues i).qdisc = []
    · rw [if_pos empty, if_neg fun busy => (busy_iff i).mp busy empty]
    · rw [if_neg empty, if_pos ((busy_iff i).mpr empty)]
  · rw [scheduled.quantumSum, sum_filter]
    rfl
  · have exact := balanced.lenBytes (prioId i)
    simp only [view, account_prioId] at exact
    exact exact
  · have exact := balanced.lenBytes (dwrrId i)
    simp only [view, account_dwrrId] at exact
    exact exact
  · rw [total, prioTotal]

section

variable {params : Params} {now : Int} {q q' middle : PrioDwrrSchedData} {skb : Skb}
  {rest : List Skb}

theorem prioSubtracts {toks : Int} {i : Fin 1} (counted : Counted q)
    (front : (q.prioQueues i).qdisc = skb :: rest) :
    PrioSubtracts i (skbSize skb) q (prioSent params now toks i skb rest q) := by
  rcases counted with ⟨dwrrLenBytes, balanced⟩
  have content : ((view dwrrLenBytes q).queues (prioId i)).fifo = skb :: rest := by
    show (account q (prioId i)).fifo = skb :: rest
    rw [account_prioId]
    exact front
  rcases balanced.covers content with ⟨lenCovers, prioCovers, sumCovers, countCovers⟩
  have lenLt := balanced.lenBytes_lt (prioId i)
  have prioLt := balanced.prioLenBytes_lt 0
  simp only [view, account_prioId, if_true] at lenCovers prioCovers sumCovers countCovers
  simp only [view, account_prioId, if_true] at lenLt prioLt
  refine ⟨?_, u32Sub_add_of_le balanced.sumLenBytes_lt sumCovers,
    u32Sub_add_of_le prioLt prioCovers, u32Sub_add_of_le balanced.qlen_lt countCovers⟩
  have own : ((prioSent params now toks i skb rest q).prioQueues i).lenBytes =
      u32Sub (q.prioQueues i).lenBytes (skbSize skb) := by
    simp [prioSent, prioTake]
  rw [own]
  exact u32Sub_add_of_le lenLt lenCovers

private theorem dwrrSubtracts {toks : Int} {i : Fin 7} {ring : List (Fin 7)}
    (scheduled : Scheduled q) (counted : Counted q) (head : q.activeList = i :: ring)
    (front : (q.dwrrQueues i).qdisc = skb :: rest)
    (affordable : skbSize skb ≤ (q.dwrrQueues i).credit) :
    DwrrSubtracts i (skbSize skb) q
      (transmit params now i skb rest toks (refresh i q)).1 := by
  rcases counted with ⟨dwrrLenBytes, balanced⟩
  have content : ((view dwrrLenBytes q).queues (dwrrId i)).fifo = skb :: rest := by
    show (account q (dwrrId i)).fifo = skb :: rest
    rw [account_dwrrId]
    exact front
  rcases balanced.covers content with ⟨lenCovers, _, sumCovers, countCovers⟩
  have lenLt := balanced.lenBytes_lt (dwrrId i)
  simp only [view, account_dwrrId] at lenCovers sumCovers countCovers lenLt
  rcases transmit_counters params now toks i skb rest q with ⟨_, sumLenBytes, _, qlen, _⟩
  have sent : (transmit params now i skb rest toks (refresh i q)).1.dwrrQueues i =
      (q.dwrrQueues i).sent q.rate now skb rest := by
    rw [transmit_dwrrQueues, Function.update_self]
  refine ⟨?_, ?_, ?_, ?_, ?_⟩
  · rw [sumLenBytes]
    exact u32Sub_add_of_le balanced.sumLenBytes_lt sumCovers
  · rw [qlen]
    exact u32Sub_add_of_le balanced.qlen_lt countCovers
  · rw [sent]
    exact u32Sub_add_of_le lenLt lenCovers
  · rw [sent]
    exact u32Sub_add_of_le (DwrrClass.credit_lt (scheduled.deficit_lt i)) affordable
  · have covers := scheduled.quantum_le_quantumSum head
    rw [scheduled.transmit_quantumSum_eq params now toks skb rest head, sent]
    show _ + (if rest = [] then _ else 0) = _
    split
    · omega
    · rfl

/-- Rotating changes no FIFO. -/
theorem qdisc_of_rotations (rotations : ReflTransGen (Rotates params now) q middle) (i : Fin 7) :
    (middle.dwrrQueues i).qdisc = (q.dwrrQueues i).qdisc := by
  have same := congrArg (fun ledger => (ledger.queues (dwrrId i)).fifo)
    (view_of_rotations 0 rotations)
  simp only [view, account_dwrrId] at same
  exact same

theorem Counted.sumPrioLenBytes_eq_zero_iff (counted : Counted q) :
    q.sumPrioLenBytes = 0 ↔ ∀ k, (q.prioQueues k).qdisc = [] := by
  rcases counted with ⟨dwrrLenBytes, balanced⟩
  have apart : (1 : Fin 8) ≠ 0 := by decide
  have both := balanced.prioLenBytes_eq_zero_iff 0
  simp only [view, forall_ids, account_prioId, account_dwrrId, apart, if_true, forall_const,
    IsEmpty.forall_iff, and_true] at both
  exact both

/-- While the priority queues hold bytes, the scan finds a packet. -/
theorem prioQueuesPeek_ne_none (counted : Counted q) (busy : 0 < q.sumPrioLenBytes) :
    prioQueuesPeek q ≠ none := by
  intro nothing
  unfold prioQueuesPeek at nothing
  rw [if_pos busy, List.findSome?_eq_none_iff] at nothing
  have empty : q.sumPrioLenBytes = 0 := counted.sumPrioLenBytes_eq_zero_iff.mpr fun k =>
    List.head?_eq_none_iff.mp (nothing k (List.mem_finRange k))
  omega

private theorem departs_of_returns {fuel : Nat} {id : Fin 8} (scheduled : Scheduled q)
    (counted : Counted q) (returns : qdiscDequeue params now fuel q = some (q', .packet id skb)) :
    Departs params now q q' skb id := by
  cases qdiscDequeue_cases returns with
  | prio busy ends =>
      cases ends with
      | @packet i peeked marked rest found front enough marker =>
          rcases prioQueuesPeek_eq_some found with ⟨k, rest', front', removes⟩
          obtain rfl : i = k := Subsingleton.elim i k
          rw [front] at front'
          obtain rfl : rest = rest' := (List.cons.inj front').2
          refine .prio found removes front ?_ marker (prioSubtracts counted front)
          simp [prioSent, prioTake]
  | @dwrr middle idle active rotations exit =>
      have middleScheduled := scheduled.rotations rotations
      have middleCounted : Counted middle := by
        rcases counted with ⟨dwrrLenBytes, balanced⟩
        rw [← view_of_rotations dwrrLenBytes rotations] at balanced
        exact ⟨dwrrLenBytes, balanced⟩
      cases exit with
      | @packet i ring peeked marked rest head front affordable enough marker =>
          have found : peek (middle.dwrrQueues i).qdisc = some peeked := by
            rw [front]
            rfl
          have removed : dequeuePeeked (middle.dwrrQueues i).qdisc = some (peeked, rest) := by
            rw [front]
            rfl
          refine .dwrr (counted.sumPrioLenBytes_eq_zero_iff.mp idle) rotations (by rw [head]; rfl)
            found removed
            ?_ ?_ marker (dwrrSubtracts middleScheduled middleCounted head front affordable)
          · rw [← qdisc_of_rotations rotations, front]
          · rw [transmit_dwrrQueues, Function.update_self]
            rfl
  | idle idle inactive stays nothing => cases nothing

end

/-- **Bookkeeping.** In every reachable state the active list, the flags, the cached quanta and
the counters agree with the FIFOs, a dequeue that returns a packet removes the one it peeked
and wraps no subtraction, and neither does a pass that rotates. -/
theorem prioDwrr_bookkeeping {bfifo : Bfifo} (bounded : bfifo.Bounded) {s : Sys}
    (reachable : Reachable bfifo s) :
    Bookkeeping s.q ∧
      (∀ (now : Int) (fuel : Nat) (q' : PrioDwrrSchedData) (id : Fin 8) (skb : Skb),
        qdiscDequeue s.params now fuel s.q = some (q', .packet id skb) →
          Departs s.params now s.q q' skb id) ∧
      ∀ (now : Int) (middle next : PrioDwrrSchedData) (i : Fin 7) (ring : List (Fin 7)),
        ReflTransGen (Rotates s.params now) s.q middle → Rotates s.params now middle next →
          middle.activeList = i :: ring → RotatesExactly s.params i middle next := by
  have scheduled := scheduled_of_reachable reachable
  have counted := counted_of_reachable bounded reachable
  refine ⟨bookkeeping_of_invariants scheduled counted, ?_, ?_⟩
  · intro now fuel q' id skb returns
    exact departs_of_returns scheduled counted returns
  · intro now middle next i ring rotations rotation head
    have middleScheduled := scheduled.rotations rotations
    cases rotation with
    | @intro k ring' skb rest head' front blocked =>
        rw [head] at head'
        obtain rfl : i = k := (List.cons.inj head').1
        exact ⟨middleScheduled.quantum_le_quantumSum head,
          middleScheduled.rotate_quantumSum_eq s.params now head⟩

/-! ### A loaded qdisc -/

/-- A fresh qdisc at 1 Gbit/s with the default parameters. -/
def idle : Sys := ⟨paramsInit, qdiscInit 0 125000000, 0⟩

/-- A priority frame, frames for two DWRR queues, and a dequeue that the tokens allow. -/
def mixedHistory : List (Event Param) :=
  [.enqueue 10 (fullFrame 4) .success, .enqueue 20 (fullFrame 8) .success,
    .sysctl (.queueQuantum 0) 3000, .enqueue 30 (fullFrame 0) .success,
    .enqueue 40 (fullFrame 4) .success, .dequeue 20000 (.packet 0 (fullFrame 0))]

private theorem mixed_isSome :
    (replay (Sys.next byteLimit 1) (fun _ => True) idle mixedHistory).isSome = true := by
  decide

/-- The state they lead to. -/
def mixed : Sys :=
  (replay (Sys.next byteLimit 1) (fun _ => True) idle mixedHistory).get mixed_isSome

private theorem mixed_reachable : Reachable byteLimit mixed :=
  ⟨idle, mixedHistory, ⟨_, rfl⟩, (RunWithin.of_replay_isSome Sys.next_sound mixed_isSome).run⟩

theorem bookkeeping_of_mixed : Bookkeeping mixed.q :=
  (prioDwrr_bookkeeping byteLimit_bounded mixed_reachable).1

end MqEcn.Kernel.PrioDwrr
