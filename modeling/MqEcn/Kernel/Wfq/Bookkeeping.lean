import MqEcn.Kernel.Wfq.Step
import MqEcn.Library.Selection

/-!
Contract: the bookkeeping of `sch_wfq` in every reachable state.

Owns: the counters as sums, the queues the scan of `wfq_dequeue` considers, the
agreement of `prio_schedule` with that scan, and the exactness of every update of a
32-bit counter.

Does not own: which of the considered queues the scan ends with.
-/

set_option autoImplicit false

namespace MqEcn.Kernel.Wfq

open MqEcn.Kernel
open MqEcn.Library
open MqEcn.Library.Transition
open MqEcn.Library.Word

/-! ### The scan -/

/-- The queues the scan does not skip. -/
def Candidate (q : WfqSchedData) (prio i : Fin 8) : Prop :=
  (q.queues i).prio = prio ∧ (q.queues i).lenBytes ≠ 0

instance (q : WfqSchedData) (prio i : Fin 8) : Decidable (Candidate q prio i) :=
  inferInstanceAs (Decidable (_ ∧ _))

/-- The comparison of the scan. -/
def Earlier (q : WfqSchedData) (i j : Fin 8) : Prop :=
  wfqTimeBefore (q.queues i).headFinTime (q.queues j).headFinTime = true

instance (q : WfqSchedData) : DecidableRel (Earlier q) :=
  fun _ _ => inferInstanceAs (Decidable (_ = true))

section

variable {q : WfqSchedData} {prio i : Fin 8}

/-- The scan is the search for an earliest queue among those it does not skip. -/
theorem scan_eq_foldl (q : WfqSchedData) (prio : Fin 8) :
    scan q prio =
      (List.finRange 8).foldl (Selection.scanStep (Candidate q prio) (Earlier q)) none := by
  unfold scan
  congr 1
  funext cl i
  by_cases skipped : (q.queues i).prio ≠ prio ∨ (q.queues i).lenBytes = 0
  · have out : ¬Candidate q prio i := fun candidate =>
      skipped.elim (fun other => other candidate.1) (fun empty => candidate.2 empty)
    simp only [scanStep, Selection.scanStep, if_pos skipped, if_neg out]
  · have candidate : Candidate q prio i := by
      push Not at skipped
      exact skipped
    simp only [scanStep, Selection.scanStep, if_neg skipped, if_pos candidate]
    cases cl with
    | none => rfl
    | some best => rfl

theorem scan_candidate (found : scan q prio = some i) : Candidate q prio i := by
  rw [scan_eq_foldl] at found
  exact (Selection.kept_of_scan found).2

/-- The scan ends with a queue as soon as one is not skipped. -/
theorem scan_isSome (candidate : Candidate q prio i) : (scan q prio).isSome := by
  rw [scan_eq_foldl]
  exact Selection.scan_isSome (List.mem_finRange i) candidate

/-- Where the finish times compare as ranks do, the scan ends with a least rank. -/
theorem scan_least (rank : Fin 8 → Int)
    (ordered : ∀ i j, Candidate q prio i → Candidate q prio j → (Earlier q i j ↔ rank i < rank j))
    {best : Fin 8} (found : scan q prio = some best) (k : Fin 8) (candidate : Candidate q prio k) :
    rank best ≤ rank k := by
  rw [scan_eq_foldl] at found
  exact Selection.rank_le_of_scan (fun i _ j _ => ordered i j) found (List.mem_finRange k) candidate

end

/-! ### The counters -/

theorem balanced_wfqInit (now : Int) (rate : Nat) : (view (wfqInit now rate)).Balanced :=
  Ledger.balanced_of_empty (fun _ => rfl) (fun _ => rfl) (fun _ => rfl) rfl rfl

theorem balanced_enqueue {bfifo : Bfifo} (bounded : bfifo.Bounded) {params : Params} {now : Int}
    {skb : Skb} {q q' : WfqSchedData} {ret : NetXmit}
    (returns : wfqEnqueue bfifo params now skb q = (q', ret)) (balanced : (view q).Balanced) :
    (view q').Balanced := by
  rcases wfqEnqueue_cases returns with ⟨_, rfl⟩ | ⟨_, accepted, rfl⟩
  · exact balanced
  · obtain ⟨marked, sameLen, viewed⟩ := view_admit params now _ skb q
    rw [viewed]
    apply balanced.enter
    rw [sameLen]
    exact bounded _ _ accepted

theorem balanced_dequeue {params : Params} {now : Int} {q q' : WfqSchedData} {outcome : Dequeued}
    (returns : wfqDequeue params now q = (q', outcome)) (balanced : (view q).Balanced) :
    (view q').Balanced := by
  cases wfqDequeue_cases returns with
  | idle | fault | null | throttled => exact balanced
  | packet selected found front enough =>
      rw [view_transmit]
      exact balanced.depart front (scan_candidate found).1

theorem balanced_step {bfifo : Bfifo} (bounded : bfifo.Bounded) {s s' : Sys}
    {event : Event Param} (step : Step bfifo s event s') (balanced : (view s.q).Balanced) :
    (view s'.q).Balanced := by
  cases step with
  | enqueue later returns => exact balanced_enqueue bounded returns balanced
  | dequeue later returns => exact balanced_dequeue returns balanced
  | sysctl => exact balanced
  | change => exact balanced

theorem balanced_of_reachable {bfifo : Bfifo} (bounded : bfifo.Bounded) {s : Sys}
    (reachable : Reachable bfifo s) : (view s.q).Balanced := by
  apply reachable.invariant (fun s => (view s.q).Balanced)
  · rintro start ⟨rate, initial⟩
    rw [initial]
    exact balanced_wfqInit _ _
  · exact balanced_step bounded

/-- The considered queues are those of the priority that hold packets. -/
theorem candidate_iff {q : WfqSchedData} (balanced : (view q).Balanced) {prio i : Fin 8} :
    Candidate q prio i ↔ (q.queues i).prio = prio ∧ (q.queues i).qdisc ≠ [] :=
  and_congr_right fun _ => not_congr (balanced.lenBytes_eq_zero_iff i)

/-- `prio_schedule` returns the smallest priority that holds packets. -/
theorem prioSchedule_busy {q : WfqSchedData} (balanced : (view q).Balanced) {prio : Fin 8}
    (selected : prioSchedule q = some prio) :
    (∃ i, (q.queues i).prio = prio ∧ (q.queues i).qdisc ≠ []) ∧
      ∀ i, (q.queues i).prio < prio → (q.queues i).qdisc = [] := by
  obtain ⟨positive, earlier⟩ := prioSchedule_eq_some selected
  constructor
  · by_contra idle
    push Not at idle
    have zero : q.prioLenBytes prio = 0 := (balanced.prioLenBytes_eq_zero_iff prio).mpr idle
    omega
  · intro i higher
    exact (balanced.prioLenBytes_eq_zero_iff _).mp (earlier _ higher) i rfl

/-! ### Exact updates -/

/-- The counters of `more` are those of `less` and one packet of `len` bytes in queue
`i`, counted under `prio`. -/
structure OnePacketMore (i prio : Fin 8) (len : Nat) (less more : WfqSchedData) : Prop where
  lenBytes : (more.queues i).lenBytes = (less.queues i).lenBytes + len
  prioLenBytes : more.prioLenBytes prio = less.prioLenBytes prio + len
  sumLenBytes : more.sumLenBytes = less.sumLenBytes + len
  qlen : more.qlen = less.qlen + 1

theorem wfqAdmit_exact {params : Params} {now : Int} {i : Fin 8} {skb : Skb} {q : WfqSchedData}
    (balanced : (view q).Balanced)
    (fits : backlog (q.queues i).qdisc + skb.len ≤ maxBufferBytes) :
    OnePacketMore i ((wfqAdmit params now i skb q).queues i).prio (skbSize skb) q
      (wfqAdmit params now i skb q) := by
  obtain ⟨marked, sameLen, viewed⟩ := view_admit params now i skb q
  have size := skbSize_eq_of_len_eq sameLen
  have noWrap := balanced.enter_exact (params.queuePrio i) (by rw [sameLen]; exact fits)
  have own := congrArg (fun ledger => (ledger.queues i).prio) viewed
  have lenBytes := congrArg (fun ledger => (ledger.queues i).lenBytes) viewed
  have prioLenBytes := congrArg (fun ledger =>
    ledger.prioLenBytes ((view q).entryPrio i (params.queuePrio i))) viewed
  have sumLenBytes := congrArg Ledger.sumLenBytes viewed
  have qlen := congrArg Ledger.qlen viewed
  simp only [Ledger.enter, Function.update_self] at own lenBytes prioLenBytes sumLenBytes qlen
  rw [noWrap.lenBytes, size] at lenBytes
  rw [noWrap.prioLenBytes, size] at prioLenBytes
  rw [noWrap.sumLenBytes, size] at sumLenBytes
  rw [noWrap.qlen] at qlen
  refine ⟨lenBytes, ?_, sumLenBytes, qlen⟩
  rw [show ((wfqAdmit params now i skb q).queues i).prio =
    (view q).entryPrio i (params.queuePrio i) from own]
  exact prioLenBytes

theorem wfqTransmit_exact {params : Params} {now result : Int} {prio i : Fin 8} {skb : Skb}
    {rest : List Skb} {q : WfqSchedData} (balanced : (view q).Balanced)
    (front : (q.queues i).qdisc = skb :: rest) (own : (q.queues i).prio = prio) :
    OnePacketMore i prio (skbSize skb) (wfqTransmit params now prio i skb rest result q).1 q := by
  obtain ⟨lenCovers, prioCovers, sumCovers, countCovers⟩ := balanced.covers front
  have prioLt := balanced.prioLenBytes_lt prio
  have lenLt := balanced.lenBytes_lt i
  simp only [view, own] at lenCovers prioCovers sumCovers countCovers prioLt lenLt
  refine ⟨?_, ?_, ?_, ?_⟩
  · simpa [wfqTransmit] using (u32Sub_add_of_le lenLt lenCovers).symm
  · simpa [wfqTransmit] using (u32Sub_add_of_le prioLt prioCovers).symm
  · exact (u32Sub_add_of_le balanced.sumLenBytes_lt sumCovers).symm
  · exact (u32Sub_add_of_le balanced.qlen_lt countCovers).symm

end MqEcn.Kernel.Wfq
