import MqEcn.Kernel.PrioDwrr.Bookkeeping
import MqEcn.Kernel.PrioWfq.Shaping
import MqEcn.Library.Selection

/-!
Contract: the bookkeeping and the order of service of `sch_prio_wfq` in every reachable state.

Owns: the counters as sums, read as those of `sch_prio_dwrr`; the queues the scan of
`wfq_queues_dequeue` considers; and what a dequeue returns in terms of what is stored.

Does not own: which of the considered queues the scan ends with.
-/

set_option autoImplicit false

namespace MqEcn.Kernel.PrioWfq

open Finset
open MqEcn.Kernel
open MqEcn.Kernel.PrioDwrr (PrioClass prioId dwrrId queueOf peek dequeuePeeked qdiscEcn)
open MqEcn.Library
open MqEcn.Library.Transition
open MqEcn.Library.Word

/-! ### The counters -/

/-- A WFQ queue as a DWRR queue with the same packets. -/
def WfqClass.stored (cl : WfqClass) : PrioDwrr.DwrrClass where
  qdisc := cl.qdisc
  deficitCounter := 0
  active := false
  curr := false
  lenBytes := cl.lenBytes
  startTimeNs := 0
  lastPktTimeNs := 0
  lastPktLenNs := 0
  quantum := 0

/-- What the counters see of the qdisc is what they see of a `sch_prio_dwrr` that stores the
same packets. -/
def counters (q : PrioWfqSchedData) : PrioDwrr.PrioDwrrSchedData where
  dwrrQueues := fun i => (q.wfqQueues i).stored
  prioQueues := q.prioQueues
  rate := q.rate
  activeList := []
  tokens := q.tokens
  sumLenBytes := q.sumLenBytes
  sumPrioLenBytes := q.sumPrioLenBytes
  timeNs := q.timeNs
  roundTimeNs := 0
  lastIdleTimeNs := 0
  quantumSum := 0
  quantumSumEstimate := 0
  qlen := q.qlen

/-- Every counter is the sum it stands for. -/
def Counted (q : PrioWfqSchedData) : Prop := PrioDwrr.Counted (counters q)

theorem counters_update {q q' : PrioWfqSchedData} {i : Fin 7} {cl : WfqClass}
    (queues : q'.wfqQueues = Function.update q.wfqQueues i cl) :
    (counters q').dwrrQueues = Function.update (counters q).dwrrQueues i cl.stored := by
  funext k
  show (q'.wfqQueues k).stored = _
  rw [queues]
  by_cases same : k = i
  · subst same
    simp
  · simp [same, counters]

/-! ### Departures and arrivals -/

private theorem stampNext_fields (params : Params) (i : Fin 7) (q : PrioWfqSchedData) :
    ∃ headFinishTime virtualTime, stampNext params i q =
      { q with
        wfqQueues := Function.update q.wfqQueues i { q.wfqQueues i with headFinishTime }
        virtualTime } := by
  have stays : q = { q with
      wfqQueues := Function.update q.wfqQueues i
        { q.wfqQueues i with headFinishTime := (q.wfqQueues i).headFinishTime }
      virtualTime := q.virtualTime } := by
    rw [Function.update_eq_self]
  unfold stampNext
  simp only
  split
  · split
    · exact ⟨_, _, stays⟩
    · exact ⟨_, _, rfl⟩
  · exact ⟨_, _, stays⟩

theorem stampFirst_fields (params : Params) (len : Nat) (i : Fin 7) (q : PrioWfqSchedData) :
    ∃ headFinishTime virtualTime, stampFirst params len i q =
      { q with
        wfqQueues := Function.update q.wfqQueues i { q.wfqQueues i with headFinishTime }
        virtualTime } := by
  have stays : q = { q with
      wfqQueues := Function.update q.wfqQueues i
        { q.wfqQueues i with headFinishTime := (q.wfqQueues i).headFinishTime }
      virtualTime := q.virtualTime } := by
    rw [Function.update_eq_self]
  unfold stampFirst
  simp only
  split
  · exact ⟨_, _, rfl⟩
  · exact ⟨_, _, stays⟩

/-- What a departure from WFQ queue `i` makes of the WFQ queues. -/
theorem transmit_wfqQueues (params : Params) (now toks : Int) (i : Fin 7) (skb : Skb)
    (rest : List Skb) (q : PrioWfqSchedData) :
    ∃ headFinishTime, (transmit params now i skb rest toks q).1.wfqQueues =
      Function.update q.wfqQueues i
        { qdisc := rest
          headFinishTime
          lenBytes := u32Sub (q.wfqQueues i).lenBytes (skbSize skb) } := by
  unfold transmit
  simp only
  obtain ⟨headFinishTime, virtualTime, stamped⟩ := stampNext_fields params i
    { q with
      sumLenBytes := u32Sub q.sumLenBytes (skbSize skb)
      qlen := u32Sub q.qlen 1
      wfqQueues := Function.update q.wfqQueues i
        { q.wfqQueues i with
          qdisc := rest, lenBytes := u32Sub (q.wfqQueues i).lenBytes (skbSize skb) } }
  rw [stamped]
  exact ⟨headFinishTime, by simp⟩

/-- The counters a departure from a WFQ queue leaves. -/
theorem transmit_counters (params : Params) (now toks : Int) (i : Fin 7) (skb : Skb)
    (rest : List Skb) (q : PrioWfqSchedData) :
    (transmit params now i skb rest toks q).1.prioQueues = q.prioQueues ∧
      (transmit params now i skb rest toks q).1.sumLenBytes =
        u32Sub q.sumLenBytes (skbSize skb) ∧
      (transmit params now i skb rest toks q).1.sumPrioLenBytes = q.sumPrioLenBytes ∧
      (transmit params now i skb rest toks q).1.qlen = u32Sub q.qlen 1 := by
  unfold transmit
  simp only
  obtain ⟨headFinishTime, virtualTime, stamped⟩ := stampNext_fields params i
    { q with
      sumLenBytes := u32Sub q.sumLenBytes (skbSize skb)
      qlen := u32Sub q.qlen 1
      wfqQueues := Function.update q.wfqQueues i
        { q.wfqQueues i with
          qdisc := rest, lenBytes := u32Sub (q.wfqQueues i).lenBytes (skbSize skb) } }
  rw [stamped]
  exact ⟨rfl, rfl, rfl, rfl⟩

private theorem enqueueMarking_len (params : Params) (now : Int) (skb : Skb) (q : PrioWfqSchedData)
    (id : Fin 8) (lenBytes : Nat) :
    (enqueueMarking params now skb q id lenBytes).len = skb.len := by
  unfold enqueueMarking
  split
  · exact PrioDwrr.ite_qdiscEcn_len skb _
  · exact PrioDwrr.ite_qdiscEcn_len skb _
  · rfl
  · rfl

/-- What an arrival at WFQ queue `i` makes of the WFQ queues. -/
theorem wfqAdmit_wfqQueues (params : Params) (now : Int) (i : Fin 7) (skb : Skb)
    (q : PrioWfqSchedData) :
    ∃ headFinishTime marked, marked.len = skb.len ∧
      (wfqAdmit params now i skb q).wfqQueues =
        Function.update q.wfqQueues i
          { qdisc := (q.wfqQueues i).qdisc ++ [marked]
            headFinishTime
            lenBytes := u32 ((q.wfqQueues i).lenBytes + skbSize skb) } := by
  unfold wfqAdmit
  simp only
  generalize stored : enqueueMarking params now skb _ (wfqId i) _ = marked
  obtain ⟨headFinishTime, virtualTime, stamped⟩ := stampFirst_fields params (skbSize skb) i q
  refine ⟨headFinishTime, marked, ?_, ?_⟩
  · rw [← stored]
    exact enqueueMarking_len _ _ _ _ _ _
  · rw [stamped]
    simp

theorem wfqAdmit_counters (params : Params) (now : Int) (i : Fin 7) (skb : Skb)
    (q : PrioWfqSchedData) :
    (wfqAdmit params now i skb q).prioQueues = q.prioQueues ∧
      (wfqAdmit params now i skb q).sumPrioLenBytes = q.sumPrioLenBytes := by
  unfold wfqAdmit
  simp only
  obtain ⟨headFinishTime, virtualTime, stamped⟩ := stampFirst_fields params (skbSize skb) i q
  rw [stamped]
  exact ⟨rfl, rfl⟩

private theorem prioAdmit_prioQueues (params : Params) (now : Int) (i : Fin 1) (skb : Skb)
    (q : PrioWfqSchedData) :
    ∃ marked, marked.len = skb.len ∧
      (prioAdmit params now i skb q).prioQueues =
        Function.update q.prioQueues i
          { qdisc := (q.prioQueues i).qdisc ++ [marked]
            lenBytes := u32 ((q.prioQueues i).lenBytes + skbSize skb) } := by
  unfold prioAdmit
  simp only
  generalize stored : enqueueMarking params now skb _ (prioId i) _ = marked
  refine ⟨marked, ?_, rfl⟩
  rw [← stored]
  exact enqueueMarking_len _ _ _ _ _ _

/-! ### Every operation keeps the counters -/

section

variable {params : Params} {now toks : Int} {skb : Skb} {rest : List Skb} {q q' : PrioWfqSchedData}

theorem Counted.prioSent {i : Fin 1} (counted : Counted q)
    (front : (q.prioQueues i).qdisc = skb :: rest) :
    Counted (prioSent params now toks i skb rest q) := by
  obtain ⟨wfqLenBytes, balanced⟩ := counted
  refine ⟨wfqLenBytes, ?_⟩
  have viewed : PrioDwrr.view wfqLenBytes
      (counters (PrioWfq.prioSent params now toks i skb rest q)) =
        (PrioDwrr.view wfqLenBytes (counters q)).depart 0 (prioId i) skb rest :=
    PrioDwrr.view_depart_prio wfqLenBytes rfl rfl rfl rfl rfl
  rw [viewed]
  apply balanced.depart
  · show (PrioDwrr.account (counters q) (prioId i)).fifo = skb :: rest
    rw [PrioDwrr.account_prioId]
    exact front
  · show (PrioDwrr.account (counters q) (prioId i)).prio = 0
    rw [PrioDwrr.account_prioId]

theorem Counted.transmit {i : Fin 7} (counted : Counted q)
    (front : (q.wfqQueues i).qdisc = skb :: rest) :
    Counted (transmit params now i skb rest toks q).1 := by
  obtain ⟨wfqLenBytes, balanced⟩ := counted
  refine ⟨u32Sub wfqLenBytes (skbSize skb), ?_⟩
  obtain ⟨headFinishTime, queues⟩ := transmit_wfqQueues params now toks i skb rest q
  obtain ⟨prioQueues, sumLenBytes, sumPrioLenBytes, qlen⟩ :=
    transmit_counters params now toks i skb rest q
  have viewed : PrioDwrr.view (u32Sub wfqLenBytes (skbSize skb))
      (counters (PrioWfq.transmit params now i skb rest toks q).1) =
        (PrioDwrr.view wfqLenBytes (counters q)).depart 1 (dwrrId i) skb rest :=
    PrioDwrr.view_depart_dwrr wfqLenBytes (counters_update queues) rfl rfl prioQueues sumLenBytes
      sumPrioLenBytes qlen
  rw [viewed]
  apply balanced.depart
  · show (PrioDwrr.account (counters q) (dwrrId i)).fifo = skb :: rest
    rw [PrioDwrr.account_dwrrId]
    exact front
  · show (PrioDwrr.account (counters q) (dwrrId i)).prio = 1
    rw [PrioDwrr.account_dwrrId]

theorem Counted.prioAdmit {i : Fin 1} (counted : Counted q)
    (fits : backlog (q.prioQueues i).qdisc + skb.len ≤ maxBufferBytes) :
    Counted (prioAdmit params now i skb q) := by
  obtain ⟨wfqLenBytes, balanced⟩ := counted
  refine ⟨wfqLenBytes, ?_⟩
  obtain ⟨marked, sameLen, queues⟩ := prioAdmit_prioQueues params now i skb q
  have size := skbSize_eq_of_len_eq sameLen
  rw [← size] at queues
  have viewed : PrioDwrr.view wfqLenBytes (counters (PrioWfq.prioAdmit params now i skb q)) =
      (PrioDwrr.view wfqLenBytes (counters q)).enter (prioId i) 0 marked := by
    refine PrioDwrr.view_enter_prio wfqLenBytes ?_ rfl ?_ ?_ rfl
    · exact queues
    · rw [size]
      rfl
    · rw [size]
      rfl
  rw [viewed]
  apply balanced.enter
  show backlog (PrioDwrr.account (counters q) (prioId i)).fifo + marked.len ≤ maxBufferBytes
  rw [PrioDwrr.account_prioId, sameLen]
  exact fits

theorem Counted.wfqAdmit {i : Fin 7} (counted : Counted q)
    (fits : backlog (q.wfqQueues i).qdisc + skb.len ≤ maxBufferBytes) :
    Counted (wfqAdmit params now i skb q) := by
  obtain ⟨wfqLenBytes, balanced⟩ := counted
  obtain ⟨headFinishTime, marked, sameLen, queues⟩ := wfqAdmit_wfqQueues params now i skb q
  obtain ⟨prioQueues, sumPrioLenBytes⟩ := wfqAdmit_counters params now i skb q
  have size := skbSize_eq_of_len_eq sameLen
  refine ⟨u32 (wfqLenBytes + skbSize marked), ?_⟩
  have viewed : PrioDwrr.view (u32 (wfqLenBytes + skbSize marked))
      (counters (PrioWfq.wfqAdmit params now i skb q)) =
        (PrioDwrr.view wfqLenBytes (counters q)).enter (dwrrId i) 1 marked := by
    refine PrioDwrr.view_enter_dwrr wfqLenBytes (counters_update queues) rfl ?_ prioQueues ?_
      sumPrioLenBytes rfl
    · rw [size]
      rfl
    · rw [size]
      rfl
  rw [viewed]
  apply balanced.enter
  show backlog (PrioDwrr.account (counters q) (dwrrId i)).fifo + marked.len ≤ maxBufferBytes
  rw [PrioDwrr.account_dwrrId, sameLen]
  exact fits

end

private theorem counted_qdiscInit (now : Int) (rate : Nat) : Counted (qdiscInit now rate) := by
  refine ⟨0, Ledger.balanced_of_empty (fun id => ?_) (fun id => ?_) (fun group => ?_) rfl rfl⟩
  · show (PrioDwrr.account (counters (qdiscInit now rate)) id).fifo = []
    unfold PrioDwrr.account
    split <;> rfl
  · show (PrioDwrr.account (counters (qdiscInit now rate)) id).lenBytes = 0
    unfold PrioDwrr.account
    split <;> rfl
  · show (if group = 0 then 0 else if group = 1 then 0 else 0) = 0
    rw [ite_self, ite_self]

private theorem Counted.step {bfifo : Bfifo} (bounded : bfifo.Bounded) {s s' : Sys}
    {event : Event Param} (step : Step bfifo s event s') (counted : Counted s.q) :
    Counted s'.q := by
  cases step with
  | enqueue later returns =>
      cases qdiscEnqueue_cases returns with
      | refused => exact counted
      | prio target accepted => exact counted.prioAdmit (bounded _ _ accepted)
      | wfq target accepted => exact counted.wfqAdmit (bounded _ _ accepted)
  | @dequeue now q' outcome later returns =>
      cases outcome with
      | packet id returned =>
          cases qdiscDequeue_sends returns with
          | prio busy front enough => exact counted.prioSent front
          | wfq idle found front enough => exact counted.transmit front
      | null | throttled | fault =>
          rw [qdiscDequeue_stays returns (by simp)]
          exact counted
  | sysctl => exact counted
  | change => exact counted

theorem counted_initial {s : Sys} (fresh : Initial s) : Counted s.q := by
  obtain ⟨rate, initial⟩ := fresh
  rw [initial]
  exact counted_qdiscInit _ _

private theorem counted_of_reachable {bfifo : Bfifo} (bounded : bfifo.Bounded) {s : Sys}
    (reachable : Reachable bfifo s) : Counted s.q :=
  reachable.invariant (fun s => Counted s.q) counted_initial (Counted.step bounded)

/-! ### The sums -/

/-- The FIFO with an `id`. -/
def fifo (q : PrioWfqSchedData) (id : Fin 8) : List Skb := (PrioDwrr.account (counters q) id).fifo

@[simp] theorem fifo_prioId (q : PrioWfqSchedData) (i : Fin 1) :
    fifo q (prioId i) = (q.prioQueues i).qdisc := by
  unfold fifo
  rw [PrioDwrr.account_prioId]
  rfl

@[simp] theorem fifo_wfqId (q : PrioWfqSchedData) (i : Fin 7) :
    fifo q (wfqId i) = (q.wfqQueues i).qdisc := by
  unfold fifo wfqId
  rw [PrioDwrr.account_dwrrId]
  rfl

/-- The bookkeeping of the qdisc. -/
structure Bookkeeping (q : PrioWfqSchedData) : Prop where
  prioLenBytes : ∀ i, (q.prioQueues i).lenBytes = ((q.prioQueues i).qdisc.map skbSize).sum
  wfqLenBytes : ∀ i, (q.wfqQueues i).lenBytes = ((q.wfqQueues i).qdisc.map skbSize).sum
  sumPrioLenBytes : q.sumPrioLenBytes = ∑ i, (q.prioQueues i).lenBytes
  sumLenBytes : q.sumLenBytes = q.sumPrioLenBytes + ∑ i, (q.wfqQueues i).lenBytes
  qlen : q.qlen = ∑ i, (q.prioQueues i).qdisc.length + ∑ i, (q.wfqQueues i).qdisc.length

theorem Counted.bookkeeping {q : PrioWfqSchedData} (counted : Counted q) : Bookkeeping q := by
  obtain ⟨wfqLenBytes, balanced⟩ := counted
  have total := balanced.sumLenBytes
  have prioTotal := balanced.prioLenBytes 0
  have count := balanced.qlen
  have apart : (1 : Fin 8) ≠ 0 := by decide
  simp only [PrioDwrr.view, PrioDwrr.sum_ids, Account.heldAt, PrioDwrr.account_prioId,
    PrioDwrr.account_dwrrId] at total prioTotal count
  simp only [if_true, apart, if_false, sum_const_zero, Nat.add_zero] at prioTotal
  refine ⟨fun i => ?_, fun i => ?_, prioTotal, ?_, count⟩
  · have exact := balanced.lenBytes (prioId i)
    simp only [PrioDwrr.view, PrioDwrr.account_prioId] at exact
    exact exact
  · have exact := balanced.lenBytes (dwrrId i)
    simp only [PrioDwrr.view, PrioDwrr.account_dwrrId] at exact
    exact exact
  · have prio : (counters q).sumPrioLenBytes = ∑ i, ((counters q).prioQueues i).lenBytes :=
      prioTotal
    rw [← prio] at total
    exact total

/-- A WFQ queue counts no bytes exactly when it holds no packet. -/
theorem Counted.lenBytes_eq_zero_iff {q : PrioWfqSchedData} (counted : Counted q) (i : Fin 7) :
    (q.wfqQueues i).lenBytes = 0 ↔ (q.wfqQueues i).qdisc = [] := by
  obtain ⟨wfqLenBytes, balanced⟩ := counted
  have both := balanced.lenBytes_eq_zero_iff (dwrrId i)
  simp only [PrioDwrr.view, PrioDwrr.account_dwrrId] at both
  exact both

theorem Counted.sumPrioLenBytes_eq_zero_iff {q : PrioWfqSchedData} (counted : Counted q) :
    q.sumPrioLenBytes = 0 ↔ ∀ k, (q.prioQueues k).qdisc = [] :=
  PrioDwrr.Counted.sumPrioLenBytes_eq_zero_iff counted

/-! ### The scan -/

/-- The queues the scan does not skip. -/
def Candidate (q : PrioWfqSchedData) (i : Fin 7) : Prop := (q.wfqQueues i).lenBytes ≠ 0

instance (q : PrioWfqSchedData) (i : Fin 7) : Decidable (Candidate q i) :=
  inferInstanceAs (Decidable (_ ≠ _))

/-- The comparison of the scan. -/
def Earlier (q : PrioWfqSchedData) (i j : Fin 7) : Prop :=
  timestampBefore (q.wfqQueues i).headFinishTime (q.wfqQueues j).headFinishTime = true

instance (q : PrioWfqSchedData) : DecidableRel (Earlier q) :=
  fun _ _ => inferInstanceAs (Decidable (_ = true))

/-- The scan is the search for an earliest queue among those it does not skip. -/
theorem scan_eq_foldl (q : PrioWfqSchedData) :
    scan q = (List.finRange 7).foldl (Selection.scanStep (Candidate q) (Earlier q)) none := by
  unfold scan
  congr 1
  funext best i
  by_cases skipped : (q.wfqQueues i).lenBytes = 0
  · have out : ¬Candidate q i := fun candidate => candidate skipped
    simp only [scanStep, Selection.scanStep, if_pos skipped, if_neg out]
  · have candidate : Candidate q i := skipped
    simp only [scanStep, Selection.scanStep, if_neg skipped, if_pos candidate]
    cases best with
    | none => rfl
    | some best => rfl

section

variable {q : PrioWfqSchedData} {i : Fin 7}

private theorem scan_candidate (found : scan q = some i) : Candidate q i := by
  rw [scan_eq_foldl] at found
  exact (Selection.kept_of_scan found).2

/-- The scan ends with a queue as soon as one is not skipped. -/
theorem scan_isSome (candidate : Candidate q i) : (scan q).isSome := by
  rw [scan_eq_foldl]
  exact Selection.scan_isSome (List.mem_finRange i) candidate

end

/-! ### Order of service -/

/-- The packet a dequeue turns to: that of a priority queue, or the head of the queue the scan
ends with where no priority queue holds a packet. -/
inductive Front (q : PrioWfqSchedData) : Fin 8 → Skb → List Skb → Prop
  | prio {k : Fin 1} {skb : Skb} {rest : List Skb}
      (content : (q.prioQueues k).qdisc = skb :: rest) : Front q (prioId k) skb rest
  | wfq {i : Fin 7} {skb : Skb} {rest : List Skb} (idle : ∀ k, (q.prioQueues k).qdisc = [])
      (found : scan q = some i) (content : (q.wfqQueues i).qdisc = skb :: rest) :
      Front q (wfqId i) skb rest

/-- What a dequeue has to do with the packets that are stored. -/
inductive Serves (now : Int) (q q' : PrioWfqSchedData) : Dequeued → Prop
  /-- Nothing is stored. -/
  | null (empty : q.qlen = 0) (stays : q' = q) : Serves now q q' .null
  /-- The tokens do not cover the first packet, and the timer is set. -/
  | throttled {id : Fin 8} {skb : Skb} {rest : List Skb} {expires : Int}
      (front : Front q id skb rest) (armed : now ≤ expires) (stays : q' = q) :
      Serves now q q' (.throttled expires)
  /-- The first packet leaves its queue, and no other queue changes. -/
  | packet {id : Fin 8} {skb returned : Skb} {rest : List Skb} (front : Front q id skb rest)
      (fifos : fifo q' = Function.update (fifo q) id rest) (marker : MarkedFrom skb returned) :
      Serves now q q' (.packet id returned)

section

variable {params : Params} {now : Int} {q q' : PrioWfqSchedData} {outcome : Dequeued}

private theorem fifo_eq_iff {f : Fin 8 → List Skb} :
    fifo q = f ↔ (∀ i, (q.prioQueues i).qdisc = f (prioId i)) ∧
      ∀ i, (q.wfqQueues i).qdisc = f (wfqId i) := by
  rw [funext_iff, PrioDwrr.forall_ids]
  apply and_congr
  · simp only [fifo_prioId]
  · apply forall_congr'
    intro i
    rw [show dwrrId i = wfqId i from rfl, fifo_wfqId]

theorem wfqId_ne_prioId (i : Fin 7) (k : Fin 1) : wfqId i ≠ prioId k :=
  PrioDwrr.dwrrId_ne_prioId i k

theorem wfqId_injective : Function.Injective wfqId := by
  intro i j same
  have targets := congrArg queueOf same
  simpa [wfqId] using targets

/-- What a departure does to the FIFOs. -/
theorem fifo_of_sends {id : Fin 8} {returned : Skb} (sends : Sends params now q q' id returned) :
    ∃ skb rest, fifo q id = skb :: rest ∧ fifo q' = Function.update (fifo q) id rest := by
  cases sends with
  | @prio i skb rest busy front enough =>
      refine ⟨skb, rest, by rw [fifo_prioId, front], fifo_eq_iff.mpr ⟨fun k => ?_, fun k => ?_⟩⟩
      · obtain rfl : k = i := Subsingleton.elim k i
        rw [Function.update_self]
        simp [prioSent, prioTake]
      · rw [Function.update_of_ne (wfqId_ne_prioId k i), fifo_wfqId]
        rfl
  | @wfq i skb rest idle found front enough =>
      obtain ⟨headFinishTime, queues⟩ :=
        transmit_wfqQueues params now (refilled params now q) i skb rest q
      refine ⟨skb, rest, by rw [fifo_wfqId, front], fifo_eq_iff.mpr ⟨fun k => ?_, fun k => ?_⟩⟩
      · rw [Function.update_of_ne (wfqId_ne_prioId i k).symm, fifo_prioId]
        rw [(transmit_counters params now (refilled params now q) i skb rest q).1]
      · rw [queues]
        by_cases same : k = i
        · subst same
          simp
        · rw [Function.update_of_ne same, Function.update_of_ne (wfqId_injective.ne same),
            fifo_wfqId]

private theorem Counted.qlen_eq_zero_iff (counted : Counted q) :
    q.qlen = 0 ↔ ∀ id, fifo q id = [] := by
  obtain ⟨wfqLenBytes, balanced⟩ := counted
  have count : q.qlen = ∑ id, (fifo q id).length := balanced.qlen
  rw [count, sum_eq_zero_iff]
  simp

private theorem front_of_sends {id : Fin 8} {returned : Skb} (counted : Counted q)
    (sends : Sends params now q q' id returned) :
    ∃ skb rest, Front q id skb rest ∧ MarkedFrom skb returned ∧ fifo q id = skb :: rest := by
  cases sends with
  | prio busy front enough =>
      exact ⟨_, _, .prio front, dequeueMarking_markedFrom _ _ _ _, by rw [fifo_prioId, front]⟩
  | wfq idle found front enough =>
      exact ⟨_, _, .wfq (counted.sumPrioLenBytes_eq_zero_iff.mp idle) found front,
        dequeueMarking_markedFrom _ _ _ _, by rw [fifo_wfqId, front]⟩

/-- A scan with something to find finds a queue that holds a packet. -/
theorem Counted.scan_front (counted : Counted q) (busy : ∃ i, (q.wfqQueues i).qdisc ≠ []) :
    ∃ i skb rest, scan q = some i ∧ (q.wfqQueues i).qdisc = skb :: rest := by
  obtain ⟨k, nonempty⟩ := busy
  have candidate : Candidate q k := fun none =>
    nonempty ((counted.lenBytes_eq_zero_iff k).mp none)
  obtain ⟨i, found⟩ := Option.isSome_iff_exists.mp (scan_isSome candidate)
  have inside : (q.wfqQueues i).qdisc ≠ [] := fun empty =>
    scan_candidate found ((counted.lenBytes_eq_zero_iff i).mpr empty)
  obtain ⟨skb, rest, content⟩ := List.exists_cons_of_ne_nil inside
  exact ⟨i, skb, rest, found, content⟩

/-- A qdisc that stores a packet turns to one. -/
theorem Counted.exists_front (counted : Counted q) (busy : q.qlen ≠ 0) :
    ∃ id skb rest, Front q id skb rest := by
  by_cases prio : ∀ k, (q.prioQueues k).qdisc = []
  · have others : ∃ i, (q.wfqQueues i).qdisc ≠ [] := by
      by_contra empty
      push Not at empty
      apply busy
      rw [counted.qlen_eq_zero_iff, PrioDwrr.forall_ids]
      exact ⟨fun k => by rw [fifo_prioId, prio k],
        fun i => by rw [show dwrrId i = wfqId i from rfl, fifo_wfqId, empty i]⟩
    obtain ⟨i, skb, rest, found, content⟩ := counted.scan_front others
    exact ⟨wfqId i, skb, rest, .wfq prio found content⟩
  · push Not at prio
    obtain ⟨k, nonempty⟩ := prio
    obtain ⟨skb, rest, content⟩ := List.exists_cons_of_ne_nil nonempty
    exact ⟨prioId k, skb, rest, .prio content⟩

/-- It returns that packet or is throttled on it. -/
theorem Counted.not_null (counted : Counted q) {id : Fin 8} {skb : Skb} {rest : List Skb}
    (front : Front q id skb rest) : (qdiscDequeue params now q).2 ≠ .null := by
  cases front with
  | @prio k skb rest content =>
      have busy : 0 < q.sumPrioLenBytes := Nat.pos_of_ne_zero fun none => by
        rw [counted.sumPrioLenBytes_eq_zero_iff.mp none k] at content
        cases content
      have found : prioQueuesPeek q = some skb := by
        unfold prioQueuesPeek
        rw [if_pos busy, findSome?_finRange_eq_some_iff]
        refine ⟨k, by rw [content]; rfl, fun j lower => ?_⟩
        exact absurd (Subsingleton.elim j k) lower.ne
      obtain ⟨i, rest', _, takes⟩ := prioQueuesPeek_eq_some found
      simp only [qdiscDequeue, if_pos busy, prioQueuesDequeue, found, takes]
      split_ifs <;> simp
  | @wfq i skb rest idle found content =>
      have none : q.sumPrioLenBytes = 0 := counted.sumPrioLenBytes_eq_zero_iff.mpr idle
      have stored : (q.wfqQueues i).lenBytes ≠ 0 := scan_candidate found
      have total := counted.bookkeeping.sumLenBytes
      have part := Accounting.measure_le_total WfqClass.lenBytes q.wfqQueues i
      have noPrio : ¬0 < q.sumPrioLenBytes := by omega
      have busy : 0 < q.sumLenBytes := by omega
      have more : q.sumLenBytes ≠ q.sumPrioLenBytes := by omega
      simp only [qdiscDequeue, if_neg noPrio, if_pos busy, wfqQueuesDequeue, if_neg more, found,
        content, peek, dequeuePeeked, List.head?_cons]
      split_ifs <;> simp

private theorem serves_of_returns (counted : Counted q)
    (returns : qdiscDequeue params now q = (q', outcome)) : Serves now q q' outcome := by
  cases outcome with
  | null =>
      refine .null ?_ (qdiscDequeue_stays returns (by simp))
      by_contra busy
      obtain ⟨id, skb, rest, front⟩ := counted.exists_front busy
      exact counted.not_null front (congrArg Prod.snd returns)
  | throttled expires =>
      have stays := qdiscDequeue_stays returns (by simp)
      cases qdiscDequeue_cases returns with
      | prio busy ends =>
          cases ends with
          | throttled found short =>
              obtain ⟨k, rest, content, _⟩ := prioQueuesPeek_eq_some found
              exact .throttled (.prio content) (by omega) stays
      | wfq idle busy ends =>
          cases ends with
          | throttled selected short =>
              obtain ⟨_, found, rest, content⟩ := selected
              exact .throttled
                (.wfq (counted.sumPrioLenBytes_eq_zero_iff.mp idle) found content) (by omega) stays
      | idle stays nothing => cases nothing
  | packet id returned =>
      have sends := qdiscDequeue_sends returns
      obtain ⟨skb, rest, front, marker, content⟩ := front_of_sends counted sends
      obtain ⟨skb', rest', content', fifos⟩ := fifo_of_sends sends
      obtain ⟨rfl, rfl⟩ := List.cons.inj (content.symm.trans content')
      exact .packet front fifos marker
  | fault =>
      cases qdiscDequeue_cases returns with
      | prio busy ends => cases ends
      | wfq idle busy ends => cases ends
      | idle stays nothing => cases nothing

end

/-- **Bookkeeping and service.** In every reachable state the counters are the sums they stand
for. A dequeue takes the packet of a priority queue while one holds any, else the head of the
WFQ queue its scan ends with, or is throttled on that packet, and returns nothing else only
if nothing is stored. -/
theorem prioWfq_bookkeeping_and_service {bfifo : Bfifo} (bounded : bfifo.Bounded) {s : Sys}
    (reachable : Reachable bfifo s) :
    Bookkeeping s.q ∧ ∀ now q' outcome, qdiscDequeue s.params now s.q = (q', outcome) →
      Serves now s.q q' outcome := by
  have counted := counted_of_reachable bounded reachable
  exact ⟨counted.bookkeeping, fun now q' outcome => serves_of_returns counted⟩

/-! ### A loaded qdisc -/

/-- A fresh qdisc at 1 Gbit/s with the default parameters. -/
def idle : Sys := ⟨paramsInit, qdiscInit 0 125000000, 0⟩

/-- A priority frame, frames for two WFQ queues, and a dequeue that the tokens allow. -/
def mixedHistory : List (Event Param) :=
  [.enqueue 10 (fullFrame 4) .success, .enqueue 20 (fullFrame 8) .success,
    .sysctl (.queueWeight 0) 3, .enqueue 30 (fullFrame 0) .success,
    .enqueue 40 (fullFrame 4) .success, .dequeue 20000 (.packet 0 (fullFrame 0))]

theorem mixed_isSome :
    (replay (Sys.next byteLimit) (fun _ => True) idle mixedHistory).isSome = true := by
  decide

/-- The state they lead to. -/
def mixed : Sys := (replay (Sys.next byteLimit) (fun _ => True) idle mixedHistory).get mixed_isSome

private theorem mixed_reachable : Reachable byteLimit mixed :=
  ⟨idle, mixedHistory, ⟨_, rfl⟩, (RunWithin.of_replay_isSome Sys.next_sound mixed_isSome).run⟩

theorem serves_of_mixed : Bookkeeping mixed.q ∧ ∀ now q' outcome,
    qdiscDequeue mixed.params now mixed.q = (q', outcome) → Serves now mixed.q q' outcome :=
  prioWfq_bookkeeping_and_service byteLimit_bounded mixed_reachable

end MqEcn.Kernel.PrioWfq
