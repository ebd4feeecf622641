import MqEcn.Kernel.PrioDwrr.Step
import MqEcn.Kernel.PrioWfq.Model

/-!
Contract: what each operation of `sch_prio_wfq` can do, said once.

Owns: the markers, what a peek finds and takes, the ways each dequeue path and an enqueue
can end, what the finish times touch, and the step relation as a function of the event.

Does not own: the invariants derived from these facts.
-/

set_option autoImplicit false

namespace MqEcn.Kernel.PrioWfq

open MqEcn.Kernel
open MqEcn.Kernel.PrioDwrr (PrioClass prioId queueOf peek dequeuePeeked qdiscEcn)
open MqEcn.Library.Word

theorem dequeueMarking_markedFrom (params : Params) (now : Int) (skb : Skb)
    (q : PrioWfqSchedData) : MarkedFrom skb (dequeueMarking params now skb q) := by
  unfold dequeueMarking
  split
  · exact PrioDwrr.qdiscEcn_markedFrom skb
  · exact Or.inl rfl

/-! ### The priority queues -/

/-- The state once `prio_queues_dequeue_peeked` has removed `skb` from queue `i`. -/
def prioTake (i : Fin 1) (skb : Skb) (rest : List Skb) (q : PrioWfqSchedData) :
    PrioWfqSchedData :=
  { q with
    prioQueues :=
      Function.update q.prioQueues i
        { qdisc := rest, lenBytes := u32Sub (q.prioQueues i).lenBytes (skbSize skb) } }

/-- What `prio_queues_peek` finds is the head of a queue, and what
`prio_queues_dequeue_peeked` removes. -/
theorem prioQueuesPeek_eq_some {q : PrioWfqSchedData} {peeked : Skb}
    (found : prioQueuesPeek q = some peeked) :
    ∃ i rest, (q.prioQueues i).qdisc = peeked :: rest ∧
      prioQueuesDequeuePeeked q = some (i, peeked, prioTake i peeked rest q) := by
  unfold prioQueuesPeek at found
  unfold prioQueuesDequeuePeeked
  split at found
  next busy =>
    rcases PrioDwrr.findSome?_peek found with ⟨i, rest, front, takes⟩
    exact ⟨i, rest, front, (if_pos busy).trans (takes _)⟩
  next => cases found

/-- How a dequeue from the priority queues ends. -/
inductive PrioDequeues (params : Params) (now : Int) (q : PrioWfqSchedData) :
    PrioWfqSchedData → Dequeued → Prop
  | null (nothing : prioQueuesPeek q = none) : PrioDequeues params now q q .null
  | throttled {skb : Skb} (found : prioQueuesPeek q = some skb)
      (short : refilled params now q < l2tNs q.rate (skbSize skb)) :
      PrioDequeues params now q q
        (.throttled (now - (refilled params now q - l2tNs q.rate (skbSize skb))))
  | packet {q' : PrioWfqSchedData} {i : Fin 1} {skb marked : Skb}
      (found : prioQueuesPeek q = some skb)
      (enough : (l2tNs q.rate (skbSize skb) : Int) ≤ refilled params now q)
      (paid : q'.tokens =
        min (refilled params now q - l2tNs q.rate (skbSize skb)) (params.value .bucketNs))
      (marker : MarkedFrom skb marked) :
      PrioDequeues params now q q' (.packet (prioId i) marked)

private theorem prioQueuesDequeue_cases {params : Params} {now : Int} {q q' : PrioWfqSchedData}
    {outcome : Dequeued} (returns : prioQueuesDequeue params now q = (q', outcome)) :
    PrioDequeues params now q q' outcome := by
  unfold prioQueuesDequeue at returns
  split at returns
  next nothing =>
    cases returns
    exact .null nothing
  next skb found =>
    rcases prioQueuesPeek_eq_some found with ⟨i, rest, front, takes⟩
    simp only [takes] at returns
    split at returns
    next enough =>
      cases returns
      exact .packet found (by omega) rfl (dequeueMarking_markedFrom _ _ _ _)
    next short =>
      cases returns
      exact .throttled found (by omega)

/-! ### The WFQ queues -/

/-- The head packet the scan selects. -/
def Selected (q : PrioWfqSchedData) (i : Fin 7) (skb : Skb) : Prop :=
  q.sumLenBytes ≠ q.sumPrioLenBytes ∧ scan q = some i ∧ ∃ rest, (q.wfqQueues i).qdisc = skb :: rest

/-- How a dequeue from the WFQ queues ends. -/
inductive WfqDequeues (params : Params) (now : Int) (q : PrioWfqSchedData) :
    PrioWfqSchedData → Dequeued → Prop
  | null : WfqDequeues params now q q .null
  | throttled {i : Fin 7} {skb : Skb} (selected : Selected q i skb)
      (short : refilled params now q ≤ l2tNs q.rate (skbSize skb)) :
      WfqDequeues params now q q
        (.throttled (now + l2tNs q.rate (skbSize skb) - refilled params now q))
  | packet {q' : PrioWfqSchedData} {i : Fin 7} {skb marked : Skb} (selected : Selected q i skb)
      (enough : (l2tNs q.rate (skbSize skb) : Int) < refilled params now q)
      (paid : q'.tokens =
        min (refilled params now q - l2tNs q.rate (skbSize skb)) (params.value .bucketNs))
      (marker : MarkedFrom skb marked) :
      WfqDequeues params now q q' (.packet (wfqId i) marked)

private theorem wfqQueuesDequeue_cases {params : Params} {now : Int} {q q' : PrioWfqSchedData}
    {outcome : Dequeued} (returns : wfqQueuesDequeue params now q = (q', outcome)) :
    WfqDequeues params now q q' outcome := by
  unfold wfqQueuesDequeue at returns
  split at returns
  next idle =>
    cases returns
    exact .null
  next busy =>
    split at returns
    next missing =>
      cases returns
      exact .null
    next i found =>
      cases front : (q.wfqQueues i).qdisc with
      | nil =>
          simp only [front, peek, List.head?_nil] at returns
          cases returns
          exact .null
      | cons skb rest =>
          have selected : Selected q i skb := ⟨busy, found, rest, front⟩
          simp only [front, peek, dequeuePeeked, List.head?_cons] at returns
          split at returns
          next enough =>
            cases returns
            exact .packet selected enough rfl (dequeueMarking_markedFrom _ _ _ _)
          next short =>
            cases returns
            exact .throttled selected (by omega)

/-- How a dequeue ends. -/
inductive Dequeues (params : Params) (now : Int) (q q' : PrioWfqSchedData) (outcome : Dequeued) :
    Prop
  | prio (busy : 0 < q.sumPrioLenBytes) (ends : PrioDequeues params now q q' outcome)
  | wfq (idle : q.sumPrioLenBytes = 0) (busy : 0 < q.sumLenBytes)
      (ends : WfqDequeues params now q q' outcome)
  | idle (stays : q' = q) (nothing : outcome = .null)

theorem qdiscDequeue_cases {params : Params} {now : Int} {q q' : PrioWfqSchedData}
    {outcome : Dequeued} (returns : qdiscDequeue params now q = (q', outcome)) :
    Dequeues params now q q' outcome := by
  unfold qdiscDequeue at returns
  split at returns
  next busy => exact .prio busy (prioQueuesDequeue_cases returns)
  next idle =>
    split at returns
    next busy => exact .wfq (by omega) busy (wfqQueuesDequeue_cases returns)
    next nothing =>
      cases returns
      exact .idle rfl rfl

/-! ### A dequeue, exactly -/

/-- The state once the packet of priority queue `i` has left. -/
def prioSent (params : Params) (now toks : Int) (i : Fin 1) (skb : Skb) (rest : List Skb)
    (q : PrioWfqSchedData) : PrioWfqSchedData :=
  { prioTake i skb rest q with
    timeNs := now
    sumLenBytes := u32Sub q.sumLenBytes (skbSize skb)
    sumPrioLenBytes := u32Sub q.sumPrioLenBytes (skbSize skb)
    qlen := u32Sub q.qlen 1
    tokens := min toks (params.value .bucketNs) }

/-- What a dequeue that returns a packet does to the qdisc. -/
inductive Sends (params : Params) (now : Int) (q : PrioWfqSchedData) :
    PrioWfqSchedData → Fin 8 → Skb → Prop
  | prio {i : Fin 1} {skb : Skb} {rest : List Skb} (busy : 0 < q.sumPrioLenBytes)
      (front : (q.prioQueues i).qdisc = skb :: rest)
      (enough : (l2tNs q.rate (skbSize skb) : Int) ≤ refilled params now q) :
      Sends params now q
        (prioSent params now (refilled params now q - l2tNs q.rate (skbSize skb)) i skb rest q)
        (prioId i) (dequeueMarking params now skb q)
  | wfq {i : Fin 7} {skb : Skb} {rest : List Skb} (idle : q.sumPrioLenBytes = 0)
      (found : scan q = some i) (front : (q.wfqQueues i).qdisc = skb :: rest)
      (enough : (l2tNs q.rate (skbSize skb) : Int) < refilled params now q) :
      Sends params now q (transmit params now i skb rest (refilled params now q) q).1 (wfqId i)
        (dequeueMarking params now skb q)

/-- The stamp of the next head leaves the rate. -/
theorem stampNext_rate (params : Params) (i : Fin 7) (q : PrioWfqSchedData) :
    (stampNext params i q).rate = q.rate := by
  unfold stampNext
  simp only
  split
  · split <;> rfl
  · rfl

/-- The latency marking reads nothing a departure changes. -/
theorem transmit_returned (params : Params) (now toks : Int) (i : Fin 7) (skb : Skb)
    (rest : List Skb) (q : PrioWfqSchedData) :
    (transmit params now i skb rest toks q).2 = dequeueMarking params now skb q := by
  unfold transmit dequeueMarking
  simp only [stampNext_rate]

private theorem prioQueuesDequeue_sends {params : Params} {now : Int} {q q' : PrioWfqSchedData}
    {id : Fin 8} {returned : Skb} (busy : 0 < q.sumPrioLenBytes)
    (returns : prioQueuesDequeue params now q = (q', .packet id returned)) :
    Sends params now q q' id returned := by
  unfold prioQueuesDequeue at returns
  split at returns
  next nothing => cases returns
  next skb found =>
    obtain ⟨i, rest, front, takes⟩ := prioQueuesPeek_eq_some found
    simp only [takes] at returns
    split at returns
    next enough =>
      cases returns
      exact .prio busy front (by omega)
    next short => cases returns

private theorem wfqQueuesDequeue_sends {params : Params} {now : Int} {q q' : PrioWfqSchedData}
    {id : Fin 8} {returned : Skb} (idle : q.sumPrioLenBytes = 0)
    (returns : wfqQueuesDequeue params now q = (q', .packet id returned)) :
    Sends params now q q' id returned := by
  unfold wfqQueuesDequeue at returns
  split at returns
  next same => cases returns
  next busy =>
    split at returns
    next missing => cases returns
    next i found =>
      cases front : (q.wfqQueues i).qdisc with
      | nil =>
          simp only [front, peek, List.head?_nil] at returns
          cases returns
      | cons skb rest =>
          simp only [front, peek, dequeuePeeked, List.head?_cons] at returns
          split at returns
          next enough =>
            cases returns
            rw [transmit_returned]
            exact .wfq idle found front enough
          next short => cases returns

theorem qdiscDequeue_sends {params : Params} {now : Int} {q q' : PrioWfqSchedData} {id : Fin 8}
    {returned : Skb} (returns : qdiscDequeue params now q = (q', .packet id returned)) :
    Sends params now q q' id returned := by
  unfold qdiscDequeue at returns
  split at returns
  next busy => exact prioQueuesDequeue_sends busy returns
  next idle =>
    split at returns
    next busy => exact wfqQueuesDequeue_sends (Nat.eq_zero_of_not_pos idle) returns
    next nothing => cases returns

/-- A dequeue that returns no packet changes nothing. -/
theorem qdiscDequeue_stays {params : Params} {now : Int} {q q' : PrioWfqSchedData}
    {outcome : Dequeued} (returns : qdiscDequeue params now q = (q', outcome))
    (nothing : ∀ id skb, outcome ≠ .packet id skb) : q' = q := by
  cases qdiscDequeue_cases returns with
  | prio busy ends =>
      cases ends with
      | null | throttled => rfl
      | packet => exact absurd rfl (nothing _ _)
  | wfq idle busy ends =>
      cases ends with
      | null | throttled => rfl
      | packet => exact absurd rfl (nothing _ _)
  | idle stays => exact stays

/-! ### Enqueue -/

/-- How an enqueue ends. A packet that is refused changes nothing. -/
inductive Enqueues (bfifo : Bfifo) (params : Params) (now : Int) (skb : Skb)
    (q : PrioWfqSchedData) : PrioWfqSchedData → NetXmit → Prop
  | refused {ret : NetXmit} (refuses : ret ≠ .success) : Enqueues bfifo params now skb q q ret
  | prio {i : Fin 1} (target : qdiscClassify params skb = prioId i)
      (accepted : bfifo (q.prioQueues i).qdisc skb = .success) :
      Enqueues bfifo params now skb q (prioAdmit params now i skb q) .success
  | wfq {i : Fin 7} (target : qdiscClassify params skb = wfqId i)
      (accepted : bfifo (q.wfqQueues i).qdisc skb = .success) :
      Enqueues bfifo params now skb q (wfqAdmit params now i skb q) .success

theorem qdiscEnqueue_cases {bfifo : Bfifo} {params : Params} {now : Int} {skb : Skb}
    {q q' : PrioWfqSchedData} {ret : NetXmit}
    (returns : qdiscEnqueue bfifo params now skb q = (q', ret)) :
    Enqueues bfifo params now skb q q' ret := by
  unfold qdiscEnqueue at returns
  simp only at returns
  split at returns
  next i target =>
    split at returns
    · cases returns
      exact .refused (by simp)
    · split at returns
      next accepted =>
        cases returns
        exact .prio (PrioDwrr.eq_prioId_of_queueOf target) accepted
      all_goals
        cases returns
        exact .refused (by simp)
  next i target =>
    split at returns
    · cases returns
      exact .refused (by simp)
    · split at returns
      next accepted =>
        cases returns
        exact .wfq (PrioDwrr.eq_dwrrId_of_queueOf target) accepted
      all_goals
        cases returns
        exact .refused (by simp)

/-! ### The step as a function -/

/-- The operations of the module. -/
def operations (bfifo : Bfifo) : Operations Params PrioWfqSchedData Param where
  enqueue := qdiscEnqueue bfifo
  dequeue := fun params now q => some (qdiscDequeue params now q)
  write := fun params => params.write
  change := qdiscChange

private theorem operations_follow (bfifo : Bfifo) : (operations bfifo).Follow (Step bfifo) :=
  ⟨.enqueue, fun later returns => .dequeue later (Option.some.inj returns), .sysctl, .change⟩

def Sys.next (bfifo : Bfifo) : Sys → Event Param → Option Sys := (operations bfifo).next

theorem Sys.next_sound {bfifo : Bfifo} {s s' : Sys} {event : Event Param}
    (answers : Sys.next bfifo s event = some s') : Step bfifo s event s' :=
  (operations_follow bfifo).next_sound answers

end MqEcn.Kernel.PrioWfq
