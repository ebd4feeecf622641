import MqEcn.Kernel.Ledger
import MqEcn.Kernel.Prio.Model
import MqEcn.Kernel.PrioDwrr.Step

/-!
Contract: what each operation of `sch_prio` can do, said once.

Owns: the scan over the queues, the inversion of both entry points, the view of the qdisc
its counters account for and what each branch does to it, and the step relation as a
function of the event.

Does not own: the invariants derived from these facts.
-/

set_option autoImplicit false

namespace MqEcn.Kernel.Prio

open MqEcn.Kernel
open MqEcn.Kernel.PrioDwrr (peek dequeuePeeked qdiscEcn)
open MqEcn.Library
open MqEcn.Library.Word

/-! ### Markers -/

theorem dequeueMarking_markedFrom (params : Params) (now : Int) (skb : Skb) (q : PrioSchedData) :
    MarkedFrom skb (dequeueMarking params now skb q) := by
  unfold dequeueMarking
  split
  · exact PrioDwrr.qdiscEcn_markedFrom skb
  · exact Or.inl rfl

theorem enqueueMarking_len (params : Params) (now : Int) (skb : Skb) (id : Fin 8)
    (q : PrioSchedData) : (enqueueMarking params now skb id q).len = skb.len := by
  unfold enqueueMarking
  simp only
  split_ifs
  · exact (PrioDwrr.qdiscEcn_markedFrom skb).len_eq
  · exact (PrioDwrr.qdiscEcn_markedFrom skb).len_eq
  · rfl
  · rfl

/-! ### The scan -/

/-- The head packet of the first queue that holds one. -/
structure Front (q : PrioSchedData) (i : Fin 8) (skb : Skb) (rest : List Skb) : Prop where
  content : q.queues i = skb :: rest
  first : ∀ j < i, q.queues j = []

private theorem qdiscPeek_eq_some {q : PrioSchedData} {skb : Skb} (found : qdiscPeek q = some skb) :
    ∃ i rest, Front q i skb rest := by
  obtain ⟨i, head, empty⟩ := findSome?_finRange_eq_some_iff.mp found
  obtain ⟨rest, content⟩ := List.head?_eq_some_iff.mp head
  exact ⟨i, rest, content, fun j lower => List.head?_eq_none_iff.mp (empty j lower)⟩

private theorem qdiscPeek_eq_none_iff {q : PrioSchedData} :
    qdiscPeek q = none ↔ ∀ i, q.queues i = [] := by
  unfold qdiscPeek peek
  simp

private theorem qdiscPeek_of_front {q : PrioSchedData} {i : Fin 8} {skb : Skb} {rest : List Skb}
    (front : Front q i skb rest) : qdiscPeek q = some skb := by
  apply findSome?_finRange_eq_some_iff.mpr
  refine ⟨i, by rw [front.content]; rfl, fun j lower => ?_⟩
  rw [front.first j lower]
  rfl

/-- The state once `prio_qdisc_dequeue_peeked` has removed `skb` from queue `i`. -/
def take (i : Fin 8) (skb : Skb) (rest : List Skb) (q : PrioSchedData) : PrioSchedData :=
  { q with
    queues := Function.update q.queues i rest
    queueLenBytes :=
      Function.update q.queueLenBytes i (u32Sub (q.queueLenBytes i) (skbSize skb)) }

/-- What `prio_qdisc_peek` finds is what `prio_qdisc_dequeue_peeked` removes. -/
theorem qdiscDequeuePeeked_of_front {q : PrioSchedData} {i : Fin 8} {skb : Skb} {rest : List Skb}
    (front : Front q i skb rest) : qdiscDequeuePeeked q = some (i, skb, take i skb rest q) := by
  apply findSome?_finRange_eq_some_iff.mpr
  refine ⟨i, by rw [front.content]; rfl, fun j lower => ?_⟩
  rw [front.first j lower]
  rfl

/-! ### Dequeue -/

/-- The state once the packet of queue `i` has left. -/
def sent (params : Params) (now toks : Int) (i : Fin 8) (skb : Skb) (rest : List Skb)
    (q : PrioSchedData) : PrioSchedData :=
  { take i skb rest q with
    timeNs := now
    sumLenBytes := u32Sub q.sumLenBytes (skbSize skb)
    qlen := u32Sub q.qlen 1
    tokens := min toks (params.value .bucketNs) }

/-- How a dequeue ends. -/
inductive Dequeues (params : Params) (now : Int) (q : PrioSchedData) :
    PrioSchedData → Dequeued → Prop
  | null (empty : ∀ i, q.queues i = []) : Dequeues params now q q .null
  | throttled {i : Fin 8} {skb : Skb} {rest : List Skb} (front : Front q i skb rest)
      (short : refilled params now q < l2tNs q.rate (skbSize skb)) :
      Dequeues params now q q
        (.throttled (now - (refilled params now q - l2tNs q.rate (skbSize skb))))
  | packet {i : Fin 8} {skb : Skb} {rest : List Skb} (front : Front q i skb rest)
      (enough : (l2tNs q.rate (skbSize skb) : Int) ≤ refilled params now q) :
      Dequeues params now q
        (sent params now (refilled params now q - l2tNs q.rate (skbSize skb)) i skb rest q)
        (.packet i (dequeueMarking params now skb q))

theorem qdiscDequeue_cases {params : Params} {now : Int} {q q' : PrioSchedData}
    {outcome : Dequeued} (returns : qdiscDequeue params now q = (q', outcome)) :
    Dequeues params now q q' outcome := by
  unfold qdiscDequeue at returns
  split at returns
  next nothing =>
    cases returns
    exact .null (qdiscPeek_eq_none_iff.mp nothing)
  next skb found =>
    obtain ⟨i, rest, front⟩ := qdiscPeek_eq_some found
    simp only [qdiscDequeuePeeked_of_front front] at returns
    split at returns
    next enough =>
      cases returns
      exact .packet front (by omega)
    next short =>
      cases returns
      exact .throttled front (by omega)

/-- A dequeue is decided by the tokens and the first packet. -/
theorem qdiscDequeue_of_front (params : Params) (now : Int) {q : PrioSchedData} {i : Fin 8}
    {skb : Skb} {rest : List Skb} (front : Front q i skb rest) :
    qdiscDequeue params now q =
      if 0 ≤ refilled params now q - l2tNs q.rate (skbSize skb) then
        (sent params now (refilled params now q - l2tNs q.rate (skbSize skb)) i skb rest q,
          .packet i (dequeueMarking params now skb q))
      else (q, .throttled (now - (refilled params now q - l2tNs q.rate (skbSize skb)))) := by
  unfold qdiscDequeue
  simp only [qdiscPeek_of_front front, qdiscDequeuePeeked_of_front front]
  rfl

/-! ### Enqueue -/

/-- How an enqueue ends. A packet that is refused changes nothing in the qdisc. -/
inductive Enqueues (bfifo : Bfifo) (params : Params) (now : Int) (skb : Skb) (q : PrioSchedData) :
    PrioSchedData → NetXmit → Prop
  | refused {ret : NetXmit} (refuses : ret ≠ .success) : Enqueues bfifo params now skb q q ret
  | stored (fits : bufferOverfill params (skbSize skb) (qdiscClassify params skb) q = false)
      (accepted : bfifo (q.queues (qdiscClassify params skb))
        (enqueueMarking params now skb (qdiscClassify params skb) q) = .success) :
      Enqueues bfifo params now skb q
        (admitted (qdiscClassify params skb) (skbSize skb)
          (enqueueMarking params now skb (qdiscClassify params skb) q) q) .success

theorem qdiscEnqueue_cases {bfifo : Bfifo} {params : Params} {now : Int} {skb : Skb}
    {q q' : PrioSchedData} {ret : NetXmit}
    (returns : qdiscEnqueue bfifo params now skb q = (q', ret)) :
    Enqueues bfifo params now skb q q' ret := by
  unfold qdiscEnqueue at returns
  simp only at returns
  split at returns
  · cases returns
    exact .refused (by simp)
  next fits =>
    split at returns
    next accepted =>
      cases returns
      exact .stored (Bool.eq_false_iff.mpr fits) accepted
    all_goals
      cases returns
      exact .refused (by simp)

/-! ### The view of the counters -/

/-- What the counters of the qdisc account for. A queue is its own priority. -/
def view (q : PrioSchedData) : Ledger where
  queues := fun i => ⟨i, q.queueLenBytes i, q.queues i⟩
  prioLenBytes := q.queueLenBytes
  sumLenBytes := q.sumLenBytes
  qlen := q.qlen

theorem view_sent (params : Params) (now toks : Int) (i : Fin 8) (skb : Skb) (rest : List Skb)
    (q : PrioSchedData) :
    view (sent params now toks i skb rest q) = (view q).depart i i skb rest := by
  simp only [view, sent, take, Ledger.depart, Ledger.mk.injEq, and_true]
  funext other
  by_cases same : other = i
  · subst same
    simp
  · simp [Function.update_of_ne same]

theorem view_admitted (id : Fin 8) {skb marked : Skb} (sameLen : marked.len = skb.len)
    (q : PrioSchedData) :
    view (admitted id (skbSize skb) marked q) = (view q).enter id id marked := by
  have own : (view q).entryPrio id id = id := ite_self id
  unfold Ledger.enter
  rw [own]
  simp only [view, admitted, skbSize_eq_of_len_eq sameLen, Ledger.mk.injEq, and_true]
  funext other
  by_cases same : other = id
  · subst same
    simp
  · simp [Function.update_of_ne same]

/-! ### The step as a function -/

/-- The operations of the module. -/
def operations (bfifo : Bfifo) : Operations Params PrioSchedData Param where
  enqueue := qdiscEnqueue bfifo
  dequeue := fun params now q => some (qdiscDequeue params now q)
  write := fun params => params.write
  change := qdiscChange

private theorem operations_follow (bfifo : Bfifo) : (operations bfifo).Follow (Step bfifo) :=
  ⟨.enqueue, fun later returns => .dequeue later (Option.some.inj returns), .sysctl, .change⟩

def Sys.next (bfifo : Bfifo) : Sys → Event Param → Option Sys := (operations bfifo).next

theorem Sys.next_sound {bfifo : Bfifo} {s s' : Sys} {event : Event Param}
    (answers : Sys.next bfifo s event = some s') : Step bfifo s event s' :=
  (operations_follow bfifo).next_sound answers

end MqEcn.Kernel.Prio
