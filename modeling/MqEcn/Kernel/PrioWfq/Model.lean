import MqEcn.Kernel.PrioDwrr.Model
import MqEcn.Kernel.PrioWfq.Params

/-!
Contract: the embedding of `sch_prio_wfq/main.c`.

Owns: the class and scheduler structures, every function on the enqueue and the dequeue
path, initialization, and the step relation of the whole qdisc under enqueues, dequeues,
sysctl writes and rate changes.

What `sch_prio_wfq` has word for word from `sch_prio_dwrr` is used from there: the priority
class, the numbering of the queues, the inner FIFO and the ECN mark. `skb_make_writable`
succeeds, and a clock reading is one value a call. Statistics and debug prints are left out.

Does not own: any property.
-/

set_option autoImplicit false

namespace MqEcn.Kernel.PrioWfq

open MqEcn.Kernel
open MqEcn.Kernel.PrioDwrr (PrioClass prioId queueOf peek dequeuePeeked qdiscEcn)
open MqEcn.Library.Transition
open MqEcn.Library.Word

/-! ### State -/

/-- `struct wfq_class`. Its `id` is given by its index. -/
structure WfqClass where
  qdisc : List Skb
  headFinishTime : Nat
  lenBytes : Nat

/-- `struct prio_wfq_sched_data`, with `sch->q.qlen`. -/
structure PrioWfqSchedData where
  wfqQueues : Fin 7 → WfqClass
  prioQueues : Fin 1 → PrioClass
  rate : RateCfg
  tokens : Int
  sumLenBytes : Nat
  sumPrioLenBytes : Nat
  virtualTime : Nat
  timeNs : Int
  qlen : Nat

/-- `id` of a WFQ queue. -/
def wfqId (i : Fin 7) : Fin 8 := PrioDwrr.dwrrId i

/-- `timestamp_before`. -/
def timestampBefore (time1 time2 : Nat) : Bool :=
  let thresh := 1 <<< 63
  if time1 < time2 ∧ time2 - time1 ≤ thresh then true
  else if time2 < time1 ∧ thresh < time1 - time2 then true
  else false

/-- `max_timestamp`. -/
def maxTimestamp (time1 time2 : Nat) : Nat :=
  if timestampBefore time1 time2 then time2 else time1

/-! ### ECN marking -/

/-- The latency marking of a packet that leaves. -/
def dequeueMarking (params : Params) (now : Int) (skb : Skb) (q : PrioWfqSchedData) : Skb :=
  if params.value .ecnScheme = 5 ∧ 0 < skb.tstamp ∧
      (l2tNs q.rate (u32OfInt (params.value .portThreshBytes)) : Int) < now - skb.tstamp then
    qdiscEcn skb
  else skb

/-- The marking at the end of an enqueue to the queue `id` that holds `lenBytes` then. It is
the same for both kinds of queues. -/
def enqueueMarking (params : Params) (now : Int) (skb : Skb) (q : PrioWfqSchedData)
    (id : Fin 8) (lenBytes : Nat) : Skb :=
  match params.value .ecnScheme with
  | 1 => if u32OfInt (params.value (.queueThreshBytes id)) < lenBytes then qdiscEcn skb else skb
  | 2 => if u32OfInt (params.value .portThreshBytes) < q.sumLenBytes then qdiscEcn skb else skb
  | 5 => { skb with tstamp := now }
  | _ => skb

/-! ### Classification -/

/-- `prio_wfq_qdisc_classify`. The arrays are never NULL, so the result is never `-1`. -/
def qdiscClassify (params : Params) (skb : Skb) : Fin 8 :=
  match skb.tos with
  | none => 0
  | some tos =>
      ((List.finRange 8).find? fun i =>
        decide (((tos >>> 2 : Nat) : Int) = params.value (.queueDscp i))).getD 0

/-! ### Dequeue from the priority queues -/

/-- `prio_queues_peek`. -/
def prioQueuesPeek (q : PrioWfqSchedData) : Option Skb :=
  if 0 < q.sumPrioLenBytes then
    (List.finRange 1).findSome? fun i => peek (q.prioQueues i).qdisc
  else none

/-- `prio_queues_dequeue_peeked`; the packet comes with the queue it was taken from. -/
def prioQueuesDequeuePeeked (q : PrioWfqSchedData) : Option (Fin 1 × Skb × PrioWfqSchedData) :=
  if 0 < q.sumPrioLenBytes then
    (List.finRange 1).findSome? fun i =>
      let cl := q.prioQueues i
      (dequeuePeeked cl.qdisc).map fun taken =>
        (i, taken.1,
          { q with
            prioQueues :=
              Function.update q.prioQueues i
                { qdisc := taken.2, lenBytes := u32Sub cl.lenBytes (skbSize taken.1) } })
  else none

/-- The tokens in the bucket at `now`. -/
def refilled (params : Params) (now : Int) (q : PrioWfqSchedData) : Int :=
  min (now - q.timeNs) (params.value .bucketNs) + q.tokens

/-- `prio_queues_dequeue`. -/
def prioQueuesDequeue (params : Params) (now : Int) (q : PrioWfqSchedData) :
    PrioWfqSchedData × Dequeued :=
  match prioQueuesPeek q with
  | none => (q, .null)
  | some peeked =>
      let len := skbSize peeked
      let toks := refilled params now q - l2tNs q.rate len
      if 0 ≤ toks then
        match prioQueuesDequeuePeeked q with
        | none => (q, .null)
        | some (i, skb, q) =>
            let q' :=
              { q with
                timeNs := now
                sumLenBytes := u32Sub q.sumLenBytes len
                sumPrioLenBytes := u32Sub q.sumPrioLenBytes len
                qlen := u32Sub q.qlen 1
                tokens := min toks (params.value .bucketNs) }
            (q', .packet (prioId i) (dequeueMarking params now skb q'))
      else (q, .throttled (now - toks))

/-! ### Dequeue from the WFQ queues -/

/-- One iteration of the scan of `wfq_queues_dequeue`. `none` is the index `-1`; `min_time` is
always the finish time of the queue found so far. -/
def scanStep (q : PrioWfqSchedData) (minIndex : Option (Fin 7)) (i : Fin 7) : Option (Fin 7) :=
  if (q.wfqQueues i).lenBytes = 0 then minIndex
  else
    match minIndex with
    | none => some i
    | some best =>
        if timestampBefore (q.wfqQueues i).headFinishTime (q.wfqQueues best).headFinishTime then
          some i
        else some best

/-- The scan for the queue with the smallest head finish time. -/
def scan (q : PrioWfqSchedData) : Option (Fin 7) := (List.finRange 7).foldl (scanStep q) none

/-- The finish time of the next head of queue `i`, which the virtual time does not fall
behind. -/
def stampNext (params : Params) (i : Fin 7) (q : PrioWfqSchedData) : PrioWfqSchedData :=
  let cl := q.wfqQueues i
  if 0 < cl.lenBytes ∧ 0 < params.value (.queueWeight i) then
    match peek cl.qdisc with
    | none => q
    | some nextPkt =>
        let headFinishTime := u64 (cl.headFinishTime + skbSize nextPkt / params.queueWeight i)
        { q with
          wfqQueues := Function.update q.wfqQueues i { cl with headFinishTime }
          virtualTime := maxTimestamp q.virtualTime headFinishTime }
  else q

/-- The body of `wfq_queues_dequeue` for a packet the bucket has `toks` for. -/
def transmit (params : Params) (now : Int) (i : Fin 7) (skb : Skb) (rest : List Skb)
    (toks : Int) (q : PrioWfqSchedData) : PrioWfqSchedData × Skb :=
  let len := skbSize skb
  let cl := q.wfqQueues i
  let taken :=
    { q with
      sumLenBytes := u32Sub q.sumLenBytes len
      qlen := u32Sub q.qlen 1
      wfqQueues :=
        Function.update q.wfqQueues i
          { cl with qdisc := rest, lenBytes := u32Sub cl.lenBytes len } }
  let q' :=
    { stampNext params i taken with
      timeNs := now
      tokens := min (toks - l2tNs q.rate len) (params.value .bucketNs) }
  (q', dequeueMarking params now skb q')

/-- `wfq_queues_dequeue`. -/
def wfqQueuesDequeue (params : Params) (now : Int) (q : PrioWfqSchedData) :
    PrioWfqSchedData × Dequeued :=
  if q.sumLenBytes = q.sumPrioLenBytes then (q, .null)
  else
    match scan q with
    | none => (q, .null)
    | some i =>
        match peek (q.wfqQueues i).qdisc with
        | none => (q, .null)
        | some peeked =>
            let len := skbSize peeked
            let toks := refilled params now q
            let pktNs : Int := l2tNs q.rate len
            if pktNs < toks then
              match dequeuePeeked (q.wfqQueues i).qdisc with
              | none => (q, .null)
              | some (skb, rest) =>
                  let sent := transmit params now i skb rest toks q
                  (sent.1, .packet (wfqId i) sent.2)
            else (q, .throttled (now + pktNs - toks))

/-- `prio_wfq_qdisc_dequeue`. -/
def qdiscDequeue (params : Params) (now : Int) (q : PrioWfqSchedData) :
    PrioWfqSchedData × Dequeued :=
  if 0 < q.sumPrioLenBytes then prioQueuesDequeue params now q
  else if 0 < q.sumLenBytes then wfqQueuesDequeue params now q
  else (q, .null)

/-! ### Enqueue -/

/-- The test of the two buffer modes for the queue `id` of `lenBytes` bytes. -/
def bufferOverfill (params : Params) (len : Nat) (id : Fin 8) (lenBytes : Nat)
    (q : PrioWfqSchedData) : Bool :=
  decide (params.value .bufferMode = 0 ∧
      u32OfInt (params.value .sharedBufferBytes) < u32 (q.sumLenBytes + len) ∨
    params.value .bufferMode = 1 ∧
      u32OfInt (params.value (.queueBufferBytes id)) < u32 (lenBytes + len))

/-- An enqueue to priority queue `i` once its FIFO has taken `skb`. The FIFO holds the buffer
itself, so it holds it as the marking leaves it. -/
def prioAdmit (params : Params) (now : Int) (i : Fin 1) (skb : Skb) (q : PrioWfqSchedData) :
    PrioWfqSchedData :=
  let len := skbSize skb
  let cl := q.prioQueues i
  let lenBytes := u32 (cl.lenBytes + len)
  let q' :=
    { q with
      qlen := u32 (q.qlen + 1)
      sumLenBytes := u32 (q.sumLenBytes + len)
      sumPrioLenBytes := u32 (q.sumPrioLenBytes + len) }
  let marked := enqueueMarking params now skb q' (prioId i) lenBytes
  { q' with
    prioQueues := Function.update q.prioQueues i { qdisc := cl.qdisc ++ [marked], lenBytes } }

/-- The finish time of a packet of `len` bytes that finds queue `i` empty. -/
def stampFirst (params : Params) (len : Nat) (i : Fin 7) (q : PrioWfqSchedData) :
    PrioWfqSchedData :=
  let cl := q.wfqQueues i
  if cl.lenBytes = 0 ∧ 0 < params.value (.queueWeight i) then
    let headFinishTime := u64 (q.virtualTime + len / params.queueWeight i)
    { q with
      wfqQueues := Function.update q.wfqQueues i { cl with headFinishTime }
      virtualTime := headFinishTime }
  else q

/-- An enqueue to WFQ queue `i` once its FIFO has taken `skb`. -/
def wfqAdmit (params : Params) (now : Int) (i : Fin 7) (skb : Skb) (q : PrioWfqSchedData) :
    PrioWfqSchedData :=
  let len := skbSize skb
  let stamped := stampFirst params len i q
  let cl := stamped.wfqQueues i
  let lenBytes := u32 (cl.lenBytes + len)
  let q' :=
    { stamped with
      qlen := u32 (q.qlen + 1)
      sumLenBytes := u32 (q.sumLenBytes + len) }
  let marked := enqueueMarking params now skb q' (wfqId i) lenBytes
  { q' with
    wfqQueues :=
      Function.update stamped.wfqQueues i
        { cl with qdisc := cl.qdisc ++ [marked], lenBytes } }

/-- `prio_wfq_qdisc_enqueue`. -/
def qdiscEnqueue (bfifo : Bfifo) (params : Params) (now : Int) (skb : Skb) (q : PrioWfqSchedData) :
    PrioWfqSchedData × NetXmit :=
  let id := qdiscClassify params skb
  match queueOf id with
  | .inl i =>
      if bufferOverfill params (skbSize skb) id (q.prioQueues i).lenBytes q then (q, .drop)
      else
        match bfifo (q.prioQueues i).qdisc skb with
        | .success => (prioAdmit params now i skb q, .success)
        | .drop => (q, .drop)
        | .cn => (q, .cn)
  | .inr i =>
      if bufferOverfill params (skbSize skb) id (q.wfqQueues i).lenBytes q then (q, .drop)
      else
        match bfifo (q.wfqQueues i).qdisc skb with
        | .success => (wfqAdmit params now i skb q, .success)
        | .drop => (q, .drop)
        | .cn => (q, .cn)

/-! ### Initialization and change -/

/-- `prio_wfq_qdisc_change`. -/
def qdiscChange (rate : Nat) (q : PrioWfqSchedData) : PrioWfqSchedData :=
  { q with rate := changeRate rate }

/-- `prio_wfq_qdisc_init`. -/
def qdiscInit (now : Int) (rate : Nat) : PrioWfqSchedData :=
  qdiscChange rate
    { wfqQueues := fun _ => { qdisc := [], headFinishTime := 0, lenBytes := 0 }
      prioQueues := fun _ => { qdisc := [], lenBytes := 0 }
      rate := ⟨0, 0, 0⟩
      tokens := 0
      sumLenBytes := 0
      sumPrioLenBytes := 0
      virtualTime := 0
      timeNs := now
      qlen := 0 }

/-! ### The qdisc as a transition system -/

/-- The module parameters, the qdisc and the time of its last operation. -/
abbrev Sys := Qdisc Params PrioWfqSchedData

/-- A qdisc just created, with the parameters as they stand then. -/
def Initial (s : Sys) : Prop := ∃ rate, s.q = qdiscInit s.clock rate

/-- One operation on the qdisc or its parameters. The clock does not go back. -/
inductive Step (bfifo : Bfifo) : Sys → Event Param → Sys → Prop
  | enqueue {s : Sys} {now : Int} {skb : Skb} {q' : PrioWfqSchedData} {ret : NetXmit}
      (later : s.clock ≤ now) (returns : qdiscEnqueue bfifo s.params now skb s.q = (q', ret)) :
      Step bfifo s (.enqueue now skb ret) ⟨s.params, q', now⟩
  | dequeue {s : Sys} {now : Int} {q' : PrioWfqSchedData} {outcome : Dequeued}
      (later : s.clock ≤ now) (returns : qdiscDequeue s.params now s.q = (q', outcome)) :
      Step bfifo s (.dequeue now outcome) ⟨s.params, q', now⟩
  | sysctl {s : Sys} (param : Param) (value : Int) :
      Step bfifo s (.sysctl param value) ⟨s.params.write param value, s.q, s.clock⟩
  | change {s : Sys} (rate : Nat) :
      Step bfifo s (.change rate) ⟨s.params, qdiscChange rate s.q, s.clock⟩

/-- The states some sequence of operations reaches from a fresh qdisc. -/
abbrev Reachable (bfifo : Bfifo) : Sys → Prop :=
  MqEcn.Library.Transition.Reachable Initial (Step bfifo)

end MqEcn.Kernel.PrioWfq
