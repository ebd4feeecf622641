import MqEcn.Kernel.Prio.Params
import MqEcn.Kernel.PrioDwrr.Model

/-!
Contract: the embedding of `sch_prio/main.c`.

Owns: the scheduler structure, every function on the enqueue and the dequeue path,
initialization, and the step relation of the whole qdisc under enqueues, dequeues, sysctl
writes and rate changes.

What `sch_prio` has word for word from `sch_prio_dwrr` is used from there: the inner FIFO
and the ECN mark. `skb_make_writable` succeeds, and a clock reading is one value a call.
Statistics and debug prints are left out.

Does not own: any property.
-/

set_option autoImplicit false

namespace MqEcn.Kernel.Prio

open MqEcn.Kernel
open MqEcn.Kernel.PrioDwrr (peek dequeuePeeked qdiscEcn)
open MqEcn.Library.Transition
open MqEcn.Library.Word

/-! ### State -/

/-- `struct prio_sched_data`, with `sch->q.qlen`. A queue is the content of its inner FIFO,
oldest packet first. -/
structure PrioSchedData where
  queues : Fin 8 → List Skb
  rate : RateCfg
  tokens : Int
  sumLenBytes : Nat
  queueLenBytes : Fin 8 → Nat
  timeNs : Int
  qlen : Nat

/-! ### Classification -/

/-- `prio_qdisc_classify`. The arrays are never NULL. -/
def qdiscClassify (params : Params) (skb : Skb) : Fin 8 :=
  match skb.tos with
  | none => 0
  | some tos =>
      ((List.finRange 8).find? fun i =>
        decide (((tos >>> 2 : Nat) : Int) = params.value (.queueDscp i))).getD 0

/-! ### Dequeue -/

/-- `prio_qdisc_peek`. -/
def qdiscPeek (q : PrioSchedData) : Option Skb :=
  (List.finRange 8).findSome? fun i => peek (q.queues i)

/-- `prio_qdisc_dequeue_peeked`; the packet comes with the queue it was taken from. -/
def qdiscDequeuePeeked (q : PrioSchedData) : Option (Fin 8 × Skb × PrioSchedData) :=
  (List.finRange 8).findSome? fun i =>
    (dequeuePeeked (q.queues i)).map fun taken =>
      (i, taken.1,
        { q with
          queues := Function.update q.queues i taken.2
          queueLenBytes :=
            Function.update q.queueLenBytes i (u32Sub (q.queueLenBytes i) (skbSize taken.1)) })

/-- The latency marking of a packet that leaves. -/
def dequeueMarking (params : Params) (now : Int) (skb : Skb) (q : PrioSchedData) : Skb :=
  if params.value .ecnScheme = 3 ∧ 0 < skb.tstamp ∧
      (l2tNs q.rate (u32OfInt (params.value .portThreshBytes)) : Int) < now - skb.tstamp then
    qdiscEcn skb
  else skb

/-- The tokens in the bucket at `now`. -/
def refilled (params : Params) (now : Int) (q : PrioSchedData) : Int :=
  min (now - q.timeNs) (params.value .bucketNs) + q.tokens

/-- `prio_qdisc_dequeue`. -/
def qdiscDequeue (params : Params) (now : Int) (q : PrioSchedData) : PrioSchedData × Dequeued :=
  match qdiscPeek q with
  | none => (q, .null)
  | some peeked =>
      let len := skbSize peeked
      let toks := refilled params now q - l2tNs q.rate len
      if 0 ≤ toks then
        match qdiscDequeuePeeked q with
        | none => (q, .null)
        | some (i, skb, q) =>
            let q' :=
              { q with
                timeNs := now
                sumLenBytes := u32Sub q.sumLenBytes len
                qlen := u32Sub q.qlen 1
                tokens := min toks (params.value .bucketNs) }
            (q', .packet i (dequeueMarking params now skb q'))
      else (q, .throttled (now - toks))

/-! ### Enqueue -/

/-- The test of the two buffer modes for queue `id`. -/
def bufferOverfill (params : Params) (len : Nat) (id : Fin 8) (q : PrioSchedData) : Bool :=
  decide (params.value .bufferMode = 0 ∧
      u32OfInt (params.value .sharedBufferBytes) < u32 (q.sumLenBytes + len) ∨
    params.value .bufferMode = 1 ∧
      u32OfInt (params.value (.queueBufferBytes id)) < u32 (q.queueLenBytes id + len))

/-- The marking of an enqueue to queue `id`. It comes before the inner FIFO is asked. -/
def enqueueMarking (params : Params) (now : Int) (skb : Skb) (id : Fin 8) (q : PrioSchedData) :
    Skb :=
  let len := skbSize skb
  if params.value .ecnScheme = 1 ∧
      u32OfInt (params.value (.queueThreshBytes id)) < u32 (q.queueLenBytes id + len) then
    qdiscEcn skb
  else if params.value .ecnScheme = 2 ∧
      u32OfInt (params.value .portThreshBytes) < u32 (q.sumLenBytes + len) then
    qdiscEcn skb
  else if params.value .ecnScheme = 3 then
    { skb with tstamp := now }
  else skb

/-- The counters and the FIFO once queue `id` has taken `marked`, of `len` bytes. -/
def admitted (id : Fin 8) (len : Nat) (marked : Skb) (q : PrioSchedData) : PrioSchedData :=
  { q with
    queues := Function.update q.queues id (q.queues id ++ [marked])
    qlen := u32 (q.qlen + 1)
    sumLenBytes := u32 (q.sumLenBytes + len)
    queueLenBytes := Function.update q.queueLenBytes id (u32 (q.queueLenBytes id + len)) }

/-- `prio_qdisc_enqueue`. -/
def qdiscEnqueue (bfifo : Bfifo) (params : Params) (now : Int) (skb : Skb) (q : PrioSchedData) :
    PrioSchedData × NetXmit :=
  let len := skbSize skb
  let id := qdiscClassify params skb
  if bufferOverfill params len id q then (q, .drop)
  else
    let marked := enqueueMarking params now skb id q
    match bfifo (q.queues id) marked with
    | .success => (admitted id len marked q, .success)
    | .drop => (q, .drop)
    | .cn => (q, .cn)

/-! ### Initialization and change -/

/-- `prio_qdisc_change`. -/
def qdiscChange (rate : Nat) (q : PrioSchedData) : PrioSchedData :=
  { q with rate := changeRate rate }

/-- `prio_qdisc_init`. -/
def qdiscInit (now : Int) (rate : Nat) : PrioSchedData :=
  qdiscChange rate
    { queues := fun _ => []
      rate := ⟨0, 0, 0⟩
      tokens := 0
      sumLenBytes := 0
      queueLenBytes := fun _ => 0
      timeNs := now
      qlen := 0 }

/-! ### The qdisc as a transition system -/

/-- The module parameters, the qdisc and the time of its last operation. -/
abbrev Sys := Qdisc Params PrioSchedData

/-- A qdisc just created, with the parameters as they stand then. -/
def Initial (s : Sys) : Prop := ∃ rate, s.q = qdiscInit s.clock rate

/-- One operation on the qdisc or its parameters. The clock does not go back. -/
inductive Step (bfifo : Bfifo) : Sys → Event Param → Sys → Prop
  | enqueue {s : Sys} {now : Int} {skb : Skb} {q' : PrioSchedData} {ret : NetXmit}
      (later : s.clock ≤ now) (returns : qdiscEnqueue bfifo s.params now skb s.q = (q', ret)) :
      Step bfifo s (.enqueue now skb ret) ⟨s.params, q', now⟩
  | dequeue {s : Sys} {now : Int} {q' : PrioSchedData} {outcome : Dequeued}
      (later : s.clock ≤ now) (returns : qdiscDequeue s.params now s.q = (q', outcome)) :
      Step bfifo s (.dequeue now outcome) ⟨s.params, q', now⟩
  | sysctl {s : Sys} (param : Param) (value : Int) :
      Step bfifo s (.sysctl param value) ⟨s.params.write param value, s.q, s.clock⟩
  | change {s : Sys} (rate : Nat) :
      Step bfifo s (.change rate) ⟨s.params, qdiscChange rate s.q, s.clock⟩

/-- The states some sequence of operations reaches from a fresh qdisc. -/
abbrev Reachable (bfifo : Bfifo) : Sys → Prop :=
  MqEcn.Library.Transition.Reachable Initial (Step bfifo)

end MqEcn.Kernel.Prio
