import Mathlib.Data.List.FinRange
import MqEcn.Kernel.Codel
import MqEcn.Kernel.Wfq.Params
import MqEcn.Library.Transition

/-!
Contract: the embedding of `sch_wfq/main.c`.

Owns: the class and scheduler structures, every function on the enqueue and the
dequeue path, initialization, and the step relation of the whole qdisc under
enqueues, dequeues, sysctl writes and rate changes.

The private area of a qdisc is zeroed, so the priorities `wfq_init` does not write
are 0. Statistics and debug prints are left out.

Does not own: any property.
-/

set_option autoImplicit false

namespace MqEcn.Kernel.Wfq

open MqEcn.Kernel
open MqEcn.Library.Word

/-! ### State -/

/-- `struct wfq_class`. Its `id` is its index in `queues`; `qdisc` is the content
of the inner FIFO, oldest packet first. -/
structure WfqClass where
  prio : Fin 8
  lenBytes : Nat
  qdisc : List Skb
  headFinTime : Nat
  codel : Codel

/-- `struct wfq_sched_data`, with `sch->q.qlen`. -/
@[ext]
structure WfqSchedData where
  queues : Fin 8 → WfqClass
  rate : RateCfg
  tokens : Int
  timeNs : Int
  sumLenBytes : Nat
  prioLenBytes : Fin 8 → Nat
  virtualTime : Fin 8 → Nat
  qlen : Nat

/-- `wfq_time_before`. -/
def wfqTimeBefore (time1 time2 : Nat) : Bool :=
  let thresh := 1 <<< 63
  if time1 < time2 ∧ time2 - time1 ≤ thresh then true
  else if time2 < time1 ∧ thresh < time1 - time2 then true
  else false

/-! ### ECN marking -/

/-- `wfq_qlen_marking` for the class of queue `i`. -/
def wfqQlenMarking (params : Params) (skb : Skb) (q : WfqSchedData) (i : Fin 8)
    (cl : WfqClass) : Skb :=
  match params.value .ecnScheme with
  | 1 => if u32OfInt (params.value (.queueThresh i)) < cl.lenBytes then inetEcnSetCe skb else skb
  | 2 => if u32OfInt (params.value .portThresh) < q.sumLenBytes then inetEcnSetCe skb else skb
  | _ => skb

/-! ### Classification and selection -/

/-- `wfq_classify`. The array `q->queues` is never NULL, so neither is the result. -/
def wfqClassify (params : Params) (skb : Skb) : Fin 8 :=
  match skb.tos with
  | none => 0
  | some tos =>
      ((List.finRange 8).find? fun i =>
        decide (((tos >>> 2 : Nat) : Int) = params.value (.queueDscp i))).getD 0

/-- `tbf_schedule`. -/
def tbfSchedule (params : Params) (len : Nat) (q : WfqSchedData) (now : Int) : Int :=
  Kernel.tbfSchedule q.rate (params.value .bucket) q.timeNs q.tokens len now

/-- `prio_schedule`; `none` is the result `-1`. -/
def prioSchedule (q : WfqSchedData) : Option (Fin 8) :=
  (List.finRange 8).find? fun i => decide (0 < q.prioLenBytes i)

/-- One iteration of the scan of `wfq_dequeue`. `none` is a NULL `cl`; `min_time` is
always the finish time of `cl`. -/
def scanStep (q : WfqSchedData) (prio : Fin 8) (cl : Option (Fin 8)) (i : Fin 8) :
    Option (Fin 8) :=
  if (q.queues i).prio ≠ prio ∨ (q.queues i).lenBytes = 0 then cl
  else
    match cl with
    | none => some i
    | some best =>
        if wfqTimeBefore (q.queues i).headFinTime (q.queues best).headFinTime then some i
        else some best

/-- The scan for the queue with the smallest head finish time. -/
def scan (q : WfqSchedData) (prio : Fin 8) : Option (Fin 8) :=
  (List.finRange 8).foldl (scanStep q prio) none

/-! ### Dequeue -/

/-- The marking at the end of `wfq_dequeue`: the packet and the CoDel fields. -/
def dequeueMarking (params : Params) (now : Int) (skb : Skb) (q : WfqSchedData) (i : Fin 8)
    (cl : WfqClass) : Skb × Codel :=
  if params.value .ecnScheme = 4 then
    (tcnMarking (params.value .tcnThresh) skb now, cl.codel)
  else if params.value .ecnScheme = 5 then
    codelMarking (params.value .codelTarget) (params.value .codelInterval) cl.lenBytes skb now
      cl.codel
  else if params.value .enableDequeueEcn = 1 then
    (wfqQlenMarking params skb q i cl, cl.codel)
  else
    (skb, cl.codel)

/-- The finish time of the head that follows a departure: `none` where the source
leaves the old one. -/
def nextFinTime (params : Params) (i : Fin 8) (lenBytes headFinTime : Nat) (rest : List Skb) :
    Option Nat :=
  if 0 < lenBytes then
    match rest with
    | [] => none
    | next :: _ =>
        if params.value (.queueWeight i) ≠ 0 then
          some (u64 (headFinTime + skbSize next / params.queueWeight i))
        else none
  else none

/-- The body of `wfq_dequeue` once the head `skb` of queue `i` may leave; `rest` is
what the FIFO keeps and `result` the outcome of `tbf_schedule`. -/
def wfqTransmit (params : Params) (now : Int) (prio i : Fin 8) (skb : Skb) (rest : List Skb)
    (result : Int) (q : WfqSchedData) : WfqSchedData × Skb :=
  let len := skbSize skb
  let cl := q.queues i
  let lenBytes := u32Sub cl.lenBytes len
  let fin := nextFinTime params i lenBytes cl.headFinTime rest
  let cl' : WfqClass :=
    { cl with qdisc := rest, lenBytes, headFinTime := fin.getD cl.headFinTime }
  let q' : WfqSchedData :=
    { q with
      queues := Function.update q.queues i cl'
      sumLenBytes := u32Sub q.sumLenBytes len
      qlen := u32Sub q.qlen 1
      prioLenBytes := Function.update q.prioLenBytes prio (u32Sub (q.prioLenBytes prio) len)
      virtualTime :=
        match fin with
        | some time =>
            if wfqTimeBefore (q.virtualTime prio) time then
              Function.update q.virtualTime prio time
            else q.virtualTime
        | none => q.virtualTime
      timeNs := now
      tokens := min result (bucketNs q.rate (params.value .bucket)) }
  let marked := dequeueMarking params now skb q' i cl'
  ({ q' with queues := Function.update q.queues i { cl' with codel := marked.2 } }, marked.1)

/-- `wfq_dequeue`. -/
def wfqDequeue (params : Params) (now : Int) (q : WfqSchedData) : WfqSchedData × Dequeued :=
  match prioSchedule q with
  | none => (q, .null)
  | some prio =>
      match scan q prio with
      | none => (q, .fault)
      | some i =>
          match (q.queues i).qdisc with
          | [] => (q, .null)
          | skb :: rest =>
              let result := tbfSchedule params (skbSize skb) q now
              if result < 0 then
                (q, .throttled (now - result))
              else
                let sent := wfqTransmit params now prio i skb rest result q
                (sent.1, .packet i sent.2)

/-! ### Enqueue -/

/-- `wfq_buffer_overfill`. -/
def wfqBufferOverfill (params : Params) (len : Nat) (i : Fin 8) (q : WfqSchedData) : Bool :=
  if params.value .bufferMode = 0 ∧
      u32OfInt (params.value .sharedBuffer) < u32 (q.sumLenBytes + len) then true
  else if params.value .bufferMode = 1 ∧
      u32OfInt (params.value (.queueBuffer i)) < u32 ((q.queues i).lenBytes + len) then true
  else false

/-- The marking at the end of `wfq_enqueue`. -/
def enqueueMarking (params : Params) (now : Int) (skb : Skb) (q : WfqSchedData) (i : Fin 8)
    (cl : WfqClass) : Skb :=
  if params.value .ecnScheme = 4 ∨ params.value .ecnScheme = 5 then
    { skb with tstamp := now }
  else if params.value .enableDequeueEcn = 0 then
    wfqQlenMarking params skb q i cl
  else
    skb

/-- The class and the virtual times after the activation of an empty queue. -/
def wfqActivate (params : Params) (i : Fin 8) (len : Nat) (q : WfqSchedData) :
    WfqClass × (Fin 8 → Nat) :=
  let prio := params.queuePrio i
  let cl : WfqClass := { q.queues i with prio }
  if 0 < params.value (.queueWeight i) then
    let time := u64 (len / params.queueWeight i + q.virtualTime prio)
    ({ cl with headFinTime := time }, Function.update q.virtualTime prio time)
  else
    (cl, q.virtualTime)

/-- The body of `wfq_enqueue` once the inner FIFO of queue `i` has taken `skb`. The
FIFO holds the buffer itself, so it holds it as the marking leaves it. -/
def wfqAdmit (params : Params) (now : Int) (i : Fin 8) (skb : Skb) (q : WfqSchedData) :
    WfqSchedData :=
  let len := skbSize skb
  let fifo := (q.queues i).qdisc
  let activated := if fifo = [] then wfqActivate params i len q else (q.queues i, q.virtualTime)
  let cl := activated.1
  let cl' : WfqClass := { cl with lenBytes := u32 (cl.lenBytes + len) }
  let q' : WfqSchedData :=
    { q with
      virtualTime := activated.2
      qlen := u32 (q.qlen + 1)
      sumLenBytes := u32 (q.sumLenBytes + len)
      prioLenBytes := Function.update q.prioLenBytes cl.prio (u32 (q.prioLenBytes cl.prio + len))
      queues := Function.update q.queues i cl' }
  let marked := enqueueMarking params now skb q' i cl'
  { q' with queues := Function.update q.queues i { cl' with qdisc := fifo ++ [marked] } }

/-- `wfq_enqueue`. -/
def wfqEnqueue (bfifo : Bfifo) (params : Params) (now : Int) (skb : Skb) (q : WfqSchedData) :
    WfqSchedData × NetXmit :=
  let i := wfqClassify params skb
  if wfqBufferOverfill params (skbSize skb) i q then (q, .drop)
  else
    match bfifo (q.queues i).qdisc skb with
    | .success => (wfqAdmit params now i skb q, .success)
    | .drop => (q, .drop)
    | .cn => (q, .cn)

/-! ### Initialization and change -/

/-- `wfq_change`. -/
def wfqChange (rate : Nat) (q : WfqSchedData) : WfqSchedData :=
  { q with rate := changeRate rate }

/-- `wfq_init`. -/
def wfqInit (now : Int) (rate : Nat) : WfqSchedData :=
  wfqChange rate
    { queues := fun _ =>
        { prio := 0, lenBytes := 0, qdisc := [], headFinTime := 0, codel := Codel.initial }
      rate := ⟨0, 0, 0⟩
      tokens := 0
      timeNs := now
      sumLenBytes := 0
      prioLenBytes := fun _ => 0
      virtualTime := fun _ => 0
      qlen := 0 }

/-! ### The qdisc as a transition system -/

/-- The module parameters, the qdisc and the time of its last operation. -/
abbrev Sys := Qdisc Params WfqSchedData

/-- A qdisc just created, with the parameters as they stand then. -/
def Initial (s : Sys) : Prop :=
  ∃ rate, s.q = wfqInit s.clock rate

/-- One operation on the qdisc or its parameters. The clock does not go back. -/
inductive Step (bfifo : Bfifo) : Sys → Event Param → Sys → Prop
  | enqueue {s : Sys} {now : Int} {skb : Skb} {q' : WfqSchedData} {ret : NetXmit}
      (later : s.clock ≤ now)
      (returns : wfqEnqueue bfifo s.params now skb s.q = (q', ret)) :
      Step bfifo s (.enqueue now skb ret) ⟨s.params, q', now⟩
  | dequeue {s : Sys} {now : Int} {q' : WfqSchedData} {outcome : Dequeued}
      (later : s.clock ≤ now)
      (returns : wfqDequeue s.params now s.q = (q', outcome)) :
      Step bfifo s (.dequeue now outcome) ⟨s.params, q', now⟩
  | sysctl {s : Sys} (param : Param) (value : Int) :
      Step bfifo s (.sysctl param value) ⟨s.params.write param value, s.q, s.clock⟩
  | change {s : Sys} (rate : Nat) :
      Step bfifo s (.change rate) ⟨s.params, wfqChange rate s.q, s.clock⟩

/-- The states some sequence of operations reaches from a fresh qdisc. -/
abbrev Reachable (bfifo : Bfifo) : Sys → Prop :=
  MqEcn.Library.Transition.Reachable Initial (Step bfifo)

end MqEcn.Kernel.Wfq
