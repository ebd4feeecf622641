import Mathlib.Data.List.FinRange
import MqEcn.Kernel.Codel
import MqEcn.Kernel.Dwrr.Params
import MqEcn.Library.Transition

/-!
Contract: the embedding of `sch_dwrr/main.c`.

Owns: the class and scheduler structures, every function on the enqueue and the
dequeue path, initialization, and the step relation of the whole qdisc under
enqueues, dequeues, sysctl writes and rate changes.

The intrusive list `active[p]` is the list of the indices linked into it, head
first. The `while (1)` of `dwrr_dequeue` runs on fuel: `none` means that the loop
has not returned yet. A division by zero, which would trap, is left to the
division of `Nat`. Statistics and debug prints are left out.

Does not own: any property.
-/

set_option autoImplicit false

namespace MqEcn.Kernel.Dwrr

open MqEcn.Kernel
open MqEcn.Library.Transition
open MqEcn.Library.Word

/-! ### State -/

/-- `struct dwrr_class`. Its `id` is its index in `queues`; `qdisc` is the content
of the inner FIFO, oldest packet first. -/
structure DwrrClass where
  prio : Fin 8
  lenBytes : Nat
  qdisc : List Skb
  deficit : Nat
  startTime : Int
  lastPktTime : Int
  quantum : Nat
  codel : Codel

/-- `struct dwrr_sched_data`, with `sch->q.qlen`. -/
structure DwrrSchedData where
  queues : Fin 8 → DwrrClass
  rate : RateCfg
  active : Fin 8 → List (Fin 8)
  tokens : Int
  timeNs : Int
  sumLenBytes : Nat
  prioLenBytes : Fin 8 → Nat
  roundTime : Fin 8 → Int
  lastIdleTime : Fin 8 → Int
  qlen : Nat

/-! ### Round time -/

/-- `s64_ewma`, with the wrap-around of its 64-bit products and sum. -/
def s64Ewma (smooth sample weight : Int) (shift : Nat) : Int :=
  s64 (s64 (smooth * weight) + s64 (sample * ((1 <<< shift) - weight))) >>> shift

/-- `ewma_round`. -/
def ewmaRound (params : Params) (smooth sample : Int) : Int :=
  s64Ewma smooth sample (params.value .roundAlpha) 10

/-- `dwrr_max_iteration`. -/
def maxIteration : Int := 10

/-- `reset_round`. -/
def resetRound (params : Params) (now : Int) (prio : Fin 8) (q : DwrrSchedData) : DwrrSchedData :=
  let iter :=
    if q.prioLenBytes prio = 0 ∧ 0 < params.value .idleIntervalNs then
      (now - q.lastIdleTime prio).tdiv (params.value .idleIntervalNs)
    else 0
  let roundTime :=
    if maxIteration < iter ∨ iter < 0 then 0
    else (fun smooth => ewmaRound params smooth 0)^[iter.toNat] (q.roundTime prio)
  { q with roundTime := Function.update q.roundTime prio roundTime }

/-! ### ECN marking -/

/-- The threshold `mq_ecn_marking` compares the queue length with. -/
def mqEcnThresh (params : Params) (q : DwrrSchedData) (cl : DwrrClass) : Nat :=
  let roundTime := q.roundTime cl.prio
  let estimateRateBps :=
    if 0 < roundTime then u64 (cl.quantum <<< 33) / u32OfInt roundTime else q.rate.rateBps
  let estimateRateBps := min estimateRateBps q.rate.rateBps
  u64 (estimateRateBps * u64OfInt (params.value .portThresh)) / q.rate.rateBps

/-- `mq_ecn_marking`. -/
def mqEcnMarking (params : Params) (skb : Skb) (q : DwrrSchedData) (cl : DwrrClass) : Skb :=
  if mqEcnThresh params q cl < cl.lenBytes then inetEcnSetCe skb else skb

/-- `dwrr_qlen_marking` for the class of queue `i`. -/
def dwrrQlenMarking (params : Params) (skb : Skb) (q : DwrrSchedData) (i : Fin 8)
    (cl : DwrrClass) : Skb :=
  match params.value .ecnScheme with
  | 1 => if u32OfInt (params.value (.queueThresh i)) < cl.lenBytes then inetEcnSetCe skb else skb
  | 2 => if u32OfInt (params.value .portThresh) < q.sumLenBytes then inetEcnSetCe skb else skb
  | 3 => mqEcnMarking params skb q cl
  | _ => skb

/-! ### Classification and selection -/

/-- `dwrr_classify`. The array `q->queues` is never NULL, so neither is the result. -/
def dwrrClassify (params : Params) (skb : Skb) : Fin 8 :=
  match skb.tos with
  | none => 0
  | some tos =>
      ((List.finRange 8).find? fun i =>
        decide (((tos >>> 2 : Nat) : Int) = params.value (.queueDscp i))).getD 0

/-- `tbf_schedule`. -/
def tbfSchedule (params : Params) (len : Nat) (q : DwrrSchedData) (now : Int) : Int :=
  Kernel.tbfSchedule q.rate (params.value .bucket) q.timeNs q.tokens len now

/-- `prio_schedule`; `none` is the result `-1`. -/
def prioSchedule (q : DwrrSchedData) : Option (Fin 8) :=
  (List.finRange 8).find? fun i => !(q.active i).isEmpty

/-! ### Dequeue -/

/-- The marking at the end of `dwrr_dequeue`: the packet and the CoDel fields. -/
def dequeueMarking (params : Params) (now : Int) (skb : Skb) (q : DwrrSchedData) (i : Fin 8)
    (cl : DwrrClass) : Skb × Codel :=
  if params.value .ecnScheme = 4 then
    (tcnMarking (params.value .tcnThresh) skb now, cl.codel)
  else if params.value .ecnScheme = 5 then
    codelMarking (params.value .codelTarget) (params.value .codelInterval) cl.lenBytes skb now
      cl.codel
  else if params.value .enableDequeueEcn = 1 then
    (dwrrQlenMarking params skb q i cl, cl.codel)
  else
    (skb, cl.codel)

/-- The body of `dwrr_dequeue` once the head `skb` of queue `i` may leave; `rest` is
what the FIFO keeps and `result` the outcome of `tbf_schedule`. -/
def dwrrTransmit (params : Params) (now : Int) (prio i : Fin 8) (skb : Skb) (rest : List Skb)
    (result : Int) (q : DwrrSchedData) : DwrrSchedData × Skb :=
  let len := skbSize skb
  let cl := q.queues i
  let prioLenBytes := u32Sub (q.prioLenBytes prio) len
  let lastPktTime := now + l2tNs q.rate len
  let cl' : DwrrClass :=
    { cl with
      qdisc := rest
      lenBytes := u32Sub cl.lenBytes len
      deficit := u32Sub cl.deficit len
      lastPktTime }
  let q' : DwrrSchedData :=
    { q with
      queues := Function.update q.queues i cl'
      prioLenBytes := Function.update q.prioLenBytes prio prioLenBytes
      lastIdleTime :=
        if prioLenBytes = 0 then Function.update q.lastIdleTime prio now else q.lastIdleTime
      sumLenBytes := u32Sub q.sumLenBytes len
      qlen := u32Sub q.qlen 1
      active :=
        if rest = [] then Function.update q.active prio ((q.active prio).erase i) else q.active
      roundTime :=
        if rest = [] then
          Function.update q.roundTime prio
            (ewmaRound params (q.roundTime prio) (lastPktTime - cl.startTime))
        else q.roundTime
      timeNs := now
      tokens := min result (bucketNs q.rate (params.value .bucket)) }
  let marked := dequeueMarking params now skb q' i cl'
  ({ q' with queues := Function.update q.queues i { cl' with codel := marked.2 } }, marked.1)

/-- The body of `dwrr_dequeue` when the head of queue `i` exceeds its deficit. -/
def dwrrRotate (params : Params) (prio i : Fin 8) (q : DwrrSchedData) : DwrrSchedData :=
  let cl := q.queues i
  let quantum := params.queueQuantum i
  { q with
    roundTime :=
      Function.update q.roundTime prio
        (ewmaRound params (q.roundTime prio) (cl.lastPktTime - cl.startTime))
    active := Function.update q.active prio ((q.active prio).erase i ++ [i])
    queues :=
      Function.update q.queues i
        { cl with
          startTime := cl.lastPktTime
          quantum
          deficit :=
            if params.value .enableWrr = 1 then quantum else u32 (cl.deficit + quantum) } }

/-- The `while (1)` of `dwrr_dequeue` over `active[prio]`. `list_first_entry` of an
empty list is a pointer into the list head, not NULL. -/
def dwrrDequeueLoop (params : Params) (now : Int) (prio : Fin 8) :
    Nat → DwrrSchedData → Option (DwrrSchedData × Dequeued)
  | 0, _ => none
  | fuel + 1, q =>
      match q.active prio with
      | [] => some (q, .fault)
      | i :: _ =>
          match (q.queues i).qdisc with
          | [] => some (q, .null)
          | skb :: rest =>
              if skbSize skb ≤ (q.queues i).deficit then
                let result := tbfSchedule params (skbSize skb) q now
                if result < 0 then
                  some (q, .throttled (now - result))
                else
                  let sent := dwrrTransmit params now prio i skb rest result q
                  some (sent.1, .packet i sent.2)
              else
                dwrrDequeueLoop params now prio fuel (dwrrRotate params prio i q)

/-- `dwrr_dequeue`. -/
def dwrrDequeue (params : Params) (now : Int) (fuel : Nat) (q : DwrrSchedData) :
    Option (DwrrSchedData × Dequeued) :=
  match prioSchedule q with
  | none => some (q, .null)
  | some prio => dwrrDequeueLoop params now prio fuel q

/-! ### Enqueue -/

/-- `dwrr_buffer_overfill`. -/
def dwrrBufferOverfill (params : Params) (len : Nat) (i : Fin 8) (q : DwrrSchedData) : Bool :=
  if params.value .bufferMode = 0 ∧
      u32OfInt (params.value .sharedBuffer) < u32 (q.sumLenBytes + len) then true
  else if params.value .bufferMode = 1 ∧
      u32OfInt (params.value (.queueBuffer i)) < u32 ((q.queues i).lenBytes + len) then true
  else false

/-- The marking at the end of `dwrr_enqueue`. -/
def enqueueMarking (params : Params) (now : Int) (skb : Skb) (q : DwrrSchedData) (i : Fin 8)
    (cl : DwrrClass) : Skb :=
  if params.value .ecnScheme = 4 ∨ params.value .ecnScheme = 5 then
    { skb with tstamp := now }
  else if params.value .enableDequeueEcn = 0 then
    dwrrQlenMarking params skb q i cl
  else
    skb

/-- The body of `dwrr_enqueue` once the inner FIFO of queue `i` has taken `skb`. The
FIFO holds the buffer itself, so it holds it as the marking leaves it. -/
def dwrrAdmit (params : Params) (now : Int) (i prio : Fin 8) (skb : Skb) (q : DwrrSchedData) :
    DwrrSchedData :=
  let len := skbSize skb
  let cl := q.queues i
  let quantum := params.queueQuantum i
  let cl' : DwrrClass :=
    if cl.qdisc = [] then { cl with startTime := now, quantum, prio, deficit := quantum } else cl
  let cl'' : DwrrClass := { cl' with lenBytes := u32 (cl'.lenBytes + len) }
  let q' : DwrrSchedData :=
    { q with
      active :=
        if cl.qdisc = [] then Function.update q.active prio (q.active prio ++ [i]) else q.active
      qlen := u32 (q.qlen + 1)
      sumLenBytes := u32 (q.sumLenBytes + len)
      prioLenBytes :=
        Function.update q.prioLenBytes cl'.prio (u32 (q.prioLenBytes cl'.prio + len))
      queues := Function.update q.queues i cl'' }
  let marked := enqueueMarking params now skb q' i cl''
  { q' with queues := Function.update q.queues i { cl'' with qdisc := cl.qdisc ++ [marked] } }

/-- `dwrr_enqueue`. -/
def dwrrEnqueue (bfifo : Bfifo) (params : Params) (now : Int) (skb : Skb) (q : DwrrSchedData) :
    DwrrSchedData × NetXmit :=
  let i := dwrrClassify params skb
  let prio := params.queuePrio i
  let q := if q.prioLenBytes prio = 0 then resetRound params now prio q else q
  if dwrrBufferOverfill params (skbSize skb) i q then (q, .drop)
  else
    match bfifo (q.queues i).qdisc skb with
    | .success => (dwrrAdmit params now i prio skb q, .success)
    | .drop => (q, .drop)
    | .cn => (q, .cn)

/-! ### Initialization and change -/

/-- `dwrr_change`. -/
def dwrrChange (rate : Nat) (q : DwrrSchedData) : DwrrSchedData :=
  { q with rate := changeRate rate }

/-- `dwrr_init`. -/
def dwrrInit (now : Int) (rate : Nat) : DwrrSchedData :=
  dwrrChange rate
    { queues := fun _ =>
        { prio := 0, lenBytes := 0, qdisc := [], deficit := 0, startTime := now,
          lastPktTime := now, quantum := 0, codel := Codel.initial }
      rate := ⟨0, 0, 0⟩
      active := fun _ => []
      tokens := 0
      timeNs := now
      sumLenBytes := 0
      prioLenBytes := fun _ => 0
      roundTime := fun _ => 0
      lastIdleTime := fun _ => now
      qlen := 0 }

/-! ### The qdisc as a transition system -/

/-- The module parameters, the qdisc and the time of its last operation. -/
abbrev Sys := Qdisc Params DwrrSchedData

/-- A qdisc just created, with the parameters as they stand then. -/
def Initial (s : Sys) : Prop :=
  ∃ rate, s.q = dwrrInit s.clock rate

/-- One operation on the qdisc or its parameters. The clock does not go back. -/
inductive Step (bfifo : Bfifo) : Sys → Event Param → Sys → Prop
  | enqueue {s : Sys} {now : Int} {skb : Skb} {q' : DwrrSchedData} {ret : NetXmit}
      (later : s.clock ≤ now)
      (returns : dwrrEnqueue bfifo s.params now skb s.q = (q', ret)) :
      Step bfifo s (.enqueue now skb ret) ⟨s.params, q', now⟩
  | dequeue {s : Sys} {now : Int} {fuel : Nat} {q' : DwrrSchedData} {outcome : Dequeued}
      (later : s.clock ≤ now)
      (returns : dwrrDequeue s.params now fuel s.q = some (q', outcome)) :
      Step bfifo s (.dequeue now outcome) ⟨s.params, q', now⟩
  | sysctl {s : Sys} (param : Param) (value : Int) :
      Step bfifo s (.sysctl param value) ⟨s.params.write param value, s.q, s.clock⟩
  | change {s : Sys} (rate : Nat) :
      Step bfifo s (.change rate) ⟨s.params, dwrrChange rate s.q, s.clock⟩

/-- The states some sequence of operations reaches from a fresh qdisc. -/
abbrev Reachable (bfifo : Bfifo) : Sys → Prop :=
  MqEcn.Library.Transition.Reachable Initial (Step bfifo)

end MqEcn.Kernel.Dwrr
