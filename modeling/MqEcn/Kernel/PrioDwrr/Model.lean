import Mathlib.Data.List.FinRange
import MqEcn.Kernel.PrioDwrr.Params
import MqEcn.Library.Transition

/-!
Contract: the embedding of `sch_prio_dwrr/main.c`.

Owns: the class and scheduler structures, every function on the enqueue and the dequeue
path, initialization, and the step relation of the whole qdisc under enqueues, dequeues,
sysctl writes and rate changes.

The intrusive list `activeList` is the list of the DWRR queues linked into it, head first.
The `while (1)` of `dwrr_queues_dequeue` runs on fuel: `none` means that the loop has not
returned yet. A division by zero, which would trap, is left to the division of `Nat` and
`Int`. `skb_make_writable` succeeds. Statistics and debug prints are left out.

Does not own: any property.
-/

set_option autoImplicit false

namespace MqEcn.Kernel.PrioDwrr

open MqEcn.Kernel
open MqEcn.Library.Transition
open MqEcn.Library.Word

/-! ### State -/

/-- `struct prio_class`. Its `id` is given by its index; `qdisc` is the content of the inner
FIFO, oldest packet first. -/
structure PrioClass where
  qdisc : List Skb
  lenBytes : Nat

/-- `struct dwrr_class`. Its `id` is given by its index. -/
structure DwrrClass where
  qdisc : List Skb
  deficitCounter : Nat
  active : Bool
  curr : Bool
  lenBytes : Nat
  startTimeNs : Int
  lastPktTimeNs : Int
  lastPktLenNs : Int
  quantum : Nat

/-- `struct prio_dwrr_sched_data`, with `sch->q.qlen`. -/
structure PrioDwrrSchedData where
  dwrrQueues : Fin 7 → DwrrClass
  prioQueues : Fin 1 → PrioClass
  rate : RateCfg
  activeList : List (Fin 7)
  tokens : Int
  sumLenBytes : Nat
  sumPrioLenBytes : Nat
  timeNs : Int
  roundTimeNs : Int
  lastIdleTimeNs : Int
  quantumSum : Nat
  quantumSumEstimate : Nat
  qlen : Nat

/-- `id` of a priority queue. -/
def prioId (i : Fin 1) : Fin 8 := ⟨i, by omega⟩

/-- `id` of a DWRR queue. -/
def dwrrId (i : Fin 7) : Fin 8 := ⟨i + 1, by omega⟩

/-- The queue with an `id`: `prio_queues[id]`, or `dwrr_queues[id - 1]`. -/
def queueOf (id : Fin 8) : Fin 1 ⊕ Fin 7 :=
  if isPrio : (id : Nat) < maxPrioQueues then .inl ⟨id, isPrio⟩
  else .inr ⟨id - maxPrioQueues, by unfold maxPrioQueues; omega⟩

/-- `ops->peek` of an inner FIFO. -/
def peek (qdisc : List Skb) : Option Skb := qdisc.head?

/-- `qdisc_dequeue_peeked` on an inner FIFO: the packet and what stays. -/
def dequeuePeeked : List Skb → Option (Skb × List Skb)
  | [] => none
  | skb :: rest => some (skb, rest)

/-! ### ECN marking -/

/-- `prio_dwrr_qdisc_ecn`, where the header can be made writable. -/
def qdiscEcn (skb : Skb) : Skb := if skb.tos.isSome then inetEcnSetCe skb else skb

/-- The latency marking of a packet that leaves. -/
def dequeueMarking (params : Params) (now : Int) (skb : Skb) (q : PrioDwrrSchedData) : Skb :=
  if params.value .ecnScheme = 5 ∧ 0 < skb.tstamp ∧
      (l2tNs q.rate (u32OfInt (params.value .portThreshBytes)) : Int) < now - skb.tstamp then
    qdiscEcn skb
  else skb

/-- The threshold of the branch `PRIO_DWRR_QDISC_MQ_ECN_GENER`. -/
def mqEcnGenerThresh (params : Params) (q : PrioDwrrSchedData) (cl : DwrrClass) : Nat :=
  let portThreshBytes := params.value .portThreshBytes
  if 0 < q.quantumSumEstimate then
    min (u32 (cl.quantum * u32OfInt portThreshBytes) / q.quantumSumEstimate)
      (u64OfInt portThreshBytes)
  else u64OfInt portThreshBytes

/-- The threshold of the branch `PRIO_DWRR_QDISC_MQ_ECN_RR`. -/
def mqEcnRrThresh (params : Params) (q : PrioDwrrSchedData) (cl : DwrrClass) : Nat :=
  let portThreshBytes := params.value .portThreshBytes
  if 0 < q.roundTimeNs then
    let share := u64OfInt ((s64 (cl.quantum * 8000000000)).tdiv q.roundTimeNs)
    u64 (min share q.rate.rateBps * u64OfInt portThreshBytes) / q.rate.rateBps
  else u64OfInt portThreshBytes

/-- The marking at the end of an enqueue to a priority queue. -/
def prioEnqueueMarking (params : Params) (now : Int) (skb : Skb) (q : PrioDwrrSchedData)
    (id : Fin 8) (cl : PrioClass) : Skb :=
  match params.value .ecnScheme with
  | 1 | 3 | 4 =>
      if u32OfInt (params.value (.queueThreshBytes id)) < cl.lenBytes then qdiscEcn skb else skb
  | 2 => if u32OfInt (params.value .portThreshBytes) < q.sumLenBytes then qdiscEcn skb else skb
  | 5 => { skb with tstamp := now }
  | _ => skb

/-- The marking at the end of an enqueue to a DWRR queue. -/
def dwrrEnqueueMarking (params : Params) (now : Int) (skb : Skb) (q : PrioDwrrSchedData)
    (id : Fin 8) (cl : DwrrClass) : Skb :=
  match params.value .ecnScheme with
  | 1 => if u32OfInt (params.value (.queueThreshBytes id)) < cl.lenBytes then qdiscEcn skb else skb
  | 2 => if u32OfInt (params.value .portThreshBytes) < q.sumLenBytes then qdiscEcn skb else skb
  | 3 => if mqEcnGenerThresh params q cl < cl.lenBytes then qdiscEcn skb else skb
  | 4 => if mqEcnRrThresh params q cl < cl.lenBytes then qdiscEcn skb else skb
  | 5 => { skb with tstamp := now }
  | _ => skb

/-! ### Classification -/

/-- `prio_dwrr_qdisc_classify`. The arrays are never NULL, so the result is never `-1`. -/
def qdiscClassify (params : Params) (skb : Skb) : Fin 8 :=
  match skb.tos with
  | none => 0
  | some tos =>
      ((List.finRange 8).find? fun i =>
        decide (((tos >>> 2 : Nat) : Int) = params.value (.queueDscp i))).getD 0

/-! ### Dequeue from the priority queues -/

/-- `prio_queues_peek`. -/
def prioQueuesPeek (q : PrioDwrrSchedData) : Option Skb :=
  if 0 < q.sumPrioLenBytes then
    (List.finRange 1).findSome? fun i => peek (q.prioQueues i).qdisc
  else none

/-- `prio_queues_dequeue_peeked`; the packet comes with the queue it was taken from. -/
def prioQueuesDequeuePeeked (q : PrioDwrrSchedData) :
    Option (Fin 1 × Skb × PrioDwrrSchedData) :=
  if 0 < q.sumPrioLenBytes then
    (List.finRange 1).findSome? fun i =>
      let cl := q.prioQueues i
      (dequeuePeeked cl.qdisc).map fun taken =>
        (i, taken.1,
          { q with
            prioQueues :=
              Function.update q.prioQueues i
                { qdisc := taken.2, lenBytes := u32Sub cl.lenBytes (skbSize taken.1) } })
  else none

/-- The tokens in the bucket at `now`. -/
def refilled (params : Params) (now : Int) (q : PrioDwrrSchedData) : Int :=
  min (now - q.timeNs) (params.value .bucketNs) + q.tokens

/-- `prio_queues_dequeue`. -/
def prioQueuesDequeue (params : Params) (now : Int) (q : PrioDwrrSchedData) :
    PrioDwrrSchedData × Dequeued :=
  match prioQueuesPeek q with
  | none => (q, .null)
  | some peeked =>
      let len := skbSize peeked
      let toks := refilled params now q - l2tNs q.rate len
      if 0 ≤ toks then
        match prioQueuesDequeuePeeked q with
        | none => (q, .null)
        | some (i, skb, q) =>
            let q' :=
              { q with
                timeNs := now
                sumLenBytes := u32Sub q.sumLenBytes len
                sumPrioLenBytes := u32Sub q.sumPrioLenBytes len
                qlen := u32Sub q.qlen 1
                tokens := min toks (params.value .bucketNs) }
            (q', .packet (prioId i) (dequeueMarking params now skb q'))
      else (q, .throttled (now - toks))

/-! ### Dequeue from the DWRR queues -/

/-- The smoothing of `round_time_ns`, with the wrap-around of its 64-bit products and sum. -/
def smoothRoundTime (params : Params) (roundTimeNs sampleNs : Int) : Int :=
  (s64 (s64 (params.value .roundAlpha * roundTimeNs) +
    s64 ((1000 - params.value .roundAlpha) * sampleNs))).tdiv 1000

/-- The smoothing of `quantum_sum_estimate`, over `u32`. -/
def smoothQuantumSum (params : Params) (quantumSumEstimate quantumSum : Nat) : Nat :=
  u32 (u32 (u32OfInt (params.value .quantumAlpha) * quantumSumEstimate) +
    u32 (u32OfInt (1000 - params.value .quantumAlpha) * quantumSum)) / 1000

/-- `sample_ns`. -/
def sampleNs (cl : DwrrClass) : Int := max (cl.lastPktTimeNs - cl.startTimeNs) cl.lastPktLenNs

/-- The start of a visit of queue `i`. -/
def refresh (i : Fin 7) (q : PrioDwrrSchedData) : PrioDwrrSchedData :=
  let cl := q.dwrrQueues i
  if cl.curr then q
  else
    { q with
      dwrrQueues :=
        Function.update q.dwrrQueues i
          { cl with deficitCounter := u32 (cl.deficitCounter + cl.quantum), curr := true } }

/-- The removal of queue `i` from `activeList` when its last packet has left. -/
def retire (params : Params) (now : Int) (i : Fin 7) (q : PrioDwrrSchedData) :
    PrioDwrrSchedData :=
  let cl := q.dwrrQueues i
  { q with
    dwrrQueues := Function.update q.dwrrQueues i { cl with active := false, curr := false }
    activeList := q.activeList.erase i
    quantumSum := u32Sub q.quantumSum cl.quantum
    roundTimeNs := smoothRoundTime params q.roundTimeNs (sampleNs cl)
    lastIdleTimeNs := if q.sumLenBytes = q.sumPrioLenBytes then now else q.lastIdleTimeNs }

/-- The removal of the packet `skb` from queue `i`, which leaves `rest`. -/
def take (now : Int) (i : Fin 7) (skb : Skb) (rest : List Skb) (q : PrioDwrrSchedData) :
    PrioDwrrSchedData :=
  let len := skbSize skb
  let cl := q.dwrrQueues i
  { q with
    sumLenBytes := u32Sub q.sumLenBytes len
    qlen := u32Sub q.qlen 1
    dwrrQueues :=
      Function.update q.dwrrQueues i
        { cl with
          qdisc := rest
          lenBytes := u32Sub cl.lenBytes len
          deficitCounter := u32Sub cl.deficitCounter len
          lastPktLenNs := l2tNs q.rate len
          lastPktTimeNs := now } }

/-- The body of `dwrr_queues_dequeue` for a packet the bucket has `toks` for. -/
def transmit (params : Params) (now : Int) (i : Fin 7) (skb : Skb) (rest : List Skb)
    (toks : Int) (q : PrioDwrrSchedData) : PrioDwrrSchedData × Skb :=
  let taken := take now i skb rest q
  let q' := if rest = [] then retire params now i taken else taken
  let q'' :=
    { q' with
      quantumSumEstimate := smoothQuantumSum params q'.quantumSumEstimate q'.quantumSum
      timeNs := now
      tokens := min (toks - l2tNs q.rate (skbSize skb)) (params.value .bucketNs) }
  (q'', dequeueMarking params now skb q'')

/-- The body of `dwrr_queues_dequeue` when the head of queue `i` exceeds its deficit. -/
def rotate (params : Params) (now : Int) (i : Fin 7) (q : PrioDwrrSchedData) :
    PrioDwrrSchedData :=
  let cl := q.dwrrQueues i
  let quantum := params.queueQuantum i
  { q with
    roundTimeNs := smoothRoundTime params q.roundTimeNs (sampleNs cl)
    quantumSum := u32 (u32Sub q.quantumSum cl.quantum + quantum)
    dwrrQueues :=
      Function.update q.dwrrQueues i { cl with curr := false, startTimeNs := now, quantum }
    activeList := q.activeList.erase i ++ [i] }

/-- The `while (1)` of `dwrr_queues_dequeue`. `list_first_entry` of an empty list is a
pointer into the list head, not NULL. -/
def dwrrQueuesLoop (params : Params) (now : Int) :
    Nat → PrioDwrrSchedData → Option (PrioDwrrSchedData × Dequeued)
  | 0, _ => none
  | fuel + 1, q =>
      match q.activeList with
      | [] => some (q, .fault)
      | i :: _ =>
          let visited := refresh i q
          match peek (visited.dwrrQueues i).qdisc with
          | none => some (visited, .null)
          | some peeked =>
              let len := skbSize peeked
              if len ≤ (visited.dwrrQueues i).deficitCounter then
                let toks := refilled params now visited
                let pktNs : Int := l2tNs visited.rate len
                if pktNs < toks then
                  match dequeuePeeked (visited.dwrrQueues i).qdisc with
                  | none => some (visited, .null)
                  | some (skb, rest) =>
                      let sent := transmit params now i skb rest toks visited
                      some (sent.1, .packet (dwrrId i) sent.2)
                else some (visited, .throttled (now + pktNs - toks))
              else dwrrQueuesLoop params now fuel (rotate params now i visited)

/-- `dwrr_queues_dequeue`. -/
def dwrrQueuesDequeue (params : Params) (now : Int) (fuel : Nat) (q : PrioDwrrSchedData) :
    Option (PrioDwrrSchedData × Dequeued) :=
  if q.activeList = [] then some (q, .null) else dwrrQueuesLoop params now fuel q

/-- `prio_dwrr_qdisc_dequeue`. -/
def qdiscDequeue (params : Params) (now : Int) (fuel : Nat) (q : PrioDwrrSchedData) :
    Option (PrioDwrrSchedData × Dequeued) :=
  if 0 < q.sumPrioLenBytes then some (prioQueuesDequeue params now q)
  else if q.activeList ≠ [] then dwrrQueuesDequeue params now fuel q
  else some (q, .null)

/-! ### Enqueue -/

/-- `PRIO_DWRR_QDISC_MAX_ITERATION`. -/
def maxIteration : Int := 10

/-- One interval of decay of `round_time_ns`. -/
def decayRoundTime (params : Params) (roundTimeNs : Int) : Int :=
  (s64 (roundTimeNs * params.value .roundAlpha)).tdiv 1000

/-- One interval of decay of `quantum_sum_estimate`. -/
def decayQuantumSum (params : Params) (quantumSumEstimate : Nat) : Nat :=
  u32 (quantumSumEstimate * u32OfInt (params.value .quantumAlpha)) / 1000

/-- The idle reset at the start of `prio_dwrr_qdisc_enqueue`. -/
def idleReset (params : Params) (now : Int) (q : PrioDwrrSchedData) : PrioDwrrSchedData :=
  if q.sumLenBytes = 0 ∧ (params.value .ecnScheme = 4 ∨ params.value .ecnScheme = 3) then
    let intervalNum := (now - q.lastIdleTimeNs).tdiv (params.value .idleIntervalNs)
    if 0 < params.value .idleIntervalNs ∧ intervalNum ≤ maxIteration then
      { q with
        roundTimeNs := (decayRoundTime params)^[intervalNum.toNat] q.roundTimeNs
        quantumSumEstimate :=
          (decayQuantumSum params)^[intervalNum.toNat] q.quantumSumEstimate }
    else { q with roundTimeNs := 0, quantumSumEstimate := 0 }
  else q

/-- The test of the two buffer modes for the queue `id` of `lenBytes` bytes. -/
def bufferOverfill (params : Params) (len : Nat) (id : Fin 8) (lenBytes : Nat)
    (q : PrioDwrrSchedData) : Bool :=
  decide (params.value .bufferMode = 0 ∧
      u32OfInt (params.value .sharedBufferBytes) < u32 (q.sumLenBytes + len) ∨
    params.value .bufferMode = 1 ∧
      u32OfInt (params.value (.queueBufferBytes id)) < u32 (lenBytes + len))

/-- An enqueue to priority queue `i` once its FIFO has taken `skb`. The FIFO holds the buffer
itself, so it holds it as the marking leaves it. -/
def prioAdmit (params : Params) (now : Int) (i : Fin 1) (skb : Skb) (q : PrioDwrrSchedData) :
    PrioDwrrSchedData :=
  let len := skbSize skb
  let cl := q.prioQueues i
  let cl' : PrioClass := { cl with lenBytes := u32 (cl.lenBytes + len) }
  let q' :=
    { q with
      qlen := u32 (q.qlen + 1)
      sumLenBytes := u32 (q.sumLenBytes + len)
      sumPrioLenBytes := u32 (q.sumPrioLenBytes + len)
      prioQueues := Function.update q.prioQueues i cl' }
  let marked := prioEnqueueMarking params now skb q' (prioId i) cl'
  { q' with
    prioQueues := Function.update q.prioQueues i { cl' with qdisc := cl.qdisc ++ [marked] } }

/-- An enqueue to DWRR queue `i` once its FIFO has taken `skb`. -/
def dwrrAdmit (params : Params) (now : Int) (i : Fin 7) (skb : Skb) (q : PrioDwrrSchedData) :
    PrioDwrrSchedData :=
  let len := skbSize skb
  let cl := q.dwrrQueues i
  let quantum := params.queueQuantum i
  let cl' : DwrrClass := { cl with lenBytes := u32 (cl.lenBytes + len) }
  let cl'' : DwrrClass :=
    if cl.active then cl'
    else
      { cl' with deficitCounter := 0, active := true, curr := false, startTimeNs := now, quantum }
  let q' :=
    { q with
      qlen := u32 (q.qlen + 1)
      sumLenBytes := u32 (q.sumLenBytes + len)
      dwrrQueues := Function.update q.dwrrQueues i cl''
      activeList := if cl.active then q.activeList else q.activeList ++ [i]
      quantumSum := if cl.active then q.quantumSum else u32 (q.quantumSum + quantum) }
  let marked := dwrrEnqueueMarking params now skb q' (dwrrId i) cl''
  { q' with
    dwrrQueues := Function.update q.dwrrQueues i { cl'' with qdisc := cl.qdisc ++ [marked] } }

/-- `prio_dwrr_qdisc_enqueue`. -/
def qdiscEnqueue (bfifo : Bfifo) (params : Params) (now : Int) (skb : Skb) (q : PrioDwrrSchedData) :
    PrioDwrrSchedData × NetXmit :=
  let q := idleReset params now q
  let id := qdiscClassify params skb
  match queueOf id with
  | .inl i =>
      if bufferOverfill params (skbSize skb) id (q.prioQueues i).lenBytes q then (q, .drop)
      else
        match bfifo (q.prioQueues i).qdisc skb with
        | .success => (prioAdmit params now i skb q, .success)
        | .drop => (q, .drop)
        | .cn => (q, .cn)
  | .inr i =>
      if bufferOverfill params (skbSize skb) id (q.dwrrQueues i).lenBytes q then (q, .drop)
      else
        match bfifo (q.dwrrQueues i).qdisc skb with
        | .success => (dwrrAdmit params now i skb q, .success)
        | .drop => (q, .drop)
        | .cn => (q, .cn)

/-! ### Initialization and change -/

/-- `prio_dwrr_qdisc_change`. -/
def qdiscChange (rate : Nat) (q : PrioDwrrSchedData) : PrioDwrrSchedData :=
  { q with rate := changeRate rate }

/-- `prio_dwrr_qdisc_init`. -/
def qdiscInit (now : Int) (rate : Nat) : PrioDwrrSchedData :=
  qdiscChange rate
    { dwrrQueues := fun _ =>
        { qdisc := [], deficitCounter := 0, active := false, curr := false, lenBytes := 0,
          startTimeNs := now, lastPktTimeNs := now, lastPktLenNs := 0, quantum := 0 }
      prioQueues := fun _ => { qdisc := [], lenBytes := 0 }
      rate := ⟨0, 0, 0⟩
      activeList := []
      tokens := 0
      sumLenBytes := 0
      sumPrioLenBytes := 0
      timeNs := now
      roundTimeNs := 0
      lastIdleTimeNs := now
      quantumSum := 0
      quantumSumEstimate := 0
      qlen := 0 }

/-! ### The qdisc as a transition system -/

/-- The module parameters, the qdisc and the time of its last operation. -/
abbrev Sys := Qdisc Params PrioDwrrSchedData

/-- A qdisc just created, with the parameters as they stand then. -/
def Initial (s : Sys) : Prop := ∃ rate, s.q = qdiscInit s.clock rate

/-- One operation on the qdisc or its parameters. The clock does not go back. -/
inductive Step (bfifo : Bfifo) : Sys → Event Param → Sys → Prop
  | enqueue {s : Sys} {now : Int} {skb : Skb} {q' : PrioDwrrSchedData} {ret : NetXmit}
      (later : s.clock ≤ now) (returns : qdiscEnqueue bfifo s.params now skb s.q = (q', ret)) :
      Step bfifo s (.enqueue now skb ret) ⟨s.params, q', now⟩
  | dequeue {s : Sys} {now : Int} {fuel : Nat} {q' : PrioDwrrSchedData} {outcome : Dequeued}
      (later : s.clock ≤ now)
      (returns : qdiscDequeue s.params now fuel s.q = some (q', outcome)) :
      Step bfifo s (.dequeue now outcome) ⟨s.params, q', now⟩
  | sysctl {s : Sys} (param : Param) (value : Int) :
      Step bfifo s (.sysctl param value) ⟨s.params.write param value, s.q, s.clock⟩
  | change {s : Sys} (rate : Nat) :
      Step bfifo s (.change rate) ⟨s.params, qdiscChange rate s.q, s.clock⟩

/-- The states some sequence of operations reaches from a fresh qdisc. -/
abbrev Reachable (bfifo : Bfifo) : Sys → Prop :=
  MqEcn.Library.Transition.Reachable Initial (Step bfifo)

end MqEcn.Kernel.PrioDwrr
