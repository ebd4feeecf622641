import MqEcn.Ns2.PrioDwrr.Model
import MqEcn.Ns2.Wfq.Model

/-!
Contract: the embedding of `prio_wfq/prio_wfq.h` and `prio_wfq/prio_wfq.cc`.

Owns: the priority queues in front of a WFQ discipline, `enque`, `deque`, the commands and the
timer of the whole, and its step relation.

The variables and the code `PRIO_WFQ` shares with `WFQ` word for word are those of the WFQ
discipline, and `PacketPRIO` is that of `PRIO_DWRR`. `exit(1)` and the use of a NULL head are
`none`. Traces and debug prints are left out.

Does not own: any property.
-/

set_option autoImplicit false

namespace MqEcn.Ns2.PrioWfq

open MqEcn.Ns2.PrioDwrr (PacketPrio maxPrioQueueNum)
open MqEcn.Ns2.Wfq hiding Command

/-! ### State -/

/-- The bound variables of PRIO_WFQ, with numbers of queues that fit the arrays. `queueNum` is
`wfq_queue_num_`. -/
structure Config extends Wfq.Config where
  prioQueueNum : Nat
  prioQueueNum_range : 1 ≤ prioQueueNum ∧ prioQueueNum ≤ maxPrioQueueNum

/-- `queue_num_`. -/
def Config.portQueueNum (config : Config) : Nat := config.queueNum + config.prioQueueNum

theorem Config.prio_lt (config : Config) {index : Nat} (inside : index < config.prioQueueNum) :
    index < 8 := by
  have range := config.prioQueueNum_range.2
  unfold maxPrioQueueNum at range
  omega

theorem Config.wfq_lt (config : Config) {index : Nat} (inside : index < config.queueNum) :
    index < 64 := by
  have range := config.queueNum_range.2
  unfold maxQueueNum at range
  omega

/-- `PRIO_WFQ`. `wfq` holds `wfq_queues` and all it has in common with `WFQ`. -/
structure PrioWfqQueue where
  prioQueues : Fin 8 → PacketPrio
  wfq : WfqQueue

/-- `PRIO_WFQ::PRIO_WFQ`, `PacketPRIO::PacketPRIO` and `PacketWFQ::PacketWFQ`. -/
def construct : PrioWfqQueue where
  prioQueues := fun _ => { thresh := 0, drain := DrainRate.initial, packets := [] }
  wfq := Wfq.construct

/-- The values `PRIO_WFQ::PRIO_WFQ` gives the bound variables, with a limit of 50 packets. -/
def defaultConfig : Config where
  toConfig := { Wfq.defaultConfig with queueNum := 7, queueNum_range := by decide }
  prioQueueNum := 1
  prioQueueNum_range := PrioDwrr.defaultConfig.prioQueueNum_range

/-- `PRIO_WFQ::Total_WFQ_ByteLength`. -/
def totalWfqByteLength (q : PrioWfqQueue) : Nat :=
  ((List.finRange 64).map fun i => byteLength (q.wfq.queues i).packets).sum

/-- `PRIO_WFQ::Total_Prio_ByteLength`. -/
def totalPrioByteLength (q : PrioWfqQueue) : Nat :=
  ((List.finRange 8).map fun i => byteLength (q.prioQueues i).packets).sum

/-- `PRIO_WFQ::TotalByteLength`. -/
def totalByteLength (q : PrioWfqQueue) : Nat := totalWfqByteLength q + totalPrioByteLength q

/-! ### Weight estimation -/

/-- The decay of the estimate by a packet that finds the WFQ queues idle. -/
def decayEstimate (pow : ℚ → ℚ → ℚ) (config : Config) (now : ℚ) (q : PrioWfqQueue) :
    PrioWfqQueue :=
  if totalWfqByteLength q = 0 ∧ config.markingScheme = mqMarkingGener ∧
      ¬config.estimateWeightEnableTimer then
    let idleTime := now - q.wfq.lastIdleTime
    { q with
      wfq :=
        { q.wfq with
          weightSumEstimate :=
            if 0 < config.estimateWeightIntervalBytes ∧ 0 < config.linkCapacity then
              q.wfq.weightSumEstimate * pow config.estimateWeightAlpha
                (idleTime / (config.estimateWeightIntervalBytes * 8 / config.linkCapacity))
            else 0
          lastUpdateTime := now } }
  else q

/-- The start of the timer and the decay in `PRIO_WFQ::enque`. -/
def settle (pow : ℚ → ℚ → ℚ) (config : Config) (now : ℚ) (q : PrioWfqQueue) : PrioWfqQueue :=
  decayEstimate pow config now { q with wfq := startTimer config.toConfig q.wfq }

/-- The sampling of `weight_sum` at the end of `PRIO_WFQ::deque`. -/
def sampleEstimate (config : Config) (now : ℚ) (q : PrioWfqQueue) : PrioWfqQueue :=
  if config.markingScheme = mqMarkingGener ∧ ¬config.estimateWeightEnableTimer then
    let sampled : WfqQueue :=
      if 0 < config.estimateWeightIntervalBytes ∧ 0 < config.linkCapacity ∧
          995 / 1000 * config.estimateWeightIntervalBytes * 8 / config.linkCapacity ≤
            now - q.wfq.lastUpdateTime then
        { q.wfq with
          weightSumEstimate := smoothWeightSum config.toConfig q.wfq
          lastUpdateTime := now }
      else q.wfq
    { q with
      wfq := if totalWfqByteLength q = 0 then { sampled with lastIdleTime := now } else sampled }
  else q

/-! ### ECN marking -/

/-- The queue of an index: `prio_queues` first, then `wfq_queues`; `none` is `exit(1)`. -/
def queueOf (config : Config) (index : Nat) : Option (Fin 8 ⊕ Fin 64) :=
  if isPrio : index < config.prioQueueNum then some (.inl ⟨index, config.prio_lt isPrio⟩)
  else if isWfq : index - config.prioQueueNum < config.queueNum then
    some (.inr ⟨index - config.prioQueueNum, config.wfq_lt isWfq⟩)
  else none

/-- `PRIO_WFQ::MarkingECN`. -/
def markingEcn (config : Config) (q : PrioWfqQueue) (index : Nat) : Option Bool :=
  let exceeds := fun (bytes : Nat) (thresh : ℚ) => decide (thresh * config.meanPktsize < bytes)
  let drains := fun (drain : DrainRate) =>
    if 1 / 1000000000 ≤ drain.avgDqRate ∧ 0 < config.linkCapacity then
      min (drain.avgDqRate / config.linkCapacity) 1 * config.portThresh
    else config.portThresh
  (queueOf config index).map fun queue =>
    match queue with
    | .inl i =>
        let cl := q.prioQueues i
        if config.markingScheme = perPortMarking then
          exceeds (totalByteLength q) config.portThresh
        else if config.markingScheme = perQueueMarking ∨
            config.markingScheme = mqMarkingGener then
          exceeds (byteLength cl.packets) cl.thresh
        else if config.markingScheme = pieMarking then
          exceeds (byteLength cl.packets) (drains cl.drain)
        else false
    | .inr i =>
        let cl := q.wfq.queues i
        if config.markingScheme = perQueueMarking then
          exceeds (byteLength cl.packets) cl.thresh
        else if config.markingScheme = perPortMarking then
          exceeds (totalByteLength q) config.portThresh
        else if config.markingScheme = mqMarkingGener then
          let thresh :=
            if 1 / 1000000000 ≤ q.wfq.weightSumEstimate then
              min (cl.weight / q.wfq.weightSumEstimate) 1 * config.portThresh
            else config.portThresh
          exceeds (byteLength cl.packets) thresh
        else if config.markingScheme = pieMarking then
          exceeds (byteLength cl.packets) (drains cl.drain)
        else false

/-- The marking at the end of `PRIO_WFQ::enque`, where `q` holds the packet already. -/
def enqueMarking (config : Config) (now : ℚ) (index : Nat) (p : Packet) (q : PrioWfqQueue) :
    Option Packet :=
  if config.markingScheme ≠ latencyMarking then
    (markingEcn config q index).map fun (marks : Bool) =>
      if marks ∧ p.ect then { p with ce := true } else p
  else some (if p.ect then { p with timestamp := now } else p)

/-! ### Enque -/

/-- The index of a packet: the last one for a priority out of range. -/
def queueIndex (config : Config) (p : Packet) : Nat :=
  if 0 ≤ p.prio ∧ p.prio < config.portQueueNum then p.prio.toNat else config.portQueueNum - 1

/-- `PacketQueue::enque` on a priority queue. -/
def pushPrio (i : Fin 8) (p : Packet) (q : PrioWfqQueue) : PrioWfqQueue :=
  { q with
    prioQueues :=
      Function.update q.prioQueues i
        { q.prioQueues i with packets := (q.prioQueues i).packets ++ [p] } }

/-- `PacketQueue::enque` on a WFQ queue. -/
def pushWfq (i : Fin 64) (p : Packet) (q : PrioWfqQueue) : PrioWfqQueue :=
  { q with wfq := push i p q.wfq }

/-- The body of `PRIO_WFQ::enque` for a packet that is not dropped. The queue holds the packet
itself, so it holds it as the marking leaves it. -/
def admission (config : Config) (now : ℚ) (p : Packet) (q : PrioWfqQueue) :
    Option PrioWfqQueue :=
  let index := queueIndex config p
  match queueOf config index with
  | none => none
  | some (.inl i) =>
      (enqueMarking config now index p (pushPrio i p q)).map fun marked => pushPrio i marked q
  | some (.inr i) =>
      (if (q.wfq.queues i).packets = [] then activate i p.size q.wfq else some q.wfq).bind
        fun stamped =>
          let q' := { q with wfq := stamped }
          (enqueMarking config now index p (pushWfq i p q')).map fun marked => pushWfq i marked q'

/-- `PRIO_WFQ::enque`, with whether the packet was taken. -/
def enque (pow : ℚ → ℚ → ℚ) (config : Config) (now : ℚ) (p : Packet) (q : PrioWfqQueue) :
    Option (PrioWfqQueue × Bool) :=
  let q := settle pow config now q
  if config.qlim * config.meanPktsize < totalByteLength q + p.size then some (q, false)
  else (admission config now p q).map fun q' => (q', true)

/-! ### Deque -/

/-- The removal of the head packet of a priority queue, which leaves `rest`. -/
def servePrio (config : Config) (now : ℚ) (i : Fin 8) (pkt : Packet) (rest : List Packet)
    (q : PrioWfqQueue) : PrioWfqQueue :=
  let cl := q.prioQueues i
  { q with
    prioQueues :=
      Function.update q.prioQueues i
        { cl with
          packets := rest
          drain :=
            cl.drain.measure config.dqThresh config.estimateRateAlpha config.linkCapacity now
              (byteLength rest) pkt.size } }

/-- The first of the priority queues in use that holds a packet. -/
def firstPrio (config : Config) (q : PrioWfqQueue) : Option (Fin 8 × Packet × List Packet) :=
  ((List.finRange 8).filter fun i : Fin 8 => decide ((i : Nat) < config.prioQueueNum)).findSome?
    fun i =>
    match (q.prioQueues i).packets with
    | [] => none
    | pkt :: rest => some (i, pkt, rest)

/-- The branch of `PRIO_WFQ::deque` for the priority queues. -/
def dequePrio (config : Config) (now : ℚ) (q : PrioWfqQueue) :
    PrioWfqQueue × Option ((Fin 8 ⊕ Fin 64) × Packet) :=
  match firstPrio config q with
  | none => (q, none)
  | some (i, pkt, rest) =>
      (servePrio config now i pkt rest q, some (.inl i, dequeMarking config.toConfig now pkt))

/-- The branch of `PRIO_WFQ::deque` for the WFQ queues. -/
def dequeWfq (config : Config) (now : ℚ) (q : WfqQueue) :
    Option (WfqQueue × Option ((Fin 8 ⊕ Fin 64) × Packet)) :=
  match scan config.toConfig q with
  | none => none
  | some queue =>
      match (q.queues queue).packets with
      | [] => none
      | pkt :: rest =>
          (advance queue (pop config.toConfig now queue pkt rest q)).map fun q' =>
            (q', some (.inr queue, dequeMarking config.toConfig now pkt))

/-- `PRIO_WFQ::deque`; a packet comes with the queue it was the head of. -/
def deque (config : Config) (now : ℚ) (q : PrioWfqQueue) :
    Option (PrioWfqQueue × Option ((Fin 8 ⊕ Fin 64) × Packet)) :=
  if 0 < totalPrioByteLength q then some (dequePrio config now q)
  else if 0 < totalWfqByteLength q then
    (dequeWfq config now q.wfq).map fun answer =>
      (sampleEstimate config now { q with wfq := answer.1 }, answer.2)
  else some (sampleEstimate config now q, none)

/-! ### Commands -/

/-- `set-weight`. -/
def setWeight (config : Config) (queueId weight : Int) (q : PrioWfqQueue) :
    Option PrioWfqQueue :=
  let index := queueId - config.prioQueueNum
  if inside : 0 ≤ index ∧ index.toNat < config.queueNum then
    if 0 < weight then
      let i : Fin 64 := ⟨index.toNat, config.wfq_lt inside.2⟩
      some
        { q with
          wfq :=
            { q.wfq with
              queues := Function.update q.wfq.queues i
                { q.wfq.queues i with weight := (weight : ℚ) } } }
    else none
  else none

/-- `set-thresh`. -/
def setThresh (config : Config) (queueId : Int) (thresh : ℚ) (q : PrioWfqQueue) :
    Option PrioWfqQueue :=
  if 0 ≤ queueId ∧ 0 ≤ thresh then
    (queueOf config queueId.toNat).map fun queue =>
      match queue with
      | .inl i =>
          { q with prioQueues := Function.update q.prioQueues i { q.prioQueues i with thresh } }
      | .inr i =>
          { q with
            wfq :=
              { q.wfq with
                queues := Function.update q.wfq.queues i { q.wfq.queues i with thresh } } }
  else none

/-- The commands that set per-queue variables. -/
inductive Command where
  | setWeight (queueId weight : Int)
  | setThresh (queueId : Int) (thresh : ℚ)

/-- `PRIO_WFQ::command`. -/
def command (config : Config) (q : PrioWfqQueue) : Command → Option PrioWfqQueue
  | .setWeight queueId weight => setWeight config queueId weight q
  | .setThresh queueId thresh => setThresh config queueId thresh q

/-! ### The discipline as a transition system -/

/-- One event of the discipline, with what it returned. -/
abbrev Event := Ns2.Event Command (Fin 8 ⊕ Fin 64)

/-- The bound variables, the discipline and the time of its last operation. -/
abbrev Sys := Discipline Config PrioWfqQueue

/-- A discipline just constructed. -/
def Initial (s : Sys) : Prop := s.q = construct

/-- One operation. The clock does not go back. -/
inductive Step (pow : ℚ → ℚ → ℚ) : Sys → Event → Sys → Prop
  | enque {s : Sys} {now : ℚ} {p : Packet} {q' : PrioWfqQueue} {taken : Bool}
      (later : s.clock ≤ now) (returns : enque pow s.config now p s.q = some (q', taken)) :
      Step pow s (.enque now p taken) ⟨s.config, q', now⟩
  | deque {s : Sys} {now : ℚ} {q' : PrioWfqQueue} {pkt : Option ((Fin 8 ⊕ Fin 64) × Packet)}
      (later : s.clock ≤ now) (returns : deque s.config now s.q = some (q', pkt)) :
      Step pow s (.deque now pkt) ⟨s.config, q', now⟩
  | command {s : Sys} {request : Command} {q' : PrioWfqQueue}
      (returns : command s.config s.q request = some q') :
      Step pow s (.command request) ⟨s.config, q', s.clock⟩
  | timeout {s : Sys} {now : ℚ} (later : s.clock ≤ now) (pending : s.q.wfq.timer = true) :
      Step pow s (.timeout now)
        ⟨s.config, { s.q with wfq := timeout s.config.toConfig s.q.wfq }, now⟩

/-- The states some sequence of operations reaches from a fresh discipline. -/
abbrev Reachable (pow : ℚ → ℚ → ℚ) : Sys → Prop :=
  MqEcn.Library.Transition.Reachable Initial (Step pow)

end MqEcn.Ns2.PrioWfq
