import Mathlib.Algebra.Order.Monoid.Unbundled.WithTop
import MqEcn.Library.Transition
import MqEcn.Ns2.PacketQueue
import MqEcn.Ns2.Pow

/-!
Contract: the embedding of `wfq/wfq.h` and `wfq/wfq.cc`.

Owns: the per-queue and the port state, `enque`, `deque`, the commands and the timer of
the WFQ discipline, and its step relation.

`LDBL_MAX` is `⊤`. `exit(1)` is `none`. `pow` of the C library is a parameter. Traces and
debug prints are left out.

Does not own: any property.
-/

set_option autoImplicit false

namespace MqEcn.Ns2.Wfq

/-! ### State -/

/-- `MAX_QUEUE_NUM`. -/
def maxQueueNum : Nat := 64

/-- `PER_QUEUE_MARKING`. -/
def perQueueMarking : Int := 0

/-- `PER_PORT_MARKING`. -/
def perPortMarking : Int := 1

/-- `MQ_MARKING_GENER`. -/
def mqMarkingGener : Int := 2

/-- `LATENCY_MARKING`. -/
def latencyMarking : Int := 4

/-- `PIE_MARKING`. -/
def pieMarking : Int := 5

/-- The bound variables of the discipline, with a number of queues that fits `queues`. -/
structure Config where
  queueNum : Nat
  queueNum_range : 1 ≤ queueNum ∧ queueNum ≤ maxQueueNum
  qlim : Int
  meanPktsize : Int
  portThresh : ℚ
  markingScheme : Int
  estimateWeightAlpha : ℚ
  estimateWeightIntervalBytes : ℚ
  estimateWeightEnableTimer : Bool
  dqThresh : Int
  estimateRateAlpha : ℚ
  linkCapacity : ℚ

theorem Config.toNat_lt (config : Config) {number : Int}
    (inside : number < config.queueNum) : number.toNat < 64 := by
  have range := config.queueNum_range.2
  unfold maxQueueNum at range
  omega

theorem Config.pred_lt (config : Config) : config.queueNum - 1 < 64 := by
  have range := config.queueNum_range.2
  unfold maxQueueNum at range
  omega

/-- `PacketWFQ`; `packets` is the underlying FIFO, oldest packet first. -/
structure PacketWfq where
  weight : ℚ
  headFinishTime : WithTop ℚ
  thresh : ℚ
  drain : DrainRate
  packets : List Packet

/-- `WFQ`. `timer` tells whether `timer_` is pending. -/
structure WfqQueue where
  queues : Fin 64 → PacketWfq
  currTime : WithTop ℚ
  weightSumEstimate : ℚ
  weightSum : ℚ
  lastUpdateTime : ℚ
  lastIdleTime : ℚ
  init : Bool
  timer : Bool

/-- `WFQ::WFQ` and `PacketWFQ::PacketWFQ`. -/
def construct : WfqQueue where
  queues := fun _ =>
    { weight := 10000, headFinishTime := (0 : ℚ), thresh := 0, drain := DrainRate.initial,
      packets := [] }
  currTime := (0 : ℚ)
  weightSumEstimate := 0
  weightSum := 0
  lastUpdateTime := 0
  lastIdleTime := 0
  init := false
  timer := false

/-- The values `WFQ::WFQ` gives the bound variables, with a limit of 50 packets. -/
def defaultConfig : Config where
  queueNum := 8
  queueNum_range := by decide
  qlim := 50
  meanPktsize := 1500
  portThresh := 65
  markingScheme := 0
  estimateWeightAlpha := 3 / 4
  estimateWeightIntervalBytes := 1500
  estimateWeightEnableTimer := false
  dqThresh := 10000
  estimateRateAlpha := 7 / 8
  linkCapacity := 10000000000

/-- The queues a loop up to `queue_num_` visits. -/
def Config.indices (config : Config) : List (Fin 64) :=
  (List.finRange 64).filter fun i => decide ((i : Nat) < config.queueNum)

/-- `WFQ::TotalByteLength`. -/
def totalByteLength (config : Config) (q : WfqQueue) : Nat :=
  (config.indices.map fun i => byteLength (q.queues i).packets).sum

/-! ### Weight estimation -/

/-- The update of `weight_sum_estimate`. -/
def smoothWeightSum (config : Config) (q : WfqQueue) : ℚ :=
  q.weightSumEstimate * config.estimateWeightAlpha +
    q.weightSum * (1 - config.estimateWeightAlpha)

/-- `WFQ::timeout`. -/
def timeout (config : Config) (q : WfqQueue) : WfqQueue :=
  { q with
    weightSumEstimate := smoothWeightSum config q
    timer := decide (0 < config.linkCapacity) }

/-- The start of the timer in `WFQ::enque`. -/
def startTimer (config : Config) (q : WfqQueue) : WfqQueue :=
  if q.init then q
  else
    { q with
      init := true
      timer :=
        if config.markingScheme = mqMarkingGener ∧ config.estimateWeightEnableTimer ∧
            0 < config.estimateWeightIntervalBytes ∧ 0 < config.linkCapacity then true
        else q.timer }

/-- The decay of the estimate by a packet that finds the port idle. -/
def decayEstimate (pow : ℚ → ℚ → ℚ) (config : Config) (now : ℚ) (q : WfqQueue) : WfqQueue :=
  if totalByteLength config q = 0 ∧ config.markingScheme = mqMarkingGener ∧
      ¬config.estimateWeightEnableTimer then
    let idleTime := now - q.lastIdleTime
    { q with
      weightSumEstimate :=
        if 0 < config.estimateWeightIntervalBytes ∧ 0 < config.linkCapacity then
          q.weightSumEstimate * pow config.estimateWeightAlpha
            (idleTime / (config.estimateWeightIntervalBytes * 8 / config.linkCapacity))
        else 0
      lastUpdateTime := now }
  else q

/-- The sampling of `weight_sum` at the end of `WFQ::deque`. -/
def sampleEstimate (config : Config) (now : ℚ) (q : WfqQueue) : WfqQueue :=
  if config.markingScheme = mqMarkingGener ∧ ¬config.estimateWeightEnableTimer then
    let sampled : WfqQueue :=
      if 0 < config.estimateWeightIntervalBytes ∧ 0 < config.linkCapacity ∧
          995 / 1000 * config.estimateWeightIntervalBytes * 8 / config.linkCapacity ≤
            now - q.lastUpdateTime then
        { q with weightSumEstimate := smoothWeightSum config q, lastUpdateTime := now }
      else q
    if totalByteLength config sampled = 0 then { sampled with lastIdleTime := now } else sampled
  else q

/-! ### ECN marking -/

/-- `WFQ::MarkingECN`. -/
def markingEcn (config : Config) (q : WfqQueue) (queue : Fin 64) : Option Bool :=
  let exceeds := fun (bytes : Nat) (thresh : ℚ) => decide (thresh * config.meanPktsize < bytes)
  let cl := q.queues queue
  if config.queueNum ≤ queue then none
  else if config.markingScheme = perQueueMarking then
    some (exceeds (byteLength cl.packets) cl.thresh)
  else if config.markingScheme = perPortMarking then
    some (exceeds (totalByteLength config q) config.portThresh)
  else if config.markingScheme = mqMarkingGener then
    let thresh :=
      if 1 / 1000000000 ≤ q.weightSumEstimate then
        min (cl.weight / q.weightSumEstimate) 1 * config.portThresh
      else config.portThresh
    some (exceeds (byteLength cl.packets) thresh)
  else if config.markingScheme = pieMarking then
    let thresh :=
      if 0 < cl.drain.avgDqRate ∧ 0 < config.linkCapacity then
        min (cl.drain.avgDqRate / config.linkCapacity) 1 * config.portThresh
      else config.portThresh
    some (exceeds (byteLength cl.packets) thresh)
  else some false

/-- The marking at the end of `WFQ::enque`, where `q` holds the packet already. -/
def enqueMarking (config : Config) (now : ℚ) (queue : Fin 64) (p : Packet) (q : WfqQueue) :
    Option Packet :=
  if config.markingScheme ≠ latencyMarking then
    (markingEcn config q queue).map fun (marks : Bool) =>
      if marks ∧ p.ect then { p with ce := true } else p
  else some (if p.ect then { p with timestamp := now } else p)

/-- The latency marking in `WFQ::deque`. -/
def dequeMarking (config : Config) (now : ℚ) (pkt : Packet) : Packet :=
  if config.markingScheme = latencyMarking then
    let sojournTime := now - pkt.timestamp
    let latencyThresh :=
      if 0 < config.linkCapacity then
        config.portThresh * config.meanPktsize * 8 / config.linkCapacity
      else 0
    let marked := if pkt.ect ∧ latencyThresh < sojournTime then { pkt with ce := true } else pkt
    { marked with timestamp := 0 }
  else pkt

/-! ### Enque -/

/-- The queue of a packet: the last one for a priority out of range. -/
def classify (config : Config) (p : Packet) : Fin 64 :=
  if inside : 0 ≤ p.prio ∧ p.prio < config.queueNum then
    ⟨p.prio.toNat, config.toNat_lt inside.2⟩
  else ⟨config.queueNum - 1, config.pred_lt⟩

/-- The stamp of a packet that finds its queue empty. -/
def activate (queue : Fin 64) (pktSize : Nat) (q : WfqQueue) : Option WfqQueue :=
  let cl := q.queues queue
  if 0 < cl.weight then
    let time := q.currTime + ((pktSize / cl.weight : ℚ) : WithTop ℚ)
    some
      { q with
        queues := Function.update q.queues queue { cl with headFinishTime := time }
        currTime := time
        weightSum := q.weightSum + cl.weight }
  else none

/-- `PacketQueue::enque` on one of the queues. -/
def push (queue : Fin 64) (p : Packet) (q : WfqQueue) : WfqQueue :=
  { q with
    queues :=
      Function.update q.queues queue
        { q.queues queue with packets := (q.queues queue).packets ++ [p] } }

/-- The body of `WFQ::enque` for a packet that is not dropped. The queue holds the packet
itself, so it holds it as the marking leaves it. -/
def admission (config : Config) (now : ℚ) (p : Packet) (q : WfqQueue) : Option WfqQueue :=
  let queue := classify config p
  (if (q.queues queue).packets = [] then activate queue p.size q else some q).bind fun stamped =>
    (enqueMarking config now queue p (push queue p stamped)).map fun marked =>
      push queue marked stamped

/-- `WFQ::enque`, with whether the packet was taken. -/
def enque (pow : ℚ → ℚ → ℚ) (config : Config) (now : ℚ) (p : Packet) (q : WfqQueue) :
    Option (WfqQueue × Bool) :=
  let q := decayEstimate pow config now (startTimer config q)
  if config.qlim * config.meanPktsize < totalByteLength config q + p.size then some (q, false)
  else (admission config now p q).map fun q' => (q', true)

/-! ### Deque -/

/-- One iteration of the search for the earliest finish time: the candidate and `minT`. -/
def scanStep (q : WfqQueue) (found : Option (Fin 64) × WithTop ℚ) (i : Fin 64) :
    Option (Fin 64) × WithTop ℚ :=
  if (q.queues i).packets = [] then found
  else if (q.queues i).headFinishTime < found.2 then (some i, (q.queues i).headFinishTime)
  else found

/-- The search for the queue with the earliest finish time. -/
def scan (config : Config) (q : WfqQueue) : Option (Fin 64) :=
  (config.indices.foldl (scanStep q) (none, ⊤)).1

/-- The finish time of the remaining head, or the end of the busy period. -/
def advance (queue : Fin 64) (q : WfqQueue) : Option WfqQueue :=
  let cl := q.queues queue
  match cl.packets with
  | [] =>
      some
        { q with
          weightSum := q.weightSum - cl.weight
          queues := Function.update q.queues queue { cl with headFinishTime := ⊤ } }
  | nextPkt :: _ =>
      if 0 < cl.weight then
        let time := cl.headFinishTime + ((nextPkt.size / cl.weight : ℚ) : WithTop ℚ)
        some
          { q with
            queues := Function.update q.queues queue { cl with headFinishTime := time }
            currTime := if q.currTime < time then time else q.currTime }
      else none

/-- The removal of the head of a queue and the measurement of its departure rate. -/
def pop (config : Config) (now : ℚ) (queue : Fin 64) (pkt : Packet) (rest : List Packet)
    (q : WfqQueue) : WfqQueue :=
  let cl := q.queues queue
  { q with
    queues :=
      Function.update q.queues queue
        { cl with
          packets := rest
          drain :=
            cl.drain.measure config.dqThresh config.estimateRateAlpha config.linkCapacity now
              (byteLength rest) pkt.size } }

/-- `WFQ::deque`; a packet comes with the queue it was the head of. -/
def deque (config : Config) (now : ℚ) (q : WfqQueue) :
    Option (WfqQueue × Option (Fin 64 × Packet)) :=
  if 0 < totalByteLength config q then
    match scan config q with
    | none => none
    | some queue =>
        match (q.queues queue).packets with
        | [] => none
        | pkt :: rest =>
            (advance queue (pop config now queue pkt rest q)).map fun q' =>
              (sampleEstimate config now q', some (queue, dequeMarking config now pkt))
  else some (sampleEstimate config now q, none)

/-! ### Commands -/

/-- `set-weight`. -/
def setWeight (config : Config) (queueId : Int) (weight : ℚ) (q : WfqQueue) : Option WfqQueue :=
  if inside : queueId < config.queueNum ∧ 0 ≤ queueId then
    if 0 < weight then
      let queue : Fin 64 := ⟨queueId.toNat, config.toNat_lt inside.1⟩
      some { q with queues := Function.update q.queues queue { q.queues queue with weight } }
    else none
  else none

/-- `set-thresh`. -/
def setThresh (config : Config) (queueId : Int) (thresh : ℚ) (q : WfqQueue) : Option WfqQueue :=
  if inside : queueId < config.queueNum ∧ 0 ≤ queueId then
    if 0 ≤ thresh then
      let queue : Fin 64 := ⟨queueId.toNat, config.toNat_lt inside.1⟩
      some { q with queues := Function.update q.queues queue { q.queues queue with thresh } }
    else none
  else none

/-- The commands that set per-queue variables. -/
inductive Command where
  | setWeight (queueId : Int) (weight : ℚ)
  | setThresh (queueId : Int) (thresh : ℚ)

/-- `WFQ::command`. -/
def command (config : Config) (q : WfqQueue) : Command → Option WfqQueue
  | .setWeight queueId weight => setWeight config queueId weight q
  | .setThresh queueId thresh => setThresh config queueId thresh q

/-! ### The discipline as a transition system -/

/-- The bound variables, the discipline and the time of its last operation. -/
abbrev Sys := Discipline Config WfqQueue

/-- A discipline just constructed. -/
def Initial (s : Sys) : Prop := s.q = construct

/-- One operation. The clock does not go back. -/
inductive Step (pow : ℚ → ℚ → ℚ) : Sys → Event Command → Sys → Prop
  | enque {s : Sys} {now : ℚ} {p : Packet} {q' : WfqQueue} {taken : Bool}
      (later : s.clock ≤ now) (returns : enque pow s.config now p s.q = some (q', taken)) :
      Step pow s (.enque now p taken) ⟨s.config, q', now⟩
  | deque {s : Sys} {now : ℚ} {q' : WfqQueue} {pkt : Option (Fin 64 × Packet)}
      (later : s.clock ≤ now) (returns : deque s.config now s.q = some (q', pkt)) :
      Step pow s (.deque now pkt) ⟨s.config, q', now⟩
  | command {s : Sys} {request : Command} {q' : WfqQueue}
      (returns : command s.config s.q request = some q') :
      Step pow s (.command request) ⟨s.config, q', s.clock⟩
  | timeout {s : Sys} {now : ℚ} (later : s.clock ≤ now) (pending : s.q.timer = true) :
      Step pow s (.timeout now) ⟨s.config, timeout s.config s.q, now⟩

/-- The states some sequence of operations reaches from a fresh discipline. -/
abbrev Reachable (pow : ℚ → ℚ → ℚ) : Sys → Prop :=
  MqEcn.Library.Transition.Reachable Initial (Step pow)

end MqEcn.Ns2.Wfq
