import MqEcn.Library.LinkedList
import MqEcn.Library.Transition
import MqEcn.Ns2.PacketQueue
import MqEcn.Ns2.Pow

/-!
Contract: the embedding of `dwrr/dwrr.h` and `dwrr/dwrr.cc`.

Owns: the per-queue and the port state, the active list, `enque`, `deque`, the commands
and the timer of the DWRR discipline, and its step relation. What `prio_dwrr.cc` has word
for word is stated for any `Tuning`.

`exit(1)`, the use of a NULL head and a loop that has not come to its end are `none`. `pow`
of the C library is a parameter. Traces and debug prints are left out.

Does not own: any property.
-/

set_option autoImplicit false

namespace MqEcn.Ns2.Dwrr

open MqEcn.Library.LinkedList

/-! ### State -/

/-- `MAX_QUEUE_NUM`. -/
def maxQueueNum : Nat := 64

/-- `PER_QUEUE_MARKING`. -/
def perQueueMarking : Int := 0

/-- `PER_PORT_MARKING`. -/
def perPortMarking : Int := 1

/-- `MQ_MARKING_GENER`. -/
def mqMarkingGener : Int := 2

/-- `MQ_MARKING_RR`. -/
def mqMarkingRr : Int := 3

/-- `LATENCY_MARKING`. -/
def latencyMarking : Int := 4

/-- `PIE_MARKING`. -/
def pieMarking : Int := 5

/-- The bound variables `dwrr.cc` and `prio_dwrr.cc` have in common, and the limit of the
buffer. -/
structure Tuning where
  qlim : Int
  meanPktsize : Int
  portThresh : ℚ
  markingScheme : Int
  estimateRoundAlpha : ℚ
  estimateRoundIdleIntervalBytes : Int
  estimateQuantumAlpha : ℚ
  estimateQuantumIntervalBytes : Int
  estimateQuantumEnableTimer : Bool
  dqThresh : Int
  estimateRateAlpha : ℚ
  linkCapacity : ℚ

/-- The bound variables of DWRR, with a number of queues that fits `queues`. -/
structure Config extends Tuning where
  queueNum : Nat
  queueNum_range : 1 ≤ queueNum ∧ queueNum ≤ maxQueueNum
  dequeMarking : Bool

theorem Config.toNat_lt (config : Config) {number : Int}
    (inside : number < config.queueNum) : number.toNat < 64 := by
  have range := config.queueNum_range.2
  unfold maxQueueNum at range
  omega

theorem Config.pred_lt (config : Config) : config.queueNum - 1 < 64 := by
  have range := config.queueNum_range.2
  unfold maxQueueNum at range
  omega

/-- `PacketDWRR`. Its `id` is its index in `queues`; `packets` is the underlying FIFO, oldest
packet first. -/
structure PacketDwrr where
  quantum : Int
  deficitCounter : Int
  thresh : ℚ
  active : Bool
  current : Bool
  startTime : ℚ
  drain : DrainRate
  next : Option (Fin 64)
  packets : List Packet

/-- `DWRR`. `activeList` is `activeList->next`; `timer` tells whether `timer_` is pending. -/
structure DwrrQueue where
  queues : Fin 64 → PacketDwrr
  activeList : Option (Fin 64)
  roundTime : ℚ
  quantumSumEstimate : ℚ
  quantumSum : Int
  lastUpdateTime : ℚ
  lastIdleTime : ℚ
  init : Bool
  timer : Bool

/-- `DWRR::DWRR` and `PacketDWRR::PacketDWRR`. -/
def construct : DwrrQueue where
  queues := fun _ =>
    { quantum := 1500, deficitCounter := 0, thresh := 0, active := false, current := false,
      startTime := 0, drain := DrainRate.initial, next := none, packets := [] }
  activeList := none
  roundTime := 0
  quantumSumEstimate := 0
  quantumSum := 0
  lastUpdateTime := 0
  lastIdleTime := 0
  init := false
  timer := false

/-- The values `DWRR::DWRR` gives the bound variables, with a limit of 50 packets. -/
def defaultConfig : Config where
  queueNum := 8
  queueNum_range := by decide
  qlim := 50
  meanPktsize := 1500
  portThresh := 65
  markingScheme := 0
  estimateRoundAlpha := 3 / 4
  estimateRoundIdleIntervalBytes := 1500
  estimateQuantumAlpha := 3 / 4
  estimateQuantumIntervalBytes := 1500
  estimateQuantumEnableTimer := false
  dqThresh := 10000
  estimateRateAlpha := 7 / 8
  linkCapacity := 10000000000
  dequeMarking := false

/-- The queues a loop up to `queue_num_` visits. -/
def Config.indices (config : Config) : List (Fin 64) :=
  (List.finRange 64).filter fun i => decide ((i : Nat) < config.queueNum)

/-- `DWRR::TotalByteLength`. -/
def totalByteLength (config : Config) (q : DwrrQueue) : Nat :=
  (config.indices.map fun i => byteLength (q.queues i).packets).sum

/-! ### The active list -/

/-- The pointers of the active list. -/
def links (q : DwrrQueue) : Links (Fin 64) := ⟨q.activeList, fun i => (q.queues i).next⟩

/-- The queues with these pointers. -/
def relink (q : DwrrQueue) (links : Links (Fin 64)) : DwrrQueue :=
  { q with
    activeList := links.first
    queues := fun i => { q.queues i with next := links.next i } }

/-- `InsertTailList` on `activeList`. A list of 64 queues that does not end within 65 steps
has a cycle. -/
def insertTailList (i : Fin 64) (q : DwrrQueue) : Option DwrrQueue :=
  ((links q).insertTail i (maxQueueNum + 1) none).map (relink q)

/-- `RemoveHeadList` on `activeList`; `none` is the result NULL. -/
def removeHeadList (q : DwrrQueue) : Option (Fin 64 × DwrrQueue) :=
  (links q).removeHead.map fun removed => (removed.1, relink q removed.2)

/-! ### Estimates -/

/-- The update of `quantum_sum_estimate`. -/
def smoothQuantumSum (tuning : Tuning) (q : DwrrQueue) : ℚ :=
  q.quantumSumEstimate * tuning.estimateQuantumAlpha +
    q.quantumSum * (1 - tuning.estimateQuantumAlpha)

/-- The update of `round_time` in `DWRR::deque`. -/
def smoothRoundTime (tuning : Tuning) (roundTime sample : ℚ) : ℚ :=
  roundTime * tuning.estimateRoundAlpha + sample * (1 - tuning.estimateRoundAlpha)

/-- `DWRR::timeout`. -/
def timeout (tuning : Tuning) (q : DwrrQueue) : DwrrQueue :=
  { q with
    quantumSumEstimate := smoothQuantumSum tuning q
    timer := decide (0 < tuning.linkCapacity) }

/-- The start of the timer in `DWRR::enque`. -/
def startTimer (tuning : Tuning) (q : DwrrQueue) : DwrrQueue :=
  if q.init then q
  else
    { q with
      init := true
      timer :=
        if tuning.markingScheme = mqMarkingGener ∧ tuning.estimateQuantumEnableTimer ∧
            0 < tuning.estimateQuantumIntervalBytes ∧ 0 < tuning.linkCapacity then true
        else q.timer }

/-- The conversion of a `double` to `int`. -/
def truncate (value : ℚ) : Int := value.num.tdiv value.den

/-- The decay of the estimates by a packet; `idle` is the length test that comes first. -/
def decayIdle (pow : ℚ → ℚ → ℚ) (tuning : Tuning) (now : ℚ) (idle : Bool) (q : DwrrQueue) :
    DwrrQueue :=
  let idleTime := now - q.lastIdleTime
  if idle ∧ tuning.markingScheme = mqMarkingGener ∧ ¬tuning.estimateQuantumEnableTimer then
    { q with
      quantumSumEstimate :=
        if 0 < tuning.estimateQuantumIntervalBytes ∧ 0 < tuning.linkCapacity then
          q.quantumSumEstimate * pow tuning.estimateQuantumAlpha
            (idleTime / (tuning.estimateQuantumIntervalBytes * 8 / tuning.linkCapacity))
        else 0
      lastUpdateTime := now }
  else if idle ∧ tuning.markingScheme = mqMarkingRr then
    { q with
      roundTime :=
        if 0 < tuning.estimateRoundIdleIntervalBytes ∧ 0 < tuning.linkCapacity then
          let intervalNum := truncate
            (idleTime / (tuning.estimateRoundIdleIntervalBytes * 8 / tuning.linkCapacity))
          q.roundTime * pow tuning.estimateQuantumAlpha intervalNum
        else 0
      lastUpdateTime := now }
  else q

/-- The sampling of `quantum_sum` at the end of `DWRR::deque`. -/
def sampleEstimate (tuning : Tuning) (now : ℚ) (q : DwrrQueue) : DwrrQueue :=
  if tuning.markingScheme = mqMarkingGener ∧ ¬tuning.estimateQuantumEnableTimer ∧
      0 < tuning.estimateQuantumIntervalBytes ∧ 0 < tuning.linkCapacity ∧
      995 / 1000 * tuning.estimateQuantumIntervalBytes * 8 / tuning.linkCapacity ≤
        now - q.lastUpdateTime then
    { q with quantumSumEstimate := smoothQuantumSum tuning q, lastUpdateTime := now }
  else q

/-- The end of `DWRR::deque`; `idle` is the length test on the queues it leaves. -/
def finish (tuning : Tuning) (now : ℚ) (idle : Bool) (q : DwrrQueue) : DwrrQueue :=
  let sampled := sampleEstimate tuning now q
  if idle then { sampled with lastIdleTime := now } else sampled

/-! ### ECN marking -/

/-- `DWRR::MarkingECN`. -/
def markingEcn (config : Config) (q : DwrrQueue) (queue : Fin 64) : Option Bool :=
  let exceeds := fun (bytes : Nat) (thresh : ℚ) => decide (thresh * config.meanPktsize < bytes)
  let cl := q.queues queue
  if config.queueNum ≤ queue then none
  else if config.markingScheme = perQueueMarking then
    some (exceeds (byteLength cl.packets) cl.thresh)
  else if config.markingScheme = perPortMarking then
    some (exceeds (totalByteLength config q) config.portThresh)
  else if config.markingScheme = mqMarkingGener then
    let thresh :=
      if 1 / 1000000000 ≤ q.quantumSumEstimate then
        min (cl.quantum / q.quantumSumEstimate) 1 * config.portThresh
      else config.portThresh
    some (exceeds (byteLength cl.packets) thresh)
  else if config.markingScheme = mqMarkingRr then
    let thresh :=
      if 1 / 1000000000 ≤ q.roundTime ∧ 0 < config.linkCapacity then
        min (cl.quantum * 8 / q.roundTime / config.linkCapacity) 1 * config.portThresh
      else config.portThresh
    some (exceeds (byteLength cl.packets) thresh)
  else if config.markingScheme = pieMarking then
    let thresh :=
      if 1 / 1000000000 ≤ cl.drain.avgDqRate ∧ 0 < config.linkCapacity then
        min (cl.drain.avgDqRate / config.linkCapacity) 1 * config.portThresh
      else config.portThresh
    some (exceeds (byteLength cl.packets) thresh)
  else some false

/-- The marking at the end of `DWRR::enque`, where `q` holds the packet already. -/
def enqueMarking (config : Config) (now : ℚ) (queue : Fin 64) (p : Packet) (q : DwrrQueue) :
    Option Packet :=
  if config.markingScheme ≠ latencyMarking then
    if config.dequeMarking then some p
    else
      (markingEcn config q queue).map fun (marks : Bool) =>
        if marks ∧ p.ect then { p with ce := true } else p
  else some (if p.ect then { p with timestamp := now } else p)

/-- The latency marking in `DWRR::deque`. -/
def latencyMark (tuning : Tuning) (now : ℚ) (pkt : Packet) : Packet :=
  let sojournTime := now - pkt.timestamp
  let latencyThresh :=
    if 0 < tuning.linkCapacity then
      tuning.portThresh * tuning.meanPktsize * 8 / tuning.linkCapacity
    else 0
  let marked := if pkt.ect ∧ latencyThresh < sojournTime then { pkt with ce := true } else pkt
  { marked with timestamp := 0 }

/-- The marking in `DWRR::deque`, where `q` does not hold the packet any more. -/
def dequeMarking (config : Config) (now : ℚ) (queue : Fin 64) (pkt : Packet) (q : DwrrQueue) :
    Option Packet :=
  if config.markingScheme ≠ latencyMarking then
    if config.dequeMarking then
      (markingEcn config q queue).map fun (marks : Bool) =>
        if marks ∧ pkt.ect then { pkt with ce := true } else pkt
    else some pkt
  else some (latencyMark config.toTuning now pkt)

/-! ### Enque -/

/-- The queue of a packet: the last one for a priority out of range. -/
def classify (config : Config) (p : Packet) : Fin 64 :=
  if inside : 0 ≤ p.prio ∧ p.prio < config.queueNum then
    ⟨p.prio.toNat, config.toNat_lt inside.2⟩
  else ⟨config.queueNum - 1, config.pred_lt⟩

/-- `PacketQueue::enque` on one of the queues. -/
def push (i : Fin 64) (p : Packet) (q : DwrrQueue) : DwrrQueue :=
  { q with
    queues :=
      Function.update q.queues i { q.queues i with packets := (q.queues i).packets ++ [p] } }

/-- The insertion of a queue that is not in `activeList`. -/
def activate (now : ℚ) (i : Fin 64) (q : DwrrQueue) : Option DwrrQueue :=
  let cl := q.queues i
  if cl.active then some q
  else
    (insertTailList i
      { q with
        queues :=
          Function.update q.queues i
            { cl with
              deficitCounter := 0, active := true, current := false, startTime := now } }).map
      fun linked => { linked with quantumSum := linked.quantumSum + cl.quantum }

/-- The body of `DWRR::enque` for a packet that is not dropped. The queue holds the packet
itself, so it holds it as the marking leaves it. -/
def admission (config : Config) (now : ℚ) (p : Packet) (q : DwrrQueue) : Option DwrrQueue :=
  let i := classify config p
  (activate now i q).bind fun activated =>
    (enqueMarking config now i p (push i p activated)).map fun marked => push i marked activated

/-- `DWRR::enque`, with whether the packet was taken. -/
def enque (pow : ℚ → ℚ → ℚ) (config : Config) (now : ℚ) (p : Packet) (q : DwrrQueue) :
    Option (DwrrQueue × Bool) :=
  let q :=
    decayIdle pow config.toTuning now (totalByteLength config q = 0)
      (startTimer config.toTuning q)
  if config.qlim * config.meanPktsize < totalByteLength config q + p.size then some (q, false)
  else (admission config now p q).map fun q' => (q', true)

/-! ### Deque -/

/-- The start of the visit of queue `i`. -/
def refresh (i : Fin 64) (q : DwrrQueue) : DwrrQueue :=
  let cl := q.queues i
  if cl.current then q
  else
    { q with
      queues :=
        Function.update q.queues i
          { cl with deficitCounter := cl.deficitCounter + cl.quantum, current := true } }

/-- The end of a visit that leaves packets behind: the head becomes the tail. -/
def rotate (tuning : Tuning) (now : ℚ) (q : DwrrQueue) : Option DwrrQueue :=
  (removeHeadList q).bind fun removed =>
    let unlinked := removed.2
    let cl := unlinked.queues removed.1
    insertTailList removed.1
      { unlinked with
        roundTime := smoothRoundTime tuning unlinked.roundTime (now - cl.startTime)
        queues :=
          Function.update unlinked.queues removed.1
            { cl with current := false, startTime := now } }

/-- A packet the loop may send, with the queue it is the head of and what stays behind. -/
structure Choice where
  queue : Fin 64
  pkt : Packet
  rest : List Packet

/-- The `while (1)` of `DWRR::deque` up to the removal of a packet. An active queue without
packets keeps it spinning. -/
def select (tuning : Tuning) (now : ℚ) : Nat → DwrrQueue → Option (DwrrQueue × Choice)
  | 0, _ => none
  | fuel + 1, q =>
      match q.activeList with
      | none => none
      | some i =>
          match (q.queues i).packets with
          | [] => select tuning now fuel q
          | pkt :: rest =>
              let visited := refresh i q
              if pkt.size ≤ (visited.queues i).deficitCounter then some (visited, ⟨i, pkt, rest⟩)
              else (rotate tuning now visited).bind (select tuning now fuel)

/-- The removal of the packet. -/
def pop (choice : Choice) (q : DwrrQueue) : DwrrQueue :=
  let cl := q.queues choice.queue
  { q with
    queues :=
      Function.update q.queues choice.queue
        { cl with
          packets := choice.rest
          deficitCounter := cl.deficitCounter - choice.pkt.size } }

/-- The measurement of the departure rate. -/
def measure (tuning : Tuning) (now : ℚ) (choice : Choice) (q : DwrrQueue) : DwrrQueue :=
  let cl := q.queues choice.queue
  { q with
    queues :=
      Function.update q.queues choice.queue
        { cl with
          drain :=
            cl.drain.measure tuning.dqThresh tuning.estimateRateAlpha tuning.linkCapacity now
              (byteLength cl.packets) choice.pkt.size } }

/-- The removal of a queue that has become empty from `activeList`. -/
def retire (tuning : Tuning) (now : ℚ) (choice : Choice) (q : DwrrQueue) : Option DwrrQueue :=
  let cl := q.queues choice.queue
  if cl.packets = [] then
    let roundTimeSample := now - cl.startTime + choice.pkt.size * 8 / tuning.linkCapacity
    (removeHeadList
      { q with
        roundTime := smoothRoundTime tuning q.roundTime roundTimeSample
        quantumSum := q.quantumSum - cl.quantum }).map fun removed =>
      { removed.2 with
        queues :=
          Function.update removed.2.queues removed.1
            { removed.2.queues removed.1 with
              deficitCounter := 0, active := false, current := false } }
  else some q

/-- The service of one packet in `DWRR::deque`. -/
def serve (config : Config) (now : ℚ) (choice : Choice) (q : DwrrQueue) :
    Option (DwrrQueue × Packet) :=
  let popped := pop choice q
  (dequeMarking config now choice.queue choice.pkt popped).bind fun marked =>
    (retire config.toTuning now choice (measure config.toTuning now choice popped)).map
      fun q' => (q', marked)

/-- `DWRR::deque`; a packet comes with the queue it was the head of. -/
def deque (config : Config) (now : ℚ) (fuel : Nat) (q : DwrrQueue) :
    Option (DwrrQueue × Option (Fin 64 × Packet)) :=
  (if 0 < totalByteLength config q then
    (select config.toTuning now fuel q).bind fun selected =>
      (serve config now selected.2 selected.1).map fun served =>
        (served.1, some (selected.2.queue, served.2))
  else some (q, none)).map fun answer =>
    (finish config.toTuning now (totalByteLength config answer.1 = 0) answer.1, answer.2)

/-! ### Commands -/

/-- `set-quantum`. -/
def setQuantum (config : Config) (queueId quantum : Int) (q : DwrrQueue) : Option DwrrQueue :=
  if inside : queueId < config.queueNum ∧ 0 ≤ queueId then
    if 0 < quantum then
      let i : Fin 64 := ⟨queueId.toNat, config.toNat_lt inside.1⟩
      some { q with queues := Function.update q.queues i { q.queues i with quantum } }
    else none
  else none

/-- `set-thresh`. -/
def setThresh (config : Config) (queueId : Int) (thresh : ℚ) (q : DwrrQueue) : Option DwrrQueue :=
  if inside : queueId < config.queueNum ∧ 0 ≤ queueId then
    if 0 ≤ thresh then
      let i : Fin 64 := ⟨queueId.toNat, config.toNat_lt inside.1⟩
      some { q with queues := Function.update q.queues i { q.queues i with thresh } }
    else none
  else none

/-- The commands that set per-queue variables. -/
inductive Command where
  | setQuantum (queueId quantum : Int)
  | setThresh (queueId : Int) (thresh : ℚ)

/-- `DWRR::command`. -/
def command (config : Config) (q : DwrrQueue) : Command → Option DwrrQueue
  | .setQuantum queueId quantum => setQuantum config queueId quantum q
  | .setThresh queueId thresh => setThresh config queueId thresh q

/-! ### The discipline as a transition system -/

/-- The bound variables, the discipline and the time of its last operation. -/
abbrev Sys := Discipline Config DwrrQueue

/-- A discipline just constructed. -/
def Initial (s : Sys) : Prop := s.q = construct

/-- One operation. The clock does not go back. -/
inductive Step (pow : ℚ → ℚ → ℚ) : Sys → Event Command → Sys → Prop
  | enque {s : Sys} {now : ℚ} {p : Packet} {q' : DwrrQueue} {taken : Bool}
      (later : s.clock ≤ now) (returns : enque pow s.config now p s.q = some (q', taken)) :
      Step pow s (.enque now p taken) ⟨s.config, q', now⟩
  | deque {s : Sys} {now : ℚ} {fuel : Nat} {q' : DwrrQueue} {pkt : Option (Fin 64 × Packet)}
      (later : s.clock ≤ now) (returns : deque s.config now fuel s.q = some (q', pkt)) :
      Step pow s (.deque now pkt) ⟨s.config, q', now⟩
  | command {s : Sys} {request : Command} {q' : DwrrQueue}
      (returns : command s.config s.q request = some q') :
      Step pow s (.command request) ⟨s.config, q', s.clock⟩
  | timeout {s : Sys} {now : ℚ} (later : s.clock ≤ now) (pending : s.q.timer = true) :
      Step pow s (.timeout now) ⟨s.config, timeout s.config.toTuning s.q, now⟩

/-- The states some sequence of operations reaches from a fresh discipline. -/
abbrev Reachable (pow : ℚ → ℚ → ℚ) : Sys → Prop :=
  MqEcn.Library.Transition.Reachable Initial (Step pow)

end MqEcn.Ns2.Dwrr
