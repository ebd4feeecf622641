import MqEcn.Ns2.Dwrr.Model

/-!
Contract: the embedding of `wrr/wrr.h` and `wrr/wrr.cc`.

Owns: the per-queue and the port state, the cursor, `enque`, `deque` and the commands of the
WRR discipline, and its step relation.

`exit(1)` and a loop that has not come to its end are `none`. `pow` of the C library is a
parameter. Traces and debug prints are left out.

Does not own: any property.
-/

set_option autoImplicit false

namespace MqEcn.Ns2.Wrr

open MqEcn.Ns2.Dwrr (maxQueueNum perQueueMarking perPortMarking mqMarkingRr latencyMarking
  pieMarking truncate Command)

/-! ### State -/

/-- The bound variables of WRR, with a number of queues that fits `queues`, and the limit of
the buffer. -/
structure Config where
  queueNum : Nat
  queueNum_range : 1 ≤ queueNum ∧ queueNum ≤ maxQueueNum
  qlim : Int
  meanPktsize : Int
  portThresh : ℚ
  markingScheme : Int
  estimateRoundAlpha : ℚ
  estimateRoundIdleIntervalBytes : Int
  dqThresh : Int
  estimateRateAlpha : ℚ
  linkCapacity : ℚ

private theorem Config.lt_of_lt (config : Config) {number : Nat}
    (inside : number < config.queueNum) :
    number < 64 := by
  have range := config.queueNum_range.2
  unfold maxQueueNum at range
  omega

private theorem Config.toNat_lt (config : Config) {number : Int}
    (inside : number < config.queueNum) :
    number.toNat < 64 := by
  have range := config.queueNum_range
  unfold maxQueueNum at range
  omega

/-- `PacketWRR`. Its index in `queues` names it; `packets` is the underlying FIFO, oldest
packet first. -/
structure PacketWrr where
  quantum : Int
  counter : Int
  thresh : ℚ
  startTime : ℚ
  drain : DrainRate
  counterUpdated : Bool
  packets : List Packet

/-- `WRR`. -/
structure WrrQueue where
  queues : Fin 64 → PacketWrr
  roundTime : ℚ
  lastIdleTime : ℚ
  current : Fin 64

/-- `WRR::WRR` and `PacketWRR::PacketWRR`. -/
def construct : WrrQueue where
  queues := fun _ =>
    { quantum := 1500, counter := 0, thresh := 0, startTime := 0, drain := DrainRate.initial,
      counterUpdated := false, packets := [] }
  roundTime := 0
  lastIdleTime := 0
  current := 0

private theorem eightQueues_range : 1 ≤ 8 ∧ 8 ≤ maxQueueNum := by decide

/-- The values `WRR::WRR` gives the bound variables, with a limit of 50 packets. -/
def defaultConfig : Config where
  queueNum := 8
  queueNum_range := eightQueues_range
  qlim := 50
  meanPktsize := 1500
  portThresh := 65
  markingScheme := 0
  estimateRoundAlpha := 3 / 4
  estimateRoundIdleIntervalBytes := 1500
  dqThresh := 10000
  estimateRateAlpha := 7 / 8
  linkCapacity := 10000000000

/-- The queues a loop up to `queue_num_` visits. -/
def Config.indices (config : Config) : List (Fin 64) :=
  (List.finRange 64).filter fun i => decide ((i : Nat) < config.queueNum)

/-- `WRR::TotalByteLength`. -/
def totalByteLength (config : Config) (q : WrrQueue) : Nat :=
  (config.indices.map fun i => byteLength (q.queues i).packets).sum

/-! ### Marking -/

/-- The update of `round_time` in `WRR::deque`. -/
def smoothRoundTime (config : Config) (roundTime sample : ℚ) : ℚ :=
  roundTime * config.estimateRoundAlpha + sample * (1 - config.estimateRoundAlpha)

/-- `WRR::MarkingECN`. -/
def markingEcn (config : Config) (q : WrrQueue) (queue : Fin 64) : Option Bool :=
  let exceeds := fun (bytes : Nat) (thresh : ℚ) => decide (thresh * config.meanPktsize < bytes)
  let cl := q.queues queue
  if config.queueNum ≤ queue then none
  else if config.markingScheme = perQueueMarking then
    some (exceeds (byteLength cl.packets) cl.thresh)
  else if config.markingScheme = perPortMarking then
    some (exceeds (totalByteLength config q) config.portThresh)
  else if config.markingScheme = mqMarkingRr then
    let thresh :=
      if 1 / 1000000000 ≤ q.roundTime ∧ 0 < config.linkCapacity then
        min (cl.quantum * 8 / q.roundTime / config.linkCapacity) 1 * config.portThresh
      else config.portThresh
    some (exceeds (byteLength cl.packets) thresh)
  else if config.markingScheme = pieMarking then
    let thresh :=
      if 0 < cl.drain.avgDqRate ∧ 0 < config.linkCapacity then
        min (cl.drain.avgDqRate / config.linkCapacity) 1 * config.portThresh
      else config.portThresh
    some (exceeds (byteLength cl.packets) thresh)
  else some false

/-- The marking at the end of `WRR::enque`, where `q` holds the packet already. -/
def enqueMarking (config : Config) (now : ℚ) (queue : Fin 64) (p : Packet) (q : WrrQueue) :
    Option Packet :=
  if config.markingScheme ≠ latencyMarking then
    (markingEcn config q queue).map fun (marks : Bool) =>
      if marks ∧ p.ect then { p with ce := true } else p
  else some (if p.ect then { p with timestamp := now } else p)

/-- The latency marking in `WRR::deque`. -/
def dequeMarking (config : Config) (now : ℚ) (pkt : Packet) : Packet :=
  if config.markingScheme = latencyMarking then
    let sojournTime := now - pkt.timestamp
    let latencyThresh :=
      if 0 < config.linkCapacity then
        config.portThresh * config.meanPktsize * 8 / config.linkCapacity
      else 0
    let marked := if pkt.ect ∧ latencyThresh < sojournTime then { pkt with ce := true } else pkt
    { marked with timestamp := 0 }
  else pkt

/-! ### Enque -/

/-- The reset by a packet that finds every queue empty. -/
def resetIdle (pow : ℚ → ℚ → ℚ) (config : Config) (now : ℚ) (q : WrrQueue) : WrrQueue :=
  if totalByteLength config q = 0 then
    let idleTime := now - q.lastIdleTime
    { q with
      roundTime :=
        if 0 < config.estimateRoundIdleIntervalBytes ∧ 0 < config.linkCapacity then
          let intervalNum := truncate
            (idleTime / (config.estimateRoundIdleIntervalBytes * 8 / config.linkCapacity))
          q.roundTime * pow config.estimateRoundAlpha intervalNum
        else 0
      queues := fun i =>
        if (i : Nat) < config.queueNum then { q.queues i with startTime := now } else q.queues i }
  else q

/-- The queue of a packet: the last one for a priority out of range. -/
def classify (config : Config) (p : Packet) : Fin 64 :=
  if inside : 0 ≤ p.prio ∧ p.prio < config.queueNum then
    ⟨p.prio.toNat, config.toNat_lt inside.2⟩
  else ⟨config.queueNum - 1, config.lt_of_lt (Nat.sub_one_lt_of_lt config.queueNum_range.1)⟩

/-- `PacketQueue::enque` on one of the queues. -/
def push (i : Fin 64) (p : Packet) (q : WrrQueue) : WrrQueue :=
  { q with
    queues :=
      Function.update q.queues i { q.queues i with packets := (q.queues i).packets ++ [p] } }

/-- `WRR::enque`, with whether the packet was taken. The queue holds the packet itself, so it
holds it as the marking leaves it. -/
def enque (pow : ℚ → ℚ → ℚ) (config : Config) (now : ℚ) (p : Packet) (q : WrrQueue) :
    Option (WrrQueue × Bool) :=
  let q := resetIdle pow config now q
  if config.qlim * config.meanPktsize < totalByteLength config q + p.size then some (q, false)
  else
    let i := classify config p
    (enqueMarking config now i p (push i p q)).map fun marked => (push i marked q, true)

/-! ### Deque -/

/-- `(current + 1) % queue_num_`. -/
def Config.following (config : Config) (current : Fin 64) : Fin 64 :=
  ⟨((current : Nat) + 1) % config.queueNum,
    config.lt_of_lt (Nat.mod_lt _ config.queueNum_range.1)⟩

/-- The move to the next queue. -/
def move (config : Config) (startTime : ℚ) (q : WrrQueue) : WrrQueue :=
  { q with
    queues :=
      Function.update q.queues q.current
        { q.queues q.current with startTime, counterUpdated := false }
    current := config.following q.current }

/-- The allowance of a visit, given once. -/
def refresh (q : WrrQueue) : WrrQueue :=
  let cl := q.queues q.current
  if cl.counterUpdated then q
  else
    { q with
      queues :=
        Function.update q.queues q.current
          { cl with counter := cl.quantum, counterUpdated := true } }

/-- The removal of the head `pkt` of the current queue, which keeps `rest`, with the
measurement of the departure rate. -/
def pop (config : Config) (now : ℚ) (pkt : Packet) (rest : List Packet) (q : WrrQueue) :
    WrrQueue :=
  let cl := q.queues q.current
  { q with
    queues :=
      Function.update q.queues q.current
        { cl with
          packets := rest
          counter := cl.counter - pkt.size
          drain :=
            cl.drain.measure config.dqThresh config.estimateRateAlpha config.linkCapacity now
              (byteLength rest) pkt.size } }

/-- The service of one packet, with the move away from a queue it leaves empty. -/
def serve (config : Config) (now : ℚ) (pkt : Packet) (rest : List Packet) (q : WrrQueue) :
    WrrQueue :=
  let popped := pop config now pkt rest q
  if rest = [] then
    let transmission := (pkt.size : ℚ) * 8 / config.linkCapacity
    let sample := now - (popped.queues popped.current).startTime + transmission
    move config (now + transmission)
      { popped with roundTime := smoothRoundTime config popped.roundTime sample }
  else popped

/-- The end of a visit whose allowance does not cover the head packet. -/
def exhaust (config : Config) (now : ℚ) (q : WrrQueue) : WrrQueue :=
  let sample := now - (q.queues q.current).startTime
  move config now { q with roundTime := smoothRoundTime config q.roundTime sample }

/-- The `while (1)` of `WRR::deque`; the packet comes with the queue it was the head of. -/
def loop (config : Config) (now : ℚ) : Nat → WrrQueue → Option (WrrQueue × Fin 64 × Packet)
  | 0, _ => none
  | fuel + 1, q =>
      match (q.queues q.current).packets with
      | [] => loop config now fuel (move config now q)
      | pkt :: rest =>
          let visited := refresh q
          if pkt.size ≤ (visited.queues visited.current).counter then
            some (serve config now pkt rest visited, visited.current,
              dequeMarking config now pkt)
          else loop config now fuel (exhaust config now visited)

/-- The end of `WRR::deque`. -/
def settle (config : Config) (now : ℚ) (q : WrrQueue) : WrrQueue :=
  if totalByteLength config q = 0 then { q with lastIdleTime := now } else q

/-- `WRR::deque`. -/
def deque (config : Config) (now : ℚ) (fuel : Nat) (q : WrrQueue) :
    Option (WrrQueue × Option (Fin 64 × Packet)) :=
  (if 0 < totalByteLength config q then
    (loop config now fuel q).map fun sent => (sent.1, some sent.2)
  else some (q, none)).map fun answer => (settle config now answer.1, answer.2)

/-! ### Commands -/

/-- `set-quantum`. -/
def setQuantum (config : Config) (queueId quantum : Int) (q : WrrQueue) : Option WrrQueue :=
  if inside : queueId < config.queueNum ∧ 0 ≤ queueId then
    if 0 < quantum then
      let i : Fin 64 := ⟨queueId.toNat, config.toNat_lt inside.1⟩
      some { q with queues := Function.update q.queues i { q.queues i with quantum } }
    else none
  else none

/-- `set-thresh`. -/
def setThresh (config : Config) (queueId : Int) (thresh : ℚ) (q : WrrQueue) : Option WrrQueue :=
  if inside : queueId < config.queueNum ∧ 0 ≤ queueId then
    if 0 ≤ thresh then
      let i : Fin 64 := ⟨queueId.toNat, config.toNat_lt inside.1⟩
      some { q with queues := Function.update q.queues i { q.queues i with thresh } }
    else none
  else none

/-- `WRR::command`. -/
def command (config : Config) (q : WrrQueue) : Command → Option WrrQueue
  | .setQuantum queueId quantum => setQuantum config queueId quantum q
  | .setThresh queueId thresh => setThresh config queueId thresh q

/-! ### The discipline as a transition system -/

/-- The bound variables, the discipline and the time of its last operation. -/
abbrev Sys := Discipline Config WrrQueue

/-- A discipline just constructed. -/
def Initial (s : Sys) : Prop := s.q = construct

/-- One operation. The clock does not go back. -/
inductive Step (pow : ℚ → ℚ → ℚ) : Sys → Event Command → Sys → Prop
  | enque {s : Sys} {now : ℚ} {p : Packet} {q' : WrrQueue} {taken : Bool}
      (later : s.clock ≤ now) (returns : enque pow s.config now p s.q = some (q', taken)) :
      Step pow s (.enque now p taken) ⟨s.config, q', now⟩
  | deque {s : Sys} {now : ℚ} {fuel : Nat} {q' : WrrQueue} {pkt : Option (Fin 64 × Packet)}
      (later : s.clock ≤ now) (returns : deque s.config now fuel s.q = some (q', pkt)) :
      Step pow s (.deque now pkt) ⟨s.config, q', now⟩
  | command {s : Sys} {request : Command} {q' : WrrQueue}
      (returns : command s.config s.q request = some q') :
      Step pow s (.command request) ⟨s.config, q', s.clock⟩

/-- The states some sequence of operations reaches from a fresh discipline. -/
abbrev Reachable (pow : ℚ → ℚ → ℚ) : Sys → Prop :=
  MqEcn.Library.Transition.Reachable Initial (Step pow)

end MqEcn.Ns2.Wrr
