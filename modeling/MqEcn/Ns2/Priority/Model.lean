import MqEcn.Ns2.Dwrr.Model

/-!
Contract: the embedding of `priority/priority.h` and `priority/priority.cc`.

Owns: the queues and their departure rates, `enque` and `deque` of the strict priority
discipline, and its step relation.

`exit(1)` is `none`. Traces and debug prints are left out.

Does not own: any property.
-/

set_option autoImplicit false

namespace MqEcn.Ns2.Priority

open MqEcn.Ns2.Dwrr (maxQueueNum perQueueMarking perPortMarking latencyMarking pieMarking)

/-! ### State -/

/-- The bound variables of Priority, with a number of queues that fits `queues`, and the limit
of the buffer. -/
structure Config where
  queueNum : Nat
  queueNum_range : 1 ≤ queueNum ∧ queueNum ≤ maxQueueNum
  qlim : Int
  thresh : Int
  meanPktsize : Int
  markingScheme : Int
  dqThresh : Int
  estimateRateAlpha : ℚ
  linkCapacity : ℚ

private theorem Config.pred_lt (config : Config) : config.queueNum - 1 < 64 := by
  have range := config.queueNum_range
  unfold maxQueueNum at range
  omega

private theorem Config.toNat_lt (config : Config) {number : Int}
    (inside : number < config.queueNum) :
    number.toNat < 64 := by
  have range := config.queueNum_range
  unfold maxQueueNum at range
  omega

/-- `Priority`. A queue is its FIFO, oldest packet first; `drains` holds `dq_tstamps`,
`dq_counts` and `avg_dq_rates`. -/
structure PriorityQueue where
  queues : Fin 64 → List Packet
  drains : Fin 64 → DrainRate

/-- `Priority::Priority`. -/
def construct : PriorityQueue where
  queues := fun _ => []
  drains := fun _ => DrainRate.initial

private theorem allQueues_range : 1 ≤ maxQueueNum ∧ maxQueueNum ≤ maxQueueNum := by decide

/-- The values `Priority::Priority` gives the bound variables, with a limit of 50 packets. -/
def defaultConfig : Config where
  queueNum := maxQueueNum
  queueNum_range := allQueues_range
  qlim := 50
  thresh := 65
  meanPktsize := 1500
  markingScheme := perQueueMarking
  dqThresh := 10000
  estimateRateAlpha := 7 / 8
  linkCapacity := 10000000000

/-- `Priority::TotalByteLength`, over all the queues there are. -/
def totalByteLength (q : PriorityQueue) : Nat :=
  ((List.finRange 64).map fun i => byteLength (q.queues i)).sum

/-! ### Marking -/

/-- `Priority::MarkingECN`. -/
def markingEcn (config : Config) (q : PriorityQueue) (queue : Fin 64) : Option Bool :=
  if config.queueNum ≤ queue then none
  else if config.markingScheme = perQueueMarking then
    some (decide (config.thresh * config.meanPktsize < byteLength (q.queues queue)))
  else if config.markingScheme = perPortMarking then
    some (decide (config.thresh * config.meanPktsize < totalByteLength q))
  else if config.markingScheme = pieMarking then
    let avgDqRate := (q.drains queue).avgDqRate
    let thresh : ℚ :=
      if 0 < avgDqRate ∧ 0 < config.linkCapacity then
        min (avgDqRate / config.linkCapacity) 1 * config.thresh
      else config.thresh
    some (decide (thresh * config.meanPktsize < byteLength (q.queues queue)))
  else some false

/-- The marking at the end of `Priority::enque`, where `q` holds the packet already. -/
def enqueMarking (config : Config) (now : ℚ) (queue : Fin 64) (p : Packet) (q : PriorityQueue) :
    Option Packet :=
  if config.markingScheme ≠ latencyMarking then
    (markingEcn config q queue).map fun (marks : Bool) =>
      if marks ∧ p.ect then { p with ce := true } else p
  else some (if p.ect then { p with timestamp := now } else p)

/-- The latency marking in `Priority::deque`. -/
def dequeMarking (config : Config) (now : ℚ) (pkt : Packet) : Packet :=
  if config.markingScheme = latencyMarking then
    let sojournTime := now - pkt.timestamp
    let latencyThresh : ℚ :=
      if 0 < config.linkCapacity then
        (config.thresh * config.meanPktsize * 8 : Int) / config.linkCapacity
      else 0
    let marked := if pkt.ect ∧ latencyThresh < sojournTime then { pkt with ce := true } else pkt
    { marked with timestamp := 0 }
  else pkt

/-! ### Enque -/

/-- The queue of a packet: the last one for a priority out of range. -/
def classify (config : Config) (p : Packet) : Fin 64 :=
  if inside : 0 ≤ p.prio ∧ p.prio < config.queueNum then
    ⟨p.prio.toNat, config.toNat_lt inside.2⟩
  else ⟨config.queueNum - 1, config.pred_lt⟩

/-- `PacketQueue::enque` on one of the queues. -/
def push (i : Fin 64) (p : Packet) (q : PriorityQueue) : PriorityQueue :=
  { q with queues := Function.update q.queues i (q.queues i ++ [p]) }

/-- `Priority::enque`, with whether the packet was taken. The queue holds the packet itself, so
it holds it as the marking leaves it. -/
def enque (config : Config) (now : ℚ) (p : Packet) (q : PriorityQueue) :
    Option (PriorityQueue × Bool) :=
  if config.qlim * config.meanPktsize < totalByteLength q + p.size then some (q, false)
  else
    let i := classify config p
    (enqueMarking config now i p (push i p q)).map fun marked => (push i marked q, true)

/-! ### Deque -/

/-- The `for` loop of `Priority::deque`: the first queue up to `queue_num_` with a packet. -/
def select (config : Config) (q : PriorityQueue) : Option (Fin 64) :=
  (List.finRange 64).find? fun i =>
    decide ((i : Nat) < config.queueNum) && decide (0 < (q.queues i).length)

/-- The removal of the head `pkt` of a queue, which keeps `rest`, with the measurement of the
departure rate. -/
def pop (config : Config) (now : ℚ) (i : Fin 64) (pkt : Packet) (rest : List Packet)
    (q : PriorityQueue) : PriorityQueue where
  queues := Function.update q.queues i rest
  drains :=
    Function.update q.drains i
      ((q.drains i).measure config.dqThresh config.estimateRateAlpha config.linkCapacity now
        (byteLength rest) pkt.size)

/-- `Priority::deque`; a packet comes with the queue it was the head of. -/
def deque (config : Config) (now : ℚ) (q : PriorityQueue) :
    PriorityQueue × Option (Fin 64 × Packet) :=
  if 0 < totalByteLength q then
    match select config q with
    | none => (q, none)
    | some i =>
        match q.queues i with
        | [] => (q, none)
        | pkt :: rest => (pop config now i pkt rest q, some (i, dequeMarking config now pkt))
  else (q, none)

/-! ### The discipline as a transition system -/

/-- The bound variables, the discipline and the time of its last operation. -/
abbrev Sys := Discipline Config PriorityQueue

/-- A discipline just constructed. -/
def Initial (s : Sys) : Prop := s.q = construct

/-- One operation. The clock does not go back; there are no commands and no timer. -/
inductive Step : Sys → Event Empty → Sys → Prop
  | enque {s : Sys} {now : ℚ} {p : Packet} {q' : PriorityQueue} {taken : Bool}
      (later : s.clock ≤ now) (returns : enque s.config now p s.q = some (q', taken)) :
      Step s (.enque now p taken) ⟨s.config, q', now⟩
  | deque {s : Sys} {now : ℚ} {q' : PriorityQueue} {pkt : Option (Fin 64 × Packet)}
      (later : s.clock ≤ now) (returns : deque s.config now s.q = (q', pkt)) :
      Step s (.deque now pkt) ⟨s.config, q', now⟩

end MqEcn.Ns2.Priority
