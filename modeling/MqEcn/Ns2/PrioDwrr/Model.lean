import MqEcn.Ns2.Dwrr.Model

/-!
Contract: the embedding of `prio_dwrr/prio_dwrr.h` and `prio_dwrr/prio_dwrr.cc`.

Owns: the priority queues in front of a DWRR discipline, `enque`, `deque`, the commands and
the timer of the whole, and its step relation.

The variables and the code `PRIO_DWRR` shares with `DWRR` word for word are those of the DWRR
discipline. `exit(1)`, the use of a NULL head and a loop that has not come to its end are
`none`. Traces and debug prints are left out.

Does not own: any property.
-/

set_option autoImplicit false

namespace MqEcn.Ns2.PrioDwrr

open MqEcn.Ns2.Dwrr

/-! ### State -/

/-- `MAX_PRIO_QUEUE_NUM`. -/
def maxPrioQueueNum : Nat := 8

/-- `MAX_DWRR_QUEUE_NUM`. -/
def maxDwrrQueueNum : Nat := 64

/-- The bound variables of PRIO_DWRR, with numbers of queues that fit the arrays. -/
structure Config extends Tuning where
  prioQueueNum : Nat
  dwrrQueueNum : Nat
  prioQueueNum_range : 1 ≤ prioQueueNum ∧ prioQueueNum ≤ maxPrioQueueNum
  dwrrQueueNum_range : 1 ≤ dwrrQueueNum ∧ dwrrQueueNum ≤ maxDwrrQueueNum

/-- `queue_num_`. -/
def Config.queueNum (config : Config) : Nat := config.dwrrQueueNum + config.prioQueueNum

theorem Config.prio_lt (config : Config) {index : Nat} (inside : index < config.prioQueueNum) :
    index < 8 := by
  have range := config.prioQueueNum_range.2
  unfold maxPrioQueueNum at range
  omega

theorem Config.dwrr_lt (config : Config) {index : Nat} (inside : index < config.dwrrQueueNum) :
    index < 64 := by
  have range := config.dwrrQueueNum_range.2
  unfold maxDwrrQueueNum at range
  omega

/-- `PacketPRIO`. Its `id` is its index in `prio_queues`. -/
structure PacketPrio where
  thresh : ℚ
  drain : DrainRate
  packets : List Packet

/-- `PRIO_DWRR`. `dwrr` holds `dwrr_queues` and all it has in common with `DWRR`. -/
structure PrioDwrrQueue where
  prioQueues : Fin 8 → PacketPrio
  dwrr : DwrrQueue

/-- The priority queue served first. -/
def highest : Fin 8 := ⟨0, by decide⟩

/-- `PRIO_DWRR::PRIO_DWRR` and `PacketPRIO::PacketPRIO`. -/
def construct : PrioDwrrQueue where
  prioQueues := fun _ => { thresh := 0, drain := DrainRate.initial, packets := [] }
  dwrr := Dwrr.construct

/-- The values `PRIO_DWRR::PRIO_DWRR` gives the bound variables, with a limit of 50 packets. -/
def defaultConfig : Config where
  toTuning := Dwrr.defaultConfig.toTuning
  prioQueueNum := 1
  dwrrQueueNum := 7
  prioQueueNum_range := by decide
  dwrrQueueNum_range := by decide

/-- `PRIO_DWRR::Total_DWRR_ByteLength`. -/
def totalDwrrByteLength (q : PrioDwrrQueue) : Nat :=
  ((List.finRange 64).map fun i => byteLength (q.dwrr.queues i).packets).sum

/-- `PRIO_DWRR::Total_Prio_ByteLength`. -/
def totalPrioByteLength (q : PrioDwrrQueue) : Nat :=
  ((List.finRange 8).map fun i => byteLength (q.prioQueues i).packets).sum

/-- `PRIO_DWRR::TotalByteLength`. -/
def totalByteLength (q : PrioDwrrQueue) : Nat := totalDwrrByteLength q + totalPrioByteLength q

/-! ### ECN marking -/

/-- The queue of an index: `prio_queues` first, then `dwrr_queues`; `none` is `exit(1)`. -/
def queueOf (config : Config) (index : Nat) : Option (Fin 8 ⊕ Fin 64) :=
  if isPrio : index < config.prioQueueNum then some (.inl ⟨index, config.prio_lt isPrio⟩)
  else if isDwrr : index - config.prioQueueNum < config.dwrrQueueNum then
    some (.inr ⟨index - config.prioQueueNum, config.dwrr_lt isDwrr⟩)
  else none

/-- `PRIO_DWRR::MarkingECN`. -/
def markingEcn (config : Config) (q : PrioDwrrQueue) (index : Nat) : Option Bool :=
  let exceeds := fun (bytes : Nat) (thresh : ℚ) => decide (thresh * config.meanPktsize < bytes)
  let drains := fun (drain : DrainRate) =>
    if 1 / 1000000000 ≤ drain.avgDqRate ∧ 0 < config.linkCapacity then
      min (drain.avgDqRate / config.linkCapacity) 1 * config.portThresh
    else config.portThresh
  (queueOf config index).map fun queue =>
    match queue with
    | .inl i =>
        let cl := q.prioQueues i
        if config.markingScheme = perPortMarking then
          exceeds (totalByteLength q) config.portThresh
        else if config.markingScheme = perQueueMarking ∨
            config.markingScheme = mqMarkingGener ∨ config.markingScheme = mqMarkingRr then
          exceeds (byteLength cl.packets) cl.thresh
        else if config.markingScheme = pieMarking then
          exceeds (byteLength cl.packets) (drains cl.drain)
        else false
    | .inr i =>
        let cl := q.dwrr.queues i
        if config.markingScheme = perQueueMarking then
          exceeds (byteLength cl.packets) cl.thresh
        else if config.markingScheme = perPortMarking then
          exceeds (totalByteLength q) config.portThresh
        else if config.markingScheme = mqMarkingGener then
          let thresh :=
            if 1 / 1000000000 ≤ q.dwrr.quantumSumEstimate then
              min (cl.quantum / q.dwrr.quantumSumEstimate) 1 * config.portThresh
            else config.portThresh
          exceeds (byteLength cl.packets) thresh
        else if config.markingScheme = mqMarkingRr then
          let thresh :=
            if 1 / 1000000000 ≤ q.dwrr.roundTime ∧ 0 < config.linkCapacity then
              min (cl.quantum * 8 / q.dwrr.roundTime / config.linkCapacity) 1 * config.portThresh
            else config.portThresh
          exceeds (byteLength cl.packets) thresh
        else if config.markingScheme = pieMarking then
          exceeds (byteLength cl.packets) (drains cl.drain)
        else false

/-- The marking at the end of `PRIO_DWRR::enque`, where `q` holds the packet already. -/
def enqueMarking (config : Config) (now : ℚ) (index : Nat) (p : Packet) (q : PrioDwrrQueue) :
    Option Packet :=
  if config.markingScheme ≠ latencyMarking then
    (markingEcn config q index).map fun (marks : Bool) =>
      if marks ∧ p.ect then { p with ce := true } else p
  else some (if p.ect then { p with timestamp := now } else p)

/-- The marking in `PRIO_DWRR::deque`. -/
def dequeMarking (config : Config) (now : ℚ) (pkt : Packet) : Packet :=
  if config.markingScheme = latencyMarking then latencyMark config.toTuning now pkt else pkt

/-! ### Enque -/

/-- The index of a packet: the last one for a priority out of range. -/
def queueIndex (config : Config) (p : Packet) : Nat :=
  if 0 ≤ p.prio ∧ p.prio < config.queueNum then p.prio.toNat else config.queueNum - 1

/-- `PacketQueue::enque` on a priority queue. -/
def pushPrio (i : Fin 8) (p : Packet) (q : PrioDwrrQueue) : PrioDwrrQueue :=
  { q with
    prioQueues :=
      Function.update q.prioQueues i
        { q.prioQueues i with packets := (q.prioQueues i).packets ++ [p] } }

/-- `PacketQueue::enque` on a DWRR queue. -/
def pushDwrr (i : Fin 64) (p : Packet) (q : PrioDwrrQueue) : PrioDwrrQueue :=
  { q with dwrr := push i p q.dwrr }

/-- The body of `PRIO_DWRR::enque` for a packet that is not dropped. The queue holds the packet
itself, so it holds it as the marking leaves it. -/
def admission (config : Config) (now : ℚ) (p : Packet) (q : PrioDwrrQueue) :
    Option PrioDwrrQueue :=
  let index := queueIndex config p
  match queueOf config index with
  | none => none
  | some (.inl i) =>
      (enqueMarking config now index p (pushPrio i p q)).map fun marked => pushPrio i marked q
  | some (.inr i) =>
      (activate now i q.dwrr).bind fun activated =>
        let q' := { q with dwrr := activated }
        (enqueMarking config now index p (pushDwrr i p q')).map fun marked => pushDwrr i marked q'

/-- The start of the timer and the decay of the estimates in `PRIO_DWRR::enque`. -/
def settle (pow : ℚ → ℚ → ℚ) (config : Config) (now : ℚ) (q : PrioDwrrQueue) : PrioDwrrQueue :=
  { q with
    dwrr :=
      decayIdle pow config.toTuning now (totalDwrrByteLength q = 0)
        (startTimer config.toTuning q.dwrr) }

/-- `PRIO_DWRR::enque`, with whether the packet was taken. -/
def enque (pow : ℚ → ℚ → ℚ) (config : Config) (now : ℚ) (p : Packet) (q : PrioDwrrQueue) :
    Option (PrioDwrrQueue × Bool) :=
  let q := settle pow config now q
  if config.qlim * config.meanPktsize < totalByteLength q + p.size then some (q, false)
  else (admission config now p q).map fun q' => (q', true)

/-! ### Deque -/

/-- The removal of the head packet of a priority queue, which leaves `rest`. -/
def servePrio (config : Config) (now : ℚ) (i : Fin 8) (pkt : Packet) (rest : List Packet)
    (q : PrioDwrrQueue) : PrioDwrrQueue :=
  let cl := q.prioQueues i
  { q with
    prioQueues :=
      Function.update q.prioQueues i
        { cl with
          packets := rest
          drain :=
            cl.drain.measure config.dqThresh config.estimateRateAlpha config.linkCapacity now
              (byteLength rest) pkt.size } }

/-- The first of the priority queues in use that holds a packet. -/
def firstPrio (config : Config) (q : PrioDwrrQueue) : Option (Fin 8 × Packet × List Packet) :=
  ((List.finRange 8).filter fun i : Fin 8 => decide ((i : Nat) < config.prioQueueNum)).findSome?
    fun i =>
    match (q.prioQueues i).packets with
    | [] => none
    | pkt :: rest => some (i, pkt, rest)

/-- The branch of `PRIO_DWRR::deque` for the priority queues. -/
def dequePrio (config : Config) (now : ℚ) (q : PrioDwrrQueue) :
    PrioDwrrQueue × Option ((Fin 8 ⊕ Fin 64) × Packet) :=
  match firstPrio config q with
  | none => (q, none)
  | some (i, pkt, rest) =>
      (servePrio config now i pkt rest q, some (.inl i, dequeMarking config now pkt))

/-- The branch of `PRIO_DWRR::deque` for the DWRR queues. -/
def dequeDwrr (config : Config) (now : ℚ) (fuel : Nat) (q : DwrrQueue) :
    Option (DwrrQueue × Option ((Fin 8 ⊕ Fin 64) × Packet)) :=
  (select config.toTuning now fuel q).bind fun selected =>
    let choice := selected.2
    (retire config.toTuning now choice
      (measure config.toTuning now choice (pop choice selected.1))).map fun q' =>
        (q', some (.inr choice.queue, dequeMarking config now choice.pkt))

/-- The end of `PRIO_DWRR::deque` where no priority queue holds a packet. -/
def finishIdle (config : Config) (now : ℚ) (q : PrioDwrrQueue) : PrioDwrrQueue :=
  { q with dwrr := finish config.toTuning now (totalDwrrByteLength q = 0) q.dwrr }

/-- `PRIO_DWRR::deque`; a packet comes with the queue it was the head of. -/
def deque (config : Config) (now : ℚ) (fuel : Nat) (q : PrioDwrrQueue) :
    Option (PrioDwrrQueue × Option ((Fin 8 ⊕ Fin 64) × Packet)) :=
  if 0 < totalPrioByteLength q then some (dequePrio config now q)
  else if 0 < totalDwrrByteLength q then
    (dequeDwrr config now fuel q.dwrr).map fun answer =>
      (finishIdle config now { q with dwrr := answer.1 }, answer.2)
  else some (finishIdle config now q, none)

/-! ### Commands -/

/-- `set-quantum`. -/
def setQuantum (config : Config) (queueId quantum : Int) (q : PrioDwrrQueue) :
    Option PrioDwrrQueue :=
  let index := queueId - config.prioQueueNum
  if inside : 0 ≤ index ∧ index.toNat < config.dwrrQueueNum then
    if 0 < quantum then
      let i : Fin 64 := ⟨index.toNat, config.dwrr_lt inside.2⟩
      some
        { q with
          dwrr :=
            { q.dwrr with
              queues := Function.update q.dwrr.queues i { q.dwrr.queues i with quantum } } }
    else none
  else none

/-- `set-thresh`. -/
def setThresh (config : Config) (queueId : Int) (thresh : ℚ) (q : PrioDwrrQueue) :
    Option PrioDwrrQueue :=
  if 0 ≤ queueId ∧ 0 ≤ thresh then
    (queueOf config queueId.toNat).map fun queue =>
      match queue with
      | .inl i =>
          { q with prioQueues := Function.update q.prioQueues i { q.prioQueues i with thresh } }
      | .inr i =>
          { q with
            dwrr :=
              { q.dwrr with
                queues := Function.update q.dwrr.queues i { q.dwrr.queues i with thresh } } }
  else none

/-- `PRIO_DWRR::command`. -/
def command (config : Config) (q : PrioDwrrQueue) : Command → Option PrioDwrrQueue
  | .setQuantum queueId quantum => setQuantum config queueId quantum q
  | .setThresh queueId thresh => setThresh config queueId thresh q

/-! ### The discipline as a transition system -/

/-- One event of the discipline, with what it returned. -/
abbrev Event := Ns2.Event Command (Fin 8 ⊕ Fin 64)

/-- The bound variables, the discipline and the time of its last operation. -/
abbrev Sys := Discipline Config PrioDwrrQueue

/-- A discipline just constructed. -/
def Initial (s : Sys) : Prop := s.q = construct

/-- One operation. The clock does not go back. -/
inductive Step (pow : ℚ → ℚ → ℚ) : Sys → Event → Sys → Prop
  | enque {s : Sys} {now : ℚ} {p : Packet} {q' : PrioDwrrQueue} {taken : Bool}
      (later : s.clock ≤ now) (returns : enque pow s.config now p s.q = some (q', taken)) :
      Step pow s (.enque now p taken) ⟨s.config, q', now⟩
  | deque {s : Sys} {now : ℚ} {fuel : Nat} {q' : PrioDwrrQueue}
      {pkt : Option ((Fin 8 ⊕ Fin 64) × Packet)} (later : s.clock ≤ now)
      (returns : deque s.config now fuel s.q = some (q', pkt)) :
      Step pow s (.deque now pkt) ⟨s.config, q', now⟩
  | command {s : Sys} {request : Command} {q' : PrioDwrrQueue}
      (returns : command s.config s.q request = some q') :
      Step pow s (.command request) ⟨s.config, q', s.clock⟩
  | timeout {s : Sys} {now : ℚ} (later : s.clock ≤ now) (pending : s.q.dwrr.timer = true) :
      Step pow s (.timeout now)
        ⟨s.config, { s.q with dwrr := timeout s.config.toTuning s.q.dwrr }, now⟩

/-- The states some sequence of operations reaches from a fresh discipline. -/
abbrev Reachable (pow : ℚ → ℚ → ℚ) : Sys → Prop :=
  MqEcn.Library.Transition.Reachable Initial (Step pow)

end MqEcn.Ns2.PrioDwrr
