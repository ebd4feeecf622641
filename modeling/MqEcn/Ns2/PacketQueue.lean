import Mathlib.Algebra.Order.Field.Rat
import Mathlib.Data.List.FinRange

/-!
Contract: what the NS2 queue disciplines share.

Owns: the packet headers they read and write, the bytes of a FIFO, the departure-rate
measurement that is the same code in every discipline, the events of a discipline with what
they say about the bytes taken and sent, and its step as a function of the event.

`double` and `long double` are read as exact rationals, `int` as an integer that does not
overflow.

Does not own: any discipline.
-/

set_option autoImplicit false

namespace MqEcn.Ns2

/-- There are queues: `MAX_QUEUE_NUM` of them. -/
instance neZero_sixtyFour : NeZero 64 := ⟨by decide⟩

/-- `hdr_ip`, `hdr_cmn` and `hdr_flags` of a packet, as far as a queue uses them. -/
structure Packet where
  prio : Int
  size : Nat
  ect : Bool
  ce : Bool
  timestamp : ℚ
  size_pos : 0 < size
deriving DecidableEq

/-- A packet of 1500 bytes is not empty. -/
theorem fullSize_pos : 0 < 1500 := by decide

/-- `PacketQueue::byteLength`. -/
def byteLength (packets : List Packet) : Nat := (packets.map Packet.size).sum

@[simp] theorem byteLength_nil : byteLength [] = 0 := rfl

@[simp] theorem byteLength_cons (pkt : Packet) (packets : List Packet) :
    byteLength (pkt :: packets) = pkt.size + byteLength packets := rfl

theorem byteLength_append (packets more : List Packet) :
    byteLength (packets ++ more) = byteLength packets + byteLength more := by
  unfold byteLength
  rw [List.map_append, List.sum_append]

/-- A FIFO without bytes is empty. -/
theorem byteLength_eq_zero_iff {packets : List Packet} : byteLength packets = 0 ↔ packets = [] := by
  cases packets with
  | nil => simp
  | cons pkt rest =>
      have positive := pkt.size_pos
      simp only [byteLength_cons, reduceCtorEq, iff_false]
      omega

/-! ### Departure rate -/

/-- `DQ_COUNT_INVALID`. -/
def dqCountInvalid : Int := -1

/-- `dq_tstamp`, `dq_count` and `avg_dq_rate` of a queue. -/
structure DrainRate where
  dqTstamp : ℚ
  dqCount : Int
  avgDqRate : ℚ

def DrainRate.initial : DrainRate := ⟨0, dqCountInvalid, -1⟩

/-- The measurement in `deque`, after a packet of `pktSize` bytes has left `remaining`
bytes in the queue. -/
def DrainRate.measure (dqThresh : Int) (estimateRateAlpha linkCapacity now : ℚ)
    (remaining pktSize : Nat) (rate : DrainRate) : DrainRate :=
  let started : DrainRate :=
    if dqThresh ≤ remaining ∧ rate.dqCount = dqCountInvalid then
      { rate with dqTstamp := now, dqCount := 0 }
    else rate
  if started.dqCount = dqCountInvalid then started
  else
    let dqCount := started.dqCount + pktSize
    if dqCount < dqThresh then { started with dqCount }
    else
      -- the transmission time of the packet is taken into account
      let transmission := (pktSize : ℚ) * 8 / linkCapacity
      let interval := now - started.dqTstamp + transmission
      let sample := (dqCount : ℚ) * 8 / interval
      let avgDqRate :=
        if started.avgDqRate < 0 then sample
        else started.avgDqRate * estimateRateAlpha + sample * (1 - estimateRateAlpha)
      if (remaining : Int) < dqThresh then { started with dqCount := dqCountInvalid, avgDqRate }
      else { dqTstamp := now + transmission, dqCount := 0, avgDqRate }

/-! ### Events -/

/-- One event of a discipline, with what it returned; a packet that is sent comes with the
queue it was the head of. -/
inductive Event (Command : Type) (Queue : Type := Fin 64) where
  | enque (now : ℚ) (p : Packet) (taken : Bool)
  | deque (now : ℚ) (pkt : Option (Queue × Packet))
  | command (command : Command)
  | timeout (now : ℚ)

section

variable {Command Queue : Type}

/-- Bytes of the packet an event took into the discipline. -/
def Event.takenSize : Event Command Queue → Nat
  | .enque _ p true => p.size
  | _ => 0

/-- `Lmax`: the largest packet taken over a list of events. -/
def largestSize (events : List (Event Command Queue)) : Nat :=
  (events.map Event.takenSize).foldr max 0

theorem takenSize_le_largestSize {events : List (Event Command Queue)}
    {event : Event Command Queue} (member : event ∈ events) :
    event.takenSize ≤ largestSize events := by
  induction events with
  | nil => exact absurd member List.not_mem_nil
  | cons head tail inductionHypothesis =>
      rcases List.mem_cons.mp member with rfl | inside
      · exact le_max_left _ _
      · exact (inductionHypothesis inside).trans (le_max_right _ _)

variable [DecidableEq Queue]

/-- Bytes an event sent from a queue. -/
def Event.sentFrom (queue : Queue) : Event Command Queue → Nat
  | .deque _ (some (served, pkt)) => if served = queue then pkt.size else 0
  | _ => 0

/-- `S_i`: bytes sent from a queue over a list of events. -/
def sentBytes (queue : Queue) (events : List (Event Command Queue)) : Nat :=
  (events.map (Event.sentFrom queue)).sum

@[simp] theorem sentBytes_nil (queue : Queue) :
    sentBytes queue ([] : List (Event Command Queue)) = 0 := rfl

@[simp] theorem sentBytes_cons (queue : Queue) (event : Event Command Queue)
    (events : List (Event Command Queue)) :
    sentBytes queue (event :: events) = event.sentFrom queue + sentBytes queue events := rfl

end

/-! ### The step as a function -/

/-- The bound variables of a discipline, the discipline and the time of its last operation. -/
structure Discipline (Config Queues : Type) where
  config : Config
  q : Queues
  clock : ℚ

/-- The operations of a discipline. `timeout` is that of a pending timer. -/
structure Operations (Config Queues Command : Type) (Queue : Type := Fin 64) where
  enque : Config → ℚ → Packet → Queues → Option (Queues × Bool)
  deque : Config → ℚ → Queues → Option (Queues × Option (Queue × Packet))
  command : Config → Queues → Command → Option Queues
  timer : Queues → Bool
  timeout : Config → Queues → Queues

namespace Operations

variable {Config Queues Command Queue : Type}

/-- The state an event leads to, where the discipline answers as the event says. -/
def next [DecidableEq Queue] (operations : Operations Config Queues Command Queue)
    (s : Discipline Config Queues) : Event Command Queue → Option (Discipline Config Queues)
  | .enque now p taken =>
      (operations.enque s.config now p s.q).bind fun answer =>
        if s.clock ≤ now ∧ answer.2 = taken then some ⟨s.config, answer.1, now⟩ else none
  | .deque now pkt =>
      (operations.deque s.config now s.q).bind fun answer =>
        if s.clock ≤ now ∧ answer.2 = pkt then some ⟨s.config, answer.1, now⟩ else none
  | .command request =>
      (operations.command s.config s.q request).map fun q' => ⟨s.config, q', s.clock⟩
  | .timeout now =>
      if s.clock ≤ now ∧ operations.timer s.q = true then
        some ⟨s.config, operations.timeout s.config s.q, now⟩
      else none

/-- Every operation is a step. -/
structure Follow (operations : Operations Config Queues Command Queue)
    (step : Discipline Config Queues → Event Command Queue → Discipline Config Queues → Prop) :
    Prop where
  enque : ∀ {s now p q' taken}, s.clock ≤ now →
    operations.enque s.config now p s.q = some (q', taken) →
    step s (.enque now p taken) ⟨s.config, q', now⟩
  deque : ∀ {s now q' pkt}, s.clock ≤ now →
    operations.deque s.config now s.q = some (q', pkt) →
    step s (.deque now pkt) ⟨s.config, q', now⟩
  command : ∀ {s request q'}, operations.command s.config s.q request = some q' →
    step s (.command request) ⟨s.config, q', s.clock⟩
  timeout : ∀ {s now}, s.clock ≤ now → operations.timer s.q = true →
    step s (.timeout now) ⟨s.config, operations.timeout s.config s.q, now⟩

theorem Follow.next_sound [DecidableEq Queue]
    {operations : Operations Config Queues Command Queue}
    {step : Discipline Config Queues → Event Command Queue → Discipline Config Queues → Prop}
    (follow : operations.Follow step) {s s' : Discipline Config Queues}
    {event : Event Command Queue} (answers : operations.next s event = some s') :
    step s event s' := by
  cases event with
  | enque now p taken =>
      simp only [next, Option.bind_eq_some_iff, Option.ite_none_right_eq_some,
        Option.some.injEq] at answers
      obtain ⟨answer, returns, ⟨later, rfl⟩, rfl⟩ := answers
      exact follow.enque later returns
  | deque now pkt =>
      simp only [next, Option.bind_eq_some_iff, Option.ite_none_right_eq_some,
        Option.some.injEq] at answers
      obtain ⟨answer, returns, ⟨later, rfl⟩, rfl⟩ := answers
      exact follow.deque later returns
  | command request =>
      simp only [next, Option.map_eq_some_iff] at answers
      obtain ⟨q', returns, rfl⟩ := answers
      exact follow.command returns
  | timeout now =>
      simp only [next, Option.ite_none_right_eq_some, Option.some.injEq] at answers
      obtain ⟨⟨later, pending⟩, rfl⟩ := answers
      exact follow.timeout later pending

end Operations

end MqEcn.Ns2
