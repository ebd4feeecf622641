import MqEcn.Library.FifoHistory
import MqEcn.Ns2.PacketQueue

/-!
Contract: the way of a packet through an NS2 discipline.

Owns: what the disciplines may do to a packet they store and send, how a discipline is read as
FIFOs that packets pass through, and what follows for its runs: every queue sends what it took,
in order, and where packets are marked by their sojourn time, each of them by the time it has
waited.

Does not own: any discipline's reading.
-/

set_option autoImplicit false

namespace MqEcn.Ns2

open MqEcn.Library.FifoHistory
open MqEcn.Library.Transition

/-! ### One packet -/

/-- The same packet, which may have been stamped, and marked if it is ECN-capable. -/
structure Carries (p carried : Packet) : Prop where
  size : carried.size = p.size
  prio : carried.prio = p.prio
  ect : carried.ect = p.ect
  kept : p.ce = true → carried.ce = true
  capable : carried.ce = true → p.ce = true ∨ p.ect = true

private theorem Carries.refl (p : Packet) : Carries p p := ⟨rfl, rfl, rfl, id, Or.inl⟩

private theorem Carries.trans {p stored sent : Packet} (first : Carries p stored)
    (second : Carries stored sent) : Carries p sent where
  size := second.size.trans first.size
  prio := second.prio.trans first.prio
  ect := second.ect.trans first.ect
  kept := fun marked => second.kept (first.kept marked)
  capable := fun marked => by
    rcases second.capable marked with stored | capable
    · exact first.capable stored
    · exact Or.inr (first.ect ▸ capable)

/-- The packet, or the packet with CE where it is ECN-capable. -/
def Remarked (p marked : Packet) : Prop :=
  marked = p ∨ p.ect = true ∧ marked = { p with ce := true }

private theorem Remarked.carries {p marked : Packet} (remarked : Remarked p marked) :
    Carries p marked := by
  rcases remarked with rfl | ⟨capable, rfl⟩
  · exact Carries.refl _
  · exact ⟨rfl, rfl, rfl, fun _ => rfl, fun _ => Or.inr capable⟩

theorem remarked_ite (marks : Prop) [Decidable marks] (p : Packet) :
    Remarked p (if marks ∧ p.ect then { p with ce := true } else p) := by
  split
  next both => exact Or.inr ⟨both.2, rfl⟩
  next => exact Or.inl rfl

/-- The packet with the time it was taken at, where it is ECN-capable. -/
def stamp (now : ℚ) (p : Packet) : Packet := if p.ect then { p with timestamp := now } else p

/-- The mark of a packet that leaves, by the time since its stamp. -/
def sojournMark (thresh now : ℚ) (pkt : Packet) : Packet :=
  { (if pkt.ect ∧ thresh < now - pkt.timestamp then { pkt with ce := true } else pkt) with
    timestamp := 0 }

private theorem stamp_carries (now : ℚ) (p : Packet) : Carries p (stamp now p) := by
  unfold stamp
  split
  · exact ⟨rfl, rfl, rfl, id, Or.inl⟩
  · exact Carries.refl p

private theorem sojournMark_carries (thresh now : ℚ) (pkt : Packet) :
    Carries pkt (sojournMark thresh now pkt) := by
  unfold sojournMark
  split
  next late => exact ⟨rfl, rfl, rfl, fun _ => rfl, fun _ => Or.inr late.1⟩
  next => exact ⟨rfl, rfl, rfl, id, Or.inl⟩

private theorem sojournMark_ce_iff (thresh now : ℚ) (pkt : Packet) :
    (sojournMark thresh now pkt).ce = true ↔
      pkt.ce = true ∨ pkt.ect = true ∧ thresh < now - pkt.timestamp := by
  unfold sojournMark
  by_cases late : pkt.ect = true ∧ thresh < now - pkt.timestamp
  · rw [if_pos late]
    exact iff_of_true rfl (Or.inr late)
  · rw [if_neg late]
    exact (or_iff_left late).symm

/-- What an enque stores. `latency` is the threshold of the sojourn time, where packets are
marked by it. -/
def StoredFrom : Option ℚ → ℚ × Packet → Packet → Prop
  | some _, arrival, stored => stored = stamp arrival.1 arrival.2
  | none, arrival, stored => Remarked arrival.2 stored

/-- What a deque sends. -/
def SentFrom : Option ℚ → Packet → ℚ × Packet → Prop
  | some thresh, stored, departure => departure.2 = sojournMark thresh departure.1 stored
  | none, stored, departure => Remarked stored departure.2

/-- What a deque hands out, and leaves in the queues: the head of one of them, or nothing. -/
def Hands {Queue : Type} [DecidableEq Queue] (latency : Option ℚ) (now : ℚ)
    (before after : Queue → List Packet) : Option (Queue × Packet) → Prop
  | none => after = before
  | some (queue, sent) => ∃ pkt rest, before queue = pkt :: rest ∧
      SentFrom latency pkt (now, sent) ∧ after = Function.update before queue rest

/-- The threshold of the sojourn time under `LATENCY_MARKING`: the time a capacity takes for the
bits of the port threshold. -/
def latencyOf (timed : Prop) [Decidable timed] (bits linkCapacity : ℚ) : Option ℚ :=
  if timed then some (if 0 < linkCapacity then bits / linkCapacity else 0) else none

section

variable {latency : Option ℚ} {arrival departure : ℚ × Packet} {stored : Packet}

theorem StoredFrom.carries (storing : StoredFrom latency arrival stored) :
    Carries arrival.2 stored := by
  cases latency with
  | none => exact Remarked.carries storing
  | some thresh =>
      rw [show stored = stamp arrival.1 arrival.2 from storing]
      exact stamp_carries _ _

private theorem SentFrom.carries (sending : SentFrom latency stored departure) :
    Carries stored departure.2 := by
  cases latency with
  | none => exact Remarked.carries sending
  | some thresh =>
      rw [show departure.2 = sojournMark thresh departure.1 stored from sending]
      exact sojournMark_carries _ _ _

/-- The mark goes by the time between the enque and the deque. -/
theorem ce_iff_of_latency {thresh : ℚ} (storing : StoredFrom (some thresh) arrival stored)
    (sending : SentFrom (some thresh) stored departure) :
    departure.2.ce = true ↔
      arrival.2.ce = true ∨ arrival.2.ect = true ∧ thresh < departure.1 - arrival.1 := by
  rw [show departure.2 = sojournMark thresh departure.1 stored from sending,
    sojournMark_ce_iff, show stored = stamp arrival.1 arrival.2 from storing]
  unfold stamp
  by_cases capable : arrival.2.ect = true
  · rw [if_pos capable]
  · rw [if_neg capable]
    exact or_congr_right (iff_of_false (fun late => capable late.1) fun late => capable late.1)

end

section

variable {timed : Prop} [Decidable timed] {bits linkCapacity now : ℚ} {p marked : Packet}

/-- The marking at the end of an enque. -/
theorem storedFrom_of_marks {marks : Option Bool}
    (returns : (if ¬timed then
        marks.map fun (mark : Bool) => if mark ∧ p.ect then { p with ce := true } else p
      else some (if p.ect then { p with timestamp := now } else p)) = some marked) :
    StoredFrom (latencyOf timed bits linkCapacity) (now, p) marked := by
  unfold latencyOf
  by_cases isTimed : timed
  · rw [if_neg (not_not_intro isTimed)] at returns
    rw [if_pos isTimed]
    exact (Option.some.inj returns).symm
  · rw [if_pos isTimed] at returns
    rw [if_neg isTimed]
    obtain ⟨mark, _, rfl⟩ := Option.map_eq_some_iff.mp returns
    exact remarked_ite _ _

/-- The marking in a deque. -/
theorem sentFrom_ite (timed : Prop) [Decidable timed] (bits linkCapacity now : ℚ)
    (pkt : Packet) :
    SentFrom (latencyOf timed bits linkCapacity) pkt
      (now, if timed then
        sojournMark (if 0 < linkCapacity then bits / linkCapacity else 0) now pkt else pkt) := by
  unfold latencyOf
  by_cases isTimed : timed
  · rw [if_pos isTimed, if_pos isTimed]
    rfl
  · rw [if_neg isTimed, if_neg isTimed]
    exact Or.inl rfl

end

/-! ### Events -/

/-- The packet an event took into the discipline, with the time. -/
def Event.accepted {Command Queue : Type} : Event Command Queue → Option (ℚ × Packet)
  | .enque now p true => some (now, p)
  | _ => none

/-- The packet an event sent, with its queue and the time. -/
def Event.sent {Command Queue : Type} : Event Command Queue → Option (Queue × ℚ × Packet)
  | .deque now (some (queue, pkt)) => some (queue, now, pkt)
  | _ => none

/-! ### A discipline -/

/-- A discipline as FIFOs: its bound variables, its clock and its queues, the queue it gives a
packet, the threshold of the sojourn time where it marks by that, and what its events say of a
packet that is taken, or sent. -/
structure Reading (Sys Label Config Queue : Type) where
  config : Sys → Config
  clock : Sys → ℚ
  fifo : Sys → Queue → List Packet
  classify : Config → Packet → Option Queue
  latency : Config → Option ℚ
  accepted : Label → Option (ℚ × Packet)
  sent : Label → Option (Queue × ℚ × Packet)

variable {Sys Label Config Queue : Type} [DecidableEq Queue]

/-- What one event does to the queues of a discipline. -/
inductive Reading.Moves (reading : Reading Sys Label Config Queue) (s s' : Sys) (label : Label) :
    Prop
  | accept {now : ℚ} {p stored : Packet} {queue : Queue}
      (accepts : reading.accepted label = some (now, p)) (silent : reading.sent label = none)
      (later : reading.clock s ≤ now) (clock : reading.clock s' = now)
      (same : reading.config s' = reading.config s)
      (target : reading.classify (reading.config s) p = some queue)
      (storing : StoredFrom (reading.latency (reading.config s)) (now, p) stored)
      (fifo : reading.fifo s' =
        Function.update (reading.fifo s) queue (reading.fifo s queue ++ [stored]))
  | send {now : ℚ} {sent stored : Packet} {rest : List Packet} {queue : Queue}
      (silent : reading.accepted label = none)
      (sends : reading.sent label = some (queue, now, sent))
      (later : reading.clock s ≤ now) (clock : reading.clock s' = now)
      (same : reading.config s' = reading.config s)
      (front : reading.fifo s queue = stored :: rest)
      (sending : SentFrom (reading.latency (reading.config s)) stored (now, sent))
      (fifo : reading.fifo s' = Function.update (reading.fifo s) queue rest)
  | rest (idle : reading.accepted label = none) (silent : reading.sent label = none)
      (later : reading.clock s ≤ reading.clock s') (same : reading.config s' = reading.config s)
      (fifo : reading.fifo s' = reading.fifo s)

namespace Reading

variable {reading : Reading Sys Label Config Queue} {step : Sys → Label → Sys → Prop} {s s' : Sys}
  {label : Label} {queue : Queue}

/-- The packet an event puts into `queue`, with the time. -/
def arrivals (reading : Reading Sys Label Config Queue) (queue : Queue) (config : Config)
    (label : Label) : List (ℚ × Packet) :=
  (reading.accepted label).toList.filter fun arrival =>
    decide (reading.classify config arrival.2 = some queue)

/-- The packet an event sends from `queue`, with the time. -/
def departures (reading : Reading Sys Label Config Queue) (queue : Queue) (label : Label) :
    List (ℚ × Packet) :=
  ((reading.sent label).toList.filter fun departure => decide (departure.1 = queue)).map Prod.snd

/-- A queue of the discipline as a buffer with a clock. -/
def buffer (reading : Reading Sys Label Config Queue) (queue : Queue) :
    Buffer Sys Label Config ℚ (ℚ × Packet) Packet (ℚ × Packet) where
  context := reading.config
  clock := reading.clock
  content := fun s => reading.fifo s queue
  next := fun config _ => config
  arrive := reading.arrivals queue
  depart := reading.departures queue
  arrived := Prod.fst
  departed := Prod.fst

theorem Moves.config_eq (moves : reading.Moves s s' label) :
    reading.config s' = reading.config s := by
  cases moves <;> assumption

private theorem Moves.clock_le (moves : reading.Moves s s' label) :
    reading.clock s ≤ reading.clock s' := by
  cases moves with
  | accept _ _ later clock | send _ _ later clock => exact clock ▸ later
  | rest _ _ later => exact later

private theorem Moves.arrived (moves : reading.Moves s s' label) (queue : Queue) :
    ∀ arrival ∈ reading.arrivals queue (reading.config s) label,
      arrival.1 ≤ reading.clock s' := by
  intro arrival member
  obtain ⟨taken, _⟩ := List.mem_filter.mp member
  cases moves with
  | accept accepts silent later clock =>
      rw [accepts, Option.toList_some, List.mem_singleton] at taken
      rw [taken, clock]
  | send silent | rest silent =>
      rw [silent] at taken
      exact absurd taken List.not_mem_nil

private theorem Moves.departed (moves : reading.Moves s s' label) (queue : Queue) :
    ∀ departure ∈ reading.departures queue label, reading.clock s' ≤ departure.1 := by
  intro departure member
  obtain ⟨served, taken, rfl⟩ := List.mem_map.mp member
  obtain ⟨left, _⟩ := List.mem_filter.mp taken
  cases moves with
  | send silent sends later clock =>
      rw [sends, Option.toList_some, List.mem_singleton] at left
      rw [left, clock]
  | accept _ silent | rest _ silent =>
      rw [silent] at left
      exact absurd left List.not_mem_nil

private theorem Moves.passes (moves : reading.Moves s s' label) (queue : Queue) :
    Passes (StoredFrom (reading.latency (reading.config s)))
      (SentFrom (reading.latency (reading.config s))) (reading.fifo s queue)
      (reading.arrivals queue (reading.config s) label) (reading.departures queue label)
      (reading.fifo s' queue) := by
  unfold arrivals departures
  cases moves with
  | @accept now p stored chosen accepts silent later clock same target storing fifo =>
      rw [accepts, silent, fifo]
      by_cases own : queue = chosen
      · subst own
        simp only [Option.toList_some, Option.toList_none, target, decide_true,
          List.filter_singleton, cond_true, List.filter_nil, List.map_nil, Function.update_self]
        exact Passes.accept storing _
      · have other : reading.classify (reading.config s) p ≠ some queue := by
          rw [target]
          exact fun same => own (Option.some.inj same).symm
        simp only [Option.toList_some, Option.toList_none, other, decide_false,
          List.filter_singleton, cond_false, List.filter_nil, List.map_nil,
          Function.update_of_ne own]
        exact Passes.stay _
  | @send now sent stored rest served silent sends later clock same front sending fifo =>
      rw [silent, sends, fifo]
      by_cases own : queue = served
      · subst own
        simp only [Option.toList_some, Option.toList_none, decide_true, List.filter_singleton,
          cond_true, List.filter_nil, List.map_cons, List.map_nil, Function.update_self, front]
        exact Passes.depart sending _
      · simp only [Option.toList_some, Option.toList_none, Ne.symm own, decide_false,
          List.filter_singleton, cond_false, List.filter_nil, List.map_nil,
          Function.update_of_ne own]
        exact Passes.stay _
  | rest idle silent later same fifo =>
      rw [idle, silent, fifo]
      exact Passes.stay _

/-! ### Delivery -/

/-- What `queue` has taken is, in order, what it has sent and what it holds; a packet that was
taken and the packet that was sent for it are `passed`, and one that waits is `held`. -/
def Delivers (reading : Reading Sys Label Config Queue)
    (passed : ℚ × Packet → ℚ × Packet → Prop) (held : ℚ × Packet → Packet → Prop) (queue : Queue)
    (start : Sys) (labels : List Label) (last : Sys) : Prop :=
  ∃ sent waiting, labels.flatMap (reading.arrivals queue (reading.config start)) =
      sent ++ waiting ∧
    List.Forall₂ passed sent (labels.flatMap (reading.departures queue)) ∧
    List.Forall₂ held waiting (reading.fifo last queue)

theorem Delivers.mono {passed passed' : ℚ × Packet → ℚ × Packet → Prop}
    {held held' : ℚ × Packet → Packet → Prop} {start last : Sys} {labels : List Label}
    (delivers : reading.Delivers passed held queue start labels last)
    (passedWeaker : ∀ arrival departure, passed arrival departure → passed' arrival departure)
    (heldWeaker : ∀ arrival stored, held arrival stored → held' arrival stored) :
    reading.Delivers passed' held' queue start labels last := by
  obtain ⟨sent, waiting, split, delivered, waits⟩ := delivers
  exact ⟨sent, waiting, split, delivered.imp passedWeaker, waits.imp heldWeaker⟩

/-- What passes a queue is stored and sent under one threshold, and sent no earlier than it was
taken. -/
def Through (latency : Option ℚ) (arrival departure : ℚ × Packet) : Prop :=
  Relation.Comp (StoredFrom latency) (SentFrom latency) arrival departure ∧
    arrival.1 ≤ departure.1

theorem delivers_of_moves (moves : ∀ {s label s'}, step s label s' → reading.Moves s s' label)
    {start last : Sys} {labels : List Label} (run : Run step start labels last)
    (empty : reading.fifo start queue = []) :
    reading.Delivers (Through (reading.latency (reading.config start)))
      (StoredFrom (reading.latency (reading.config start))) queue start labels last := by
  have fixed :
      RunWithin (fun s => reading.config s = reading.config start) step start labels last :=
    .of_preserved run rfl fun taken same => ((moves taken).config_eq).trans same
  have keeps : (reading.buffer queue).Keeps
      (StoredFrom (reading.latency (reading.config start)))
      (SentFrom (reading.latency (reading.config start)))
      (Within (fun s => reading.config s = reading.config start) step) :=
    { context := fun taken => (moves taken.2.1).config_eq
      passes := fun taken => taken.1 ▸ (moves taken.2.1).passes queue
      clock := fun taken => (moves taken.2.1).clock_le
      arrived := fun taken => (moves taken.2.1).arrived queue
      departed := fun taken => (moves taken.2.1).departed queue }
  obtain ⟨sent, waiting, split, delivered, held⟩ := keeps.of_empty fixed.2 empty
  refine ⟨sent, waiting, ?_, delivered, held⟩
  rw [← split]
  exact (gather_fixed _ _ _).symm

/-- The same packet, sent no earlier than it was taken. -/
def Passed (arrival departure : ℚ × Packet) : Prop :=
  arrival.1 ≤ departure.1 ∧ Carries arrival.2 departure.2

/-- The same packet. -/
def Held (arrival : ℚ × Packet) (stored : Packet) : Prop := Carries arrival.2 stored

/-- The same packet, with CE exactly if it came with it or, being ECN-capable, waited for longer
than `thresh`. -/
def PassedTimed (thresh : ℚ) (arrival departure : ℚ × Packet) : Prop :=
  Passed arrival departure ∧
    (departure.2.ce = true ↔
      arrival.2.ce = true ∨ arrival.2.ect = true ∧ thresh < departure.1 - arrival.1)

theorem Through.passed {latency : Option ℚ} {arrival departure : ℚ × Packet}
    (through : Through latency arrival departure) : Passed arrival departure := by
  obtain ⟨⟨stored, storing, sending⟩, causal⟩ := through
  exact ⟨causal, storing.carries.trans sending.carries⟩

theorem Through.passedTimed {thresh : ℚ} {arrival departure : ℚ × Packet}
    (through : Through (some thresh) arrival departure) :
    PassedTimed thresh arrival departure := by
  refine ⟨through.passed, ?_⟩
  obtain ⟨⟨stored, storing, sending⟩, _⟩ := through
  exact ce_iff_of_latency storing sending

end Reading

end MqEcn.Ns2
