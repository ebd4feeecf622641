import MqEcn.Kernel.Qdisc
import MqEcn.Kernel.Sysctl
import MqEcn.Library.FifoHistory

/-!
Contract: the way of a packet through a kernel scheduler.

Owns: what the schedulers may do to a packet they store and return, what an event hands to a
queue and takes from it, how a module is read as FIFOs that packets pass through, and what
follows for its runs: every queue delivers what it accepted, in order, and while a latency
scheme is in force it marks each packet by the time it has waited.

Does not own: any module's reading.
-/

set_option autoImplicit false

namespace MqEcn.Kernel

open MqEcn.Kernel.Sysctl (Handler Settings)
open MqEcn.Library.FifoHistory
open MqEcn.Library.Transition

/-! ### One packet -/

/-- The same packet, which may have been marked, and stamped with a time. -/
structure Carries (skb carried : Skb) : Prop where
  len : carried.len = skb.len
  tos : carried.tos = skb.tos
  ecn : carried.ecn = skb.ecn ∨ carried.ecn = skb.ecn.setCe
  ce : skb.ce = true → carried.ce = true

theorem Carries.trans {skb stored returned : Skb} (first : Carries skb stored)
    (second : Carries stored returned) : Carries skb returned where
  len := second.len.trans first.len
  tos := second.tos.trans first.tos
  ecn := by
    rcases second.ecn with same | marked
    · rw [same]
      exact first.ecn
    · right
      rcases first.ecn with same | before
      · rw [marked, same]
      · rw [marked, before, Ecn.setCe_setCe]
  ce := fun marked => second.ce (first.ce marked)

theorem MarkedFrom.carries {skb marked : Skb} (marker : MarkedFrom skb marked) :
    Carries skb marked := by
  rcases marker with rfl | rfl
  · exact ⟨rfl, rfl, Or.inl rfl, id⟩
  · exact ⟨rfl, rfl, Or.inr rfl, fun marked => (inetEcnSetCe_ce_iff skb).mpr (ect_of_ce marked)⟩

/-- What an enqueue at `now` stores: the packet with the time in its stamp, where the scheme in
force stamps, and else the packet marked or not. -/
def StoredFrom (stamps : Prop) (now : Int) (skb stored : Skb) : Prop :=
  stamps ∧ stored = { skb with tstamp := now } ∨ ¬stamps ∧ MarkedFrom skb stored

theorem StoredFrom.carries {stamps : Prop} {now : Int} {skb stored : Skb}
    (storing : StoredFrom stamps now skb stored) : Carries skb stored := by
  rcases storing with ⟨_, rfl⟩ | ⟨_, marker⟩
  · exact ⟨rfl, rfl, Or.inl rfl, id⟩
  · exact marker.carries

/-! ### One event -/

variable {Param : Type} [DecidableEq Param] {handler : Param → Handler}

/-- The packet an event stores in `queue`, with the time. -/
def Event.arrivals (classify : Settings handler → Skb → Fin 8) (queue : Fin 8)
    (settings : Settings handler) : Event Param → List (Int × Skb)
  | .enqueue now skb .success => if classify settings skb = queue then [(now, skb)] else []
  | _ => []

/-- The packet an event returns from `queue`, with the time. -/
def Event.departures (queue : Fin 8) : Event Param → List (Int × Skb)
  | .dequeue now (.packet served skb) => if served = queue then [(now, skb)] else []
  | _ => []

/-- The settings once an event has happened. -/
def Event.settings (settings : Settings handler) : Event Param → Settings handler
  | .sysctl param value => settings.write param value
  | _ => settings

/-- The packets a list of events stores in `queue`, each classified by the settings of its
time. -/
def acceptedBy (classify : Settings handler → Skb → Fin 8) (queue : Fin 8)
    (settings : Settings handler) (events : List (Event Param)) : List (Int × Skb) :=
  gather Event.settings (Event.arrivals classify queue) settings events

/-- The packets a list of events returns from `queue`. -/
def returnedFrom (queue : Fin 8) (events : List (Event Param)) : List (Int × Skb) :=
  events.flatMap (Event.departures queue)

/-! ### What is seen of a run -/

/-- A packet that is stored, or returned from a queue. -/
inductive Seen where
  | stored (skb : Skb)
  | returned (queue : Fin 8) (skb : Skb)

/-- What is seen of an event. -/
def Event.seen : Event Param → Option Seen
  | .enqueue _ skb .success => some (.stored skb)
  | .dequeue _ (.packet queue skb) => some (.returned queue skb)
  | _ => none

/-- The same is seen, but for the marks and stamps of what is returned. -/
inductive SeenAs : Seen → Seen → Prop
  | stored (skb : Skb) : SeenAs (.stored skb) (.stored skb)
  | returned {skb skb' : Skb} (queue : Fin 8) (carries : Carries skb skb') :
      SeenAs (.returned queue skb) (.returned queue skb')

/-- The same is seen of two runs, which may be of different modules. -/
def SeenAlike {Param Param' : Type} (answers : List (Event Param')) (events : List (Event Param)) :
    Prop :=
  List.Forall₂ SeenAs (answers.filterMap Event.seen) (events.filterMap Event.seen)

/-- What is seen of the bytes a queue sends. -/
def Seen.sentFrom (queue : Fin 8) : Seen → Nat
  | .returned served skb => if served = queue then skbSize skb else 0
  | .stored _ => 0

/-- What is seen of the size of a packet that is accepted. -/
def Seen.acceptedSize : Seen → Nat
  | .stored skb => skbSize skb
  | .returned _ _ => 0

section

variable {Param Param' : Type} {answers : List (Event Param')} {events : List (Event Param)}

theorem SeenAlike.append {answers' : List (Event Param')} {events' : List (Event Param)}
    (first : SeenAlike answers events) (second : SeenAlike answers' events') :
    SeenAlike (answers ++ answers') (events ++ events') := by
  unfold SeenAlike
  rw [List.filterMap_append, List.filterMap_append]
  exact List.rel_append first second

/-- One event, answered by at most one. -/
theorem SeenAlike.single {answer : Option (Event Param')} {event : Event Param}
    (alike : Option.Rel SeenAs (answer.bind Event.seen) event.seen) :
    SeenAlike answer.toList [event] := by
  have answered : answer.toList.filterMap Event.seen = (answer.bind Event.seen).toList := by
    cases answer with
    | none => rfl
    | some answer =>
        show [answer].filterMap Event.seen = answer.seen.toList
        cases seen : answer.seen <;> simp [seen]
  have happened : [event].filterMap Event.seen = event.seen.toList := by
    cases seen : event.seen <;> simp [seen]
  unfold SeenAlike
  rw [answered, happened]
  generalize answer.bind Event.seen = one at alike
  generalize event.seen = other at alike
  cases alike with
  | some same => exact .cons same .nil
  | none => exact .nil

/-- What marks and stamps do not enter is the same. -/
theorem SeenAlike.map_eq {Measure : Type} {measure : Seen → Measure}
    (alike : SeenAlike answers events)
    (agree : ∀ {one other}, SeenAs one other → measure one = measure other) :
    (answers.filterMap Event.seen).map measure = (events.filterMap Event.seen).map measure := by
  have same : List.Forall₂ (· = ·) ((answers.filterMap Event.seen).map measure)
      ((events.filterMap Event.seen).map measure) := by
    rw [List.forall₂_map_left_iff, List.forall₂_map_right_iff]
    exact alike.imp fun _ _ => agree
  rwa [List.forall₂_eq_eq_eq] at same

private theorem SeenAs.sentFrom {one other : Seen} (same : SeenAs one other) (queue : Fin 8) :
    one.sentFrom queue = other.sentFrom queue := by
  cases same with
  | stored => rfl
  | returned served carries => simp only [Seen.sentFrom, skbSize_eq_of_len_eq carries.len]

private theorem SeenAs.acceptedSize {one other : Seen} (same : SeenAs one other) :
    one.acceptedSize = other.acceptedSize := by
  cases same with
  | stored | returned => rfl

/-- A count that only what is seen enters. -/
theorem map_eq_seen {count : Event Param → Nat} {measure : Seen → Nat}
    (counted : ∀ event, count event = (event.seen.map measure).getD 0)
    (fold : Nat → Nat → Nat) (neutral : ∀ total, fold 0 total = total)
    (events : List (Event Param)) :
    (events.map count).foldr fold 0 =
      ((events.filterMap Event.seen).map measure).foldr fold 0 := by
  induction events with
  | nil => rfl
  | cons event rest inductionHypothesis =>
      rw [List.map_cons, List.foldr_cons, counted event, inductionHypothesis]
      cases seen : event.seen with
      | none =>
          rw [List.filterMap_cons_none seen]
          exact neutral _
      | some what =>
          rw [List.filterMap_cons_some seen]
          rfl

/-- The units two runs send agree. -/
theorem SeenAlike.sentUnits_eq (alike : SeenAlike answers events) (weight : Nat)
    (queue : Fin 8) : sentUnits weight queue answers = sentUnits weight queue events := by
  have counted : ∀ {Param : Type} (event : Event Param), event.sentFrom queue / weight =
      (event.seen.map fun seen => seen.sentFrom queue / weight).getD 0 := by
    intro Param event
    cases event with
    | enqueue now skb ret => cases ret <;> simp [Event.sentFrom, Event.seen, Seen.sentFrom]
    | dequeue now outcome => cases outcome <;> simp [Event.sentFrom, Event.seen, Seen.sentFrom]
    | sysctl | change => simp [Event.sentFrom, Event.seen]
  have one := map_eq_seen counted (· + ·) Nat.zero_add answers
  have other := map_eq_seen counted (· + ·) Nat.zero_add events
  rw [alike.map_eq fun same => by rw [same.sentFrom queue]] at one
  exact one.trans other.symm

/-- So do the largest packets they accept. -/
theorem SeenAlike.largestSize_eq (alike : SeenAlike answers events) :
    largestSize answers = largestSize events := by
  have counted : ∀ {Param : Type} (event : Event Param),
      event.acceptedSize = (event.seen.map Seen.acceptedSize).getD 0 := by
    intro Param event
    cases event with
    | enqueue now skb ret => cases ret <;> rfl
    | dequeue now outcome => cases outcome <;> rfl
    | sysctl | change => rfl
  have one := map_eq_seen counted max Nat.zero_max answers
  have other := map_eq_seen counted max Nat.zero_max events
  rw [alike.map_eq SeenAs.acceptedSize] at one
  exact one.trans other.symm

end

/-! ### A module -/

/-- A module as FIFOs: its parameters, its clock and its queues, the queue it gives a packet,
the settings under which it stamps packets and those under which it marks them by their
latency, and that mark. -/
structure Reading (Sys : Type) (handler : Param → Handler) where
  settings : Sys → Settings handler
  clock : Sys → Int
  fifo : Sys → Fin 8 → List Skb
  classify : Settings handler → Skb → Fin 8
  stamps : Settings handler → Prop
  timed : Settings handler → Prop
  latencyMark : Sys → Int → Skb → Skb

variable {Sys : Type}

/-- What leaves a queue is its head, marked or not; by its latency, where the scheme in force
looks at that. -/
structure Reading.Returns (reading : Reading Sys handler) (s : Sys) (now : Int)
    (stored returned : Skb) : Prop where
  marker : MarkedFrom stored returned
  latency : reading.timed (reading.settings s) → returned = reading.latencyMark s now stored

/-- What one event does to the queues of a module. -/
inductive Reading.Moves (reading : Reading Sys handler) (s s' : Sys) : Event Param → Prop
  | enqueue {now : Int} {skb stored : Skb} (later : reading.clock s ≤ now)
      (clock : reading.clock s' = now) (same : reading.settings s' = reading.settings s)
      (storing : StoredFrom (reading.stamps (reading.settings s)) now skb stored)
      (fifo : ∀ queue, reading.fifo s' queue = reading.fifo s queue ++
        if queue = reading.classify (reading.settings s) skb then [stored] else []) :
      reading.Moves s s' (.enqueue now skb .success)
  | refuse {now : Int} {skb : Skb} {ret : NetXmit} (later : reading.clock s ≤ now)
      (clock : reading.clock s' = now) (same : reading.settings s' = reading.settings s)
      (refused : ret ≠ .success) (fifo : ∀ queue, reading.fifo s' queue = reading.fifo s queue) :
      reading.Moves s s' (.enqueue now skb ret)
  | dequeue {now : Int} {served : Fin 8} {stored returned : Skb} {rest : List Skb}
      (later : reading.clock s ≤ now) (clock : reading.clock s' = now)
      (same : reading.settings s' = reading.settings s)
      (front : reading.fifo s served = stored :: rest)
      (returning : reading.Returns s now stored returned)
      (fifo : ∀ queue, reading.fifo s' queue =
        if queue = served then rest else reading.fifo s queue) :
      reading.Moves s s' (.dequeue now (.packet served returned))
  | wait {now : Int} {outcome : Dequeued} (later : reading.clock s ≤ now)
      (clock : reading.clock s' = now) (same : reading.settings s' = reading.settings s)
      (nothing : ∀ queue skb, outcome ≠ .packet queue skb)
      (fifo : ∀ queue, reading.fifo s' queue = reading.fifo s queue) :
      reading.Moves s s' (.dequeue now outcome)
  | sysctl {param : Param} {value : Int} (clock : reading.clock s' = reading.clock s)
      (same : reading.settings s' = (reading.settings s).write param value)
      (fifo : ∀ queue, reading.fifo s' queue = reading.fifo s queue) :
      reading.Moves s s' (.sysctl param value)
  | change {rate : Nat} (clock : reading.clock s' = reading.clock s)
      (same : reading.settings s' = reading.settings s)
      (fifo : ∀ queue, reading.fifo s' queue = reading.fifo s queue) :
      reading.Moves s s' (.change rate)

namespace Reading

variable {reading : Reading Sys handler} {step : Sys → Event Param → Sys → Prop} {s s' : Sys}
  {event : Event Param}

/-- A queue of the module as a buffer with a clock. -/
def buffer (reading : Reading Sys handler) (queue : Fin 8) :
    Buffer Sys (Event Param) (Settings handler) Int (Int × Skb) Skb (Int × Skb) where
  context := reading.settings
  clock := reading.clock
  content := fun s => reading.fifo s queue
  next := Event.settings
  arrive := Event.arrivals reading.classify queue
  depart := Event.departures queue
  arrived := Prod.fst
  departed := Prod.fst

private theorem Moves.settings (moves : reading.Moves s s' event) :
    reading.settings s' = event.settings (reading.settings s) := by
  cases moves <;> assumption

private theorem Moves.clock_le (moves : reading.Moves s s' event) :
    reading.clock s ≤ reading.clock s' := by
  cases moves with
  | enqueue later clock | refuse later clock | dequeue later clock | wait later clock =>
      exact clock ▸ later
  | sysctl clock | change clock => exact clock.ge

private theorem Moves.arrived (moves : reading.Moves s s' event) (queue : Fin 8) :
    ∀ arrival ∈ event.arrivals reading.classify queue (reading.settings s),
      arrival.1 ≤ reading.clock s' := by
  intro arrival member
  cases moves with
  | enqueue later clock =>
      simp only [Event.arrivals] at member
      split at member
      · rw [List.mem_singleton] at member
        rw [member, clock]
      · simp at member
  | refuse later clock same refused =>
      unfold Event.arrivals at member
      split at member
      next accepted =>
        cases accepted
        exact absurd rfl refused
      next => simp at member
  | dequeue | wait | sysctl | change => simp [Event.arrivals] at member

private theorem Moves.departed (moves : reading.Moves s s' event) (queue : Fin 8) :
    ∀ departure ∈ event.departures queue, reading.clock s' ≤ departure.1 := by
  intro departure member
  cases moves with
  | dequeue later clock =>
      simp only [Event.departures] at member
      split at member
      · rw [List.mem_singleton] at member
        rw [member, clock]
      · simp at member
  | wait later clock same nothing =>
      unfold Event.departures at member
      split at member
      next returned =>
        cases returned
        exact absurd rfl (nothing _ _)
      next => simp at member
  | enqueue | refuse | sysctl | change => simp [Event.departures] at member

private theorem Moves.passes (moves : reading.Moves s s' event) (queue : Fin 8) :
    Passes
      (fun arrival stored =>
        StoredFrom (reading.stamps (reading.settings s)) arrival.1 arrival.2 stored)
      (fun stored departure => reading.Returns s departure.1 stored departure.2)
      (reading.fifo s queue) (event.arrivals reading.classify queue (reading.settings s))
      (event.departures queue) (reading.fifo s' queue) := by
  cases moves with
  | @enqueue now skb stored later clock same storing fifo =>
      rw [fifo queue]
      by_cases target : reading.classify (reading.settings s) skb = queue
      · simp only [Event.arrivals, Event.departures, if_pos target, if_pos target.symm]
        apply Passes.accept
        exact storing
      · simp only [Event.arrivals, Event.departures, if_neg target, if_neg (Ne.symm target),
          List.append_nil]
        exact Passes.stay _
  | @dequeue now served stored returned rest later clock same front returning fifo =>
      rw [fifo queue]
      by_cases target : served = queue
      · subst target
        simp only [Event.arrivals, Event.departures, if_true, front]
        apply Passes.depart
        exact returning
      · simp only [Event.arrivals, Event.departures, if_neg target, if_neg (Ne.symm target)]
        exact Passes.stay _
  | @refuse now skb ret later clock same refused fifo =>
      have none : (Event.enqueue now skb ret : Event Param).arrivals reading.classify queue
          (reading.settings s) = [] := by
        cases ret with
        | success => exact absurd rfl refused
        | drop | cn => rfl
      rw [fifo queue, none]
      exact Passes.stay _
  | @wait now outcome later clock same nothing fifo =>
      have none : (Event.dequeue now outcome : Event Param).departures queue = [] := by
        cases outcome with
        | packet served skb => exact absurd rfl (nothing served skb)
        | null | throttled | fault => rfl
      rw [fifo queue, none]
      exact Passes.stay _
  | sysctl clock same fifo | change clock same fifo =>
      rw [fifo queue]
      exact Passes.stay _

/-! ### Delivery -/

/-- What `queue` has accepted is, in order, what it has returned and what it holds; a packet
that was accepted and the packet that was returned for it are `passed`, and one that waits is
`held`. -/
def Delivers (reading : Reading Sys handler) (passed : Int × Skb → Int × Skb → Prop)
    (held : Int × Skb → Skb → Prop) (queue : Fin 8) (start : Sys) (events : List (Event Param))
    (last : Sys) : Prop :=
  ∃ sent waiting, acceptedBy reading.classify queue (reading.settings start) events =
      sent ++ waiting ∧
    List.Forall₂ passed sent (returnedFrom queue events) ∧
    List.Forall₂ held waiting (reading.fifo last queue)

/-- The same packet, returned no earlier than it was accepted. -/
def Passed (arrival departure : Int × Skb) : Prop :=
  arrival.1 ≤ departure.1 ∧ Carries arrival.2 departure.2

/-- The same packet. -/
def Held (arrival : Int × Skb) (stored : Skb) : Prop := Carries arrival.2 stored

theorem delivers_of_moves (moves : ∀ {s event s'}, step s event s' → reading.Moves s s' event)
    {start last : Sys} {events : List (Event Param)} (run : Run step start events last)
    {queue : Fin 8} (empty : reading.fifo start queue = []) :
    reading.Delivers Passed Held queue start events last := by
  have keeps : (reading.buffer queue).Keeps Held
      (fun stored departure => Carries stored departure.2) step :=
    { context := fun taken => (moves taken).settings
      passes := fun taken => ((moves taken).passes queue).mono
        (fun _ _ storing => storing.carries) fun _ _ returning => returning.marker.carries
      clock := fun taken => (moves taken).clock_le
      arrived := fun taken => (moves taken).arrived queue
      departed := fun taken => (moves taken).departed queue }
  obtain ⟨sent, waiting, split, delivered, held⟩ := keeps.of_empty run empty
  refine ⟨sent, waiting, split, delivered.imp ?_, held⟩
  rintro arrival departure ⟨⟨stored, storing, returning⟩, causal⟩
  exact ⟨causal, storing.trans returning⟩

/-! ### Latency -/

/-- The packet with the time it was accepted at in its stamp. -/
def stamped (arrival : Int × Skb) : Skb := { arrival.2 with tstamp := arrival.1 }

private theorem carries_stamped (arrival : Int × Skb) : Carries arrival.2 (stamped arrival) :=
  ⟨rfl, rfl, Or.inl rfl, id⟩

/-- The packet waits with its stamp. -/
def HeldStamped (arrival : Int × Skb) (stored : Skb) : Prop := stored = stamped arrival

/-- The latency scheme is in force, with the mark `mark`. -/
structure Timing (reading : Reading Sys handler) (mark : Int → Skb → Skb) (s : Sys) : Prop where
  stamps : reading.stamps (reading.settings s)
  timed : reading.timed (reading.settings s)
  mark : reading.latencyMark s = mark

theorem delivers_of_timing (moves : ∀ {s event s'}, step s event s' → reading.Moves s s' event)
    {mark : Int → Skb → Skb} (marker : ∀ now skb, MarkedFrom skb (mark now skb))
    {start last : Sys} {events : List (Event Param)}
    (run : RunWithin (reading.Timing mark) step start events last) {queue : Fin 8}
    (empty : reading.fifo start queue = []) :
    reading.Delivers
      (fun arrival departure => Passed arrival departure ∧
        departure.2 = mark departure.1 (stamped arrival))
      HeldStamped queue start events last := by
  have keeps : (reading.buffer queue).Keeps HeldStamped
      (fun stored departure => departure.2 = mark departure.1 stored)
      (Within (reading.Timing mark) step) :=
    { context := fun taken => (moves taken.2.1).settings
      passes := by
        rintro s event s' ⟨timing, taken, _⟩
        refine ((moves taken).passes queue).mono ?_ ?_
        · rintro arrival stored (⟨_, stamp⟩ | ⟨unstamped, _⟩)
          · exact stamp
          · exact absurd timing.stamps unstamped
        · intro stored departure returning
          rw [returning.latency timing.timed, timing.mark]
      clock := fun taken => (moves taken.2.1).clock_le
      arrived := fun taken => (moves taken.2.1).arrived queue
      departed := fun taken => (moves taken.2.1).departed queue }
  obtain ⟨sent, waiting, split, delivered, held⟩ := keeps.of_empty run.2 empty
  refine ⟨sent, waiting, split, delivered.imp ?_, held⟩
  rintro arrival departure ⟨⟨stored, storing, returning⟩, causal⟩
  rw [storing] at returning
  refine ⟨⟨causal, ?_⟩, returning⟩
  rw [returning]
  exact (carries_stamped arrival).trans (marker _ _).carries

theorem Delivers.mono {passed passed' : Int × Skb → Int × Skb → Prop}
    {held : Int × Skb → Skb → Prop} {queue : Fin 8} {start last : Sys}
    {events : List (Event Param)}
    (delivers : reading.Delivers passed held queue start events last)
    (weaker : ∀ arrival departure, passed arrival departure → passed' arrival departure) :
    reading.Delivers passed' held queue start events last := by
  obtain ⟨sent, waiting, split, delivered, stays⟩ := delivers
  exact ⟨sent, waiting, split, delivered.imp weaker, stays⟩

end Reading

end MqEcn.Kernel
