import MqEcn.Ns2.Readings

/-!
Contract: the delivery of packets by the NS2 disciplines.

Owns: that each of their queues sends what it took, in order, and that under `LATENCY_MARKING`
a packet is marked exactly by the time it has waited.

Does not own: which queue is served.
-/

set_option autoImplicit false

namespace MqEcn.Ns2

open MqEcn.Library.Transition

/-- A discipline reads as FIFOs that every one of its steps moves, and that are empty at first. -/
structure Reads {Sys Label Config Queue : Type} [DecidableEq Queue]
    (reading : Reading Sys Label Config Queue) (initial : Sys → Prop)
    (step : Sys → Label → Sys → Prop) : Prop where
  moves : ∀ {s label s'}, step s label s' → reading.Moves s s' label
  fresh : ∀ {start}, initial start → ∀ queue, reading.fifo start queue = []

section

variable {Sys Label Config Queue : Type} [DecidableEq Queue]
  {reading : Reading Sys Label Config Queue} {initial : Sys → Prop}
  {step : Sys → Label → Sys → Prop} {start last : Sys} {labels : List Label}

private theorem Reads.delivers (reads : Reads reading initial step) (fresh : initial start)
    (run : Run step start labels last) (queue : Queue) :
    reading.Delivers Reading.Passed Reading.Held queue start labels last :=
  (Reading.delivers_of_moves reads.moves run (reads.fresh fresh queue)).mono
    (fun _ _ through => through.passed) fun _ _ storing => storing.carries

private theorem Reads.delivers_timed (reads : Reads reading initial step) (fresh : initial start)
    (run : Run step start labels last) {thresh : ℚ}
    (timed : reading.latency (reading.config start) = some thresh) (queue : Queue) :
    reading.Delivers (Reading.PassedTimed thresh) Reading.Held queue start labels last := by
  have delivers := Reading.delivers_of_moves reads.moves run (reads.fresh fresh queue)
  rw [timed] at delivers
  exact delivers.mono (fun _ _ through => through.passedTimed) fun _ _ storing => storing.carries

end

private theorem priority_reads : Reads Priority.reading Priority.Initial Priority.Step where
  moves := Priority.reading_moves
  fresh := fun fresh queue => by
    show (_ : Priority.Sys).q.queues queue = []
    rw [show _ = Priority.construct from fresh]
    rfl

private theorem wfq_reads (pow : ℚ → ℚ → ℚ) : Reads Wfq.reading Wfq.Initial (Wfq.Step pow) where
  moves := Wfq.reading_moves
  fresh := fun fresh queue => by
    show Wfq.contents (_ : Wfq.Sys).q queue = []
    rw [show _ = Wfq.construct from fresh]
    rfl

private theorem wrr_reads (pow : ℚ → ℚ → ℚ) : Reads Wrr.reading Wrr.Initial (Wrr.Step pow) where
  moves := Wrr.reading_moves
  fresh := fun fresh queue => by
    show Wrr.contents (_ : Wrr.Sys).q queue = []
    rw [show _ = Wrr.construct from fresh]
    rfl

private theorem dwrr_reads (pow : ℚ → ℚ → ℚ) : Reads Dwrr.reading Dwrr.Initial (Dwrr.Step pow) where
  moves := Dwrr.reading_moves
  fresh := fun fresh queue => by
    show Dwrr.contents (_ : Dwrr.Sys).q queue = []
    rw [show _ = Dwrr.construct from fresh]
    rfl

private theorem prioDwrr_reads (pow : ℚ → ℚ → ℚ) :
    Reads PrioDwrr.reading PrioDwrr.Initial (PrioDwrr.Step pow) where
  moves := PrioDwrr.reading_moves
  fresh := fun fresh queue => by
    show PrioDwrr.packets (_ : PrioDwrr.Sys).q queue = []
    rw [show _ = PrioDwrr.construct from fresh]
    cases queue <;> rfl

private theorem prioWfq_reads (pow : ℚ → ℚ → ℚ) :
    Reads PrioWfq.reading PrioWfq.Initial (PrioWfq.Step pow) where
  moves := PrioWfq.reading_moves
  fresh := fun fresh queue => by
    show PrioWfq.packets (_ : PrioWfq.Sys).q queue = []
    rw [show _ = PrioWfq.construct from fresh]
    cases queue <;> rfl

/-- **Delivery in order.** In every run of any of the six disciplines from construction on, what
each queue has taken is, in order, what it has sent and what it holds: nothing is lost,
duplicated, overtaken within its queue or sent before it was taken, and a packet changes but for
its stamp and for a mark, which no packet gets that is not ECN-capable. -/
theorem ns2_delivers_in_order (pow : ℚ → ℚ → ℚ) :
    (∀ start events last, Priority.Initial start → Run Priority.Step start events last →
      ∀ queue, Priority.reading.Delivers Reading.Passed Reading.Held queue start events last) ∧
    (∀ start events last, Wfq.Initial start → Run (Wfq.Step pow) start events last →
      ∀ queue, Wfq.reading.Delivers Reading.Passed Reading.Held queue start events last) ∧
    (∀ start events last, Wrr.Initial start → Run (Wrr.Step pow) start events last →
      ∀ queue, Wrr.reading.Delivers Reading.Passed Reading.Held queue start events last) ∧
    (∀ start events last, Dwrr.Initial start → Run (Dwrr.Step pow) start events last →
      ∀ queue, Dwrr.reading.Delivers Reading.Passed Reading.Held queue start events last) ∧
    (∀ start events last, PrioDwrr.Initial start → Run (PrioDwrr.Step pow) start events last →
      ∀ queue, PrioDwrr.reading.Delivers Reading.Passed Reading.Held queue start events last) ∧
    ∀ start events last, PrioWfq.Initial start → Run (PrioWfq.Step pow) start events last →
      ∀ queue, PrioWfq.reading.Delivers Reading.Passed Reading.Held queue start events last := by
  refine ⟨?_, ?_, ?_, ?_, ?_, ?_⟩
  · exact fun start events last fresh run => priority_reads.delivers fresh run
  · exact fun start events last fresh run => (wfq_reads pow).delivers fresh run
  · exact fun start events last fresh run => (wrr_reads pow).delivers fresh run
  · exact fun start events last fresh run => (dwrr_reads pow).delivers fresh run
  · exact fun start events last fresh run => (prioDwrr_reads pow).delivers fresh run
  · exact fun start events last fresh run => (prioWfq_reads pow).delivers fresh run

/-! ### A packet that waits -/

/-- An ECN-capable packet of the lowest number. -/
def capable : Packet := ⟨0, 1500, true, false, 0, fullSize_pos⟩

/-- The same packet, marked. -/
def congested : Packet := { capable with ce := true }

/-- Two packets; the second waits for a second. -/
def lingering {Command : Type} : List (Event Command) :=
  [.enque 1 capable true, .enque 1 capable true, .deque 1 (some (0, capable)),
    .deque 2 (some (0, congested))]

/-- The operations of Priority, which has no commands and no timer. -/
def Priority.operations : Operations Priority.Config Priority.PriorityQueue Empty where
  enque := Priority.enque
  deque := fun config now q => some (Priority.deque config now q)
  command := fun _ _ _ => none
  timer := fun _ => false
  timeout := fun _ q => q

private theorem Priority.operations_follow : Priority.operations.Follow Priority.Step where
  enque := .enque
  deque := fun later returns => .deque later (Option.some.inj returns)
  command := fun {_ request} _ => request.elim
  timeout := fun _ pending => Bool.noConfusion pending

def Priority.Sys.next : Priority.Sys → Event Empty → Option Priority.Sys :=
  Priority.operations.next

private theorem Priority.Sys.next_sound {s s' : Priority.Sys} {event : Event Empty}
    (answers : Priority.Sys.next s event = some s') : Priority.Step s event s' :=
  Priority.operations_follow.next_sound answers

/-! ### The disciplines under `LATENCY_MARKING` -/

def Priority.timed : Priority.Sys :=
  ⟨{ Priority.defaultConfig with markingScheme := Dwrr.latencyMarking }, Priority.construct, 0⟩

def Wfq.timed : Wfq.Sys :=
  ⟨{ Wfq.defaultConfig with markingScheme := Wfq.latencyMarking }, Wfq.construct, 0⟩

def Wrr.timed : Wrr.Sys :=
  ⟨{ Wrr.defaultConfig with markingScheme := Dwrr.latencyMarking }, Wrr.construct, 0⟩

def Dwrr.timed : Dwrr.Sys :=
  ⟨{ Dwrr.defaultConfig with markingScheme := Dwrr.latencyMarking }, Dwrr.construct, 0⟩

def PrioDwrr.timed : PrioDwrr.Sys :=
  ⟨{ PrioDwrr.defaultConfig with markingScheme := Dwrr.latencyMarking }, PrioDwrr.construct, 0⟩

def PrioWfq.timed : PrioWfq.Sys :=
  ⟨{ PrioWfq.defaultConfig with markingScheme := Wfq.latencyMarking }, PrioWfq.construct, 0⟩

/-- The two packets in the priority queue. -/
def PrioDwrr.lingering : List PrioDwrr.Event :=
  [.enque 1 capable true, .enque 1 capable true, .deque 1 (some (.inl highest, capable)),
    .deque 2 (some (.inl highest, congested))]

def PrioWfq.lingering : List PrioWfq.Event :=
  [.enque 1 capable true, .enque 1 capable true,
    .deque 1 (some (.inl PrioDwrr.highest, capable)),
    .deque 2 (some (.inl PrioDwrr.highest, congested))]

private theorem Priority.lingering_replays :
    (replay Priority.Sys.next (fun _ => True) Priority.timed lingering).isSome = true := by
  decide +kernel

private theorem Wfq.lingering_replays :
    (replay (Wfq.Sys.next wholePow) (fun _ => True) Wfq.timed lingering).isSome = true := by
  decide +kernel

private theorem Wrr.lingering_replays :
    (replay (Wrr.Sys.next wholePow 12) (fun _ => True) Wrr.timed lingering).isSome = true := by
  decide +kernel

private theorem Dwrr.lingering_replays :
    (replay (Dwrr.Sys.next wholePow 4) (fun _ => True) Dwrr.timed lingering).isSome =
      true := by
  decide +kernel

private theorem PrioDwrr.lingering_replays :
    (replay (PrioDwrr.Sys.next wholePow 4) (fun _ => True) PrioDwrr.timed
      PrioDwrr.lingering).isSome = true := by
  decide +kernel

private theorem PrioWfq.lingering_replays :
    (replay (PrioWfq.Sys.next wholePow) (fun _ => True) PrioWfq.timed
      PrioWfq.lingering).isSome = true := by
  decide +kernel

theorem lingering_delivers :
    (∃ last, Priority.reading.Delivers Reading.Passed Reading.Held 0 Priority.timed lingering
        last) ∧
      (∃ last, Wfq.reading.Delivers Reading.Passed Reading.Held 0 Wfq.timed lingering last) ∧
      (∃ last, Wrr.reading.Delivers Reading.Passed Reading.Held 0 Wrr.timed lingering last) ∧
      (∃ last, Dwrr.reading.Delivers Reading.Passed Reading.Held 0 Dwrr.timed lingering last) ∧
      (∃ last, PrioDwrr.reading.Delivers Reading.Passed Reading.Held (.inl PrioDwrr.highest)
        PrioDwrr.timed PrioDwrr.lingering last) ∧
      ∃ last, PrioWfq.reading.Delivers Reading.Passed Reading.Held (.inl PrioDwrr.highest)
        PrioWfq.timed PrioWfq.lingering last :=
  have delivers := ns2_delivers_in_order wholePow
  ⟨⟨_, delivers.1 Priority.timed lingering _ rfl
      (RunWithin.of_replay_isSome Priority.Sys.next_sound Priority.lingering_replays).run 0⟩,
    ⟨_, delivers.2.1 Wfq.timed lingering _ rfl
      (RunWithin.of_replay_isSome Wfq.Sys.next_sound Wfq.lingering_replays).run 0⟩,
    ⟨_, delivers.2.2.1 Wrr.timed lingering _ rfl
      (RunWithin.of_replay_isSome Wrr.Sys.next_sound Wrr.lingering_replays).run 0⟩,
    ⟨_, delivers.2.2.2.1 Dwrr.timed lingering _ rfl
      (RunWithin.of_replay_isSome Dwrr.Sys.next_sound Dwrr.lingering_replays).run 0⟩,
    ⟨_, delivers.2.2.2.2.1 PrioDwrr.timed PrioDwrr.lingering _ rfl
      (RunWithin.of_replay_isSome PrioDwrr.Sys.next_sound PrioDwrr.lingering_replays).run _⟩,
    ⟨_, delivers.2.2.2.2.2 PrioWfq.timed PrioWfq.lingering _ rfl
      (RunWithin.of_replay_isSome PrioWfq.Sys.next_sound PrioWfq.lingering_replays).run _⟩⟩

/-! ### Marking by latency -/

/-- **Marking by latency.** In every run of any of the six disciplines from construction on under
`LATENCY_MARKING`, each queue sends what it took, in order, and a packet with CE exactly if it
came with it or, being ECN-capable, waited for longer than the port threshold takes to send. -/
theorem ns2_latency_marks_by_delay (pow : ℚ → ℚ → ℚ) (thresh : ℚ) :
    (∀ start events last, Priority.Initial start → Run Priority.Step start events last →
      Priority.reading.latency start.config = some thresh → ∀ queue,
        Priority.reading.Delivers (Reading.PassedTimed thresh) Reading.Held queue start events
          last) ∧
    (∀ start events last, Wfq.Initial start → Run (Wfq.Step pow) start events last →
      Wfq.reading.latency start.config = some thresh → ∀ queue,
        Wfq.reading.Delivers (Reading.PassedTimed thresh) Reading.Held queue start events last) ∧
    (∀ start events last, Wrr.Initial start → Run (Wrr.Step pow) start events last →
      Wrr.reading.latency start.config = some thresh → ∀ queue,
        Wrr.reading.Delivers (Reading.PassedTimed thresh) Reading.Held queue start events last) ∧
    (∀ start events last, Dwrr.Initial start → Run (Dwrr.Step pow) start events last →
      Dwrr.reading.latency start.config = some thresh → ∀ queue,
        Dwrr.reading.Delivers (Reading.PassedTimed thresh) Reading.Held queue start events last) ∧
    (∀ start events last, PrioDwrr.Initial start → Run (PrioDwrr.Step pow) start events last →
      PrioDwrr.reading.latency start.config = some thresh → ∀ queue,
        PrioDwrr.reading.Delivers (Reading.PassedTimed thresh) Reading.Held queue start events
          last) ∧
    ∀ start events last, PrioWfq.Initial start → Run (PrioWfq.Step pow) start events last →
      PrioWfq.reading.latency start.config = some thresh → ∀ queue,
        PrioWfq.reading.Delivers (Reading.PassedTimed thresh) Reading.Held queue start events
          last := by
  refine ⟨?_, ?_, ?_, ?_, ?_, ?_⟩
  · exact fun start events last fresh run timed => priority_reads.delivers_timed fresh run timed
  · exact fun start events last fresh run timed => (wfq_reads pow).delivers_timed fresh run timed
  · exact fun start events last fresh run timed => (wrr_reads pow).delivers_timed fresh run timed
  · exact fun start events last fresh run timed => (dwrr_reads pow).delivers_timed fresh run timed
  · exact fun start events last fresh run timed =>
      (prioDwrr_reads pow).delivers_timed fresh run timed
  · exact fun start events last fresh run timed =>
      (prioWfq_reads pow).delivers_timed fresh run timed

/-- The default threshold of 65 packets lasts 78 microseconds at the default capacity. -/
def defaultDelay : ℚ := 39 / 500000

theorem lingering_marked_by_delay :
    (∃ last, Priority.reading.Delivers (Reading.PassedTimed defaultDelay) Reading.Held 0
        Priority.timed lingering last) ∧
      (∃ last, Wfq.reading.Delivers (Reading.PassedTimed defaultDelay) Reading.Held 0 Wfq.timed
        lingering last) ∧
      (∃ last, Wrr.reading.Delivers (Reading.PassedTimed defaultDelay) Reading.Held 0 Wrr.timed
        lingering last) ∧
      (∃ last, Dwrr.reading.Delivers (Reading.PassedTimed defaultDelay) Reading.Held 0 Dwrr.timed
        lingering last) ∧
      (∃ last, PrioDwrr.reading.Delivers (Reading.PassedTimed defaultDelay) Reading.Held
        (.inl PrioDwrr.highest) PrioDwrr.timed PrioDwrr.lingering last) ∧
      ∃ last, PrioWfq.reading.Delivers (Reading.PassedTimed defaultDelay) Reading.Held
        (.inl PrioDwrr.highest) PrioWfq.timed PrioWfq.lingering last :=
  have marks := ns2_latency_marks_by_delay wholePow defaultDelay
  ⟨⟨_, marks.1 Priority.timed lingering _ rfl
      (RunWithin.of_replay_isSome Priority.Sys.next_sound Priority.lingering_replays).run
      (by decide +kernel) 0⟩,
    ⟨_, marks.2.1 Wfq.timed lingering _ rfl
      (RunWithin.of_replay_isSome Wfq.Sys.next_sound Wfq.lingering_replays).run
      (by decide +kernel) 0⟩,
    ⟨_, marks.2.2.1 Wrr.timed lingering _ rfl
      (RunWithin.of_replay_isSome Wrr.Sys.next_sound Wrr.lingering_replays).run
      (by decide +kernel) 0⟩,
    ⟨_, marks.2.2.2.1 Dwrr.timed lingering _ rfl
      (RunWithin.of_replay_isSome Dwrr.Sys.next_sound Dwrr.lingering_replays).run
      (by decide +kernel) 0⟩,
    ⟨_, marks.2.2.2.2.1 PrioDwrr.timed PrioDwrr.lingering _ rfl
      (RunWithin.of_replay_isSome PrioDwrr.Sys.next_sound PrioDwrr.lingering_replays).run
      (by decide +kernel) _⟩,
    ⟨_, marks.2.2.2.2.2 PrioWfq.timed PrioWfq.lingering _ rfl
      (RunWithin.of_replay_isSome PrioWfq.Sys.next_sound PrioWfq.lingering_replays).run
      (by decide +kernel) _⟩⟩

end MqEcn.Ns2
