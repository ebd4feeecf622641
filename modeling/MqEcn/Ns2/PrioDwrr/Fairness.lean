import MqEcn.Ns2.PrioDwrr.Schedule

/-!
Contract: the fairness of the DWRR queues of the NS2 PRIO_DWRR discipline under any priority
traffic.

Owns: the discipline as an implementation of the port its active list stands for, with
whatever the priority queues send in between, and the bound on what two DWRR queues that stay
backlogged send.

Does not own: the bound for a port.
-/

set_option autoImplicit false

namespace MqEcn.Ns2.PrioDwrr

open MqEcn.Library
open MqEcn.Library.RingSchedule
open MqEcn.Library.Transition
open MqEcn.Ns2.Dwrr

/-! ### Bytes -/

/-- Bytes an event sent from the DWRR queue of a number. -/
def dwrrSent (event : Event) (flow : Nat) : Nat :=
  spread (fun i : Fin 64 => event.sentFrom (.inr i)) flow

/-! ### The port -/

/-- The quanta of the DWRR queues. -/
def Granting (quantum : Fin 64 → Int) (s : Sys) : Prop :=
  ∀ i, (s.q.dwrr.queues i).quantum = quantum i

instance (quantum : Fin 64 → Int) : DecidablePred (Granting quantum) := fun s =>
  inferInstanceAs (Decidable (∀ i, (s.q.dwrr.queues i).quantum = quantum i))

/-- The DWRR queue holds a packet. -/
def Backlogged (i : Fin 64) (s : Sys) : Prop := (s.q.dwrr.queues i).packets ≠ []

instance (i : Fin 64) (s : Sys) : Decidable (Backlogged i s) :=
  inferInstanceAs (Decidable ((s.q.dwrr.queues i).packets ≠ []))

/-- The port the DWRR queues show. -/
def Shows (s : Sys) (shown : Port Nat) : Prop :=
  ∃ ring, shown = port (slots s.q.dwrr) ring ∧ Valid s.config s.q ring

section

variable {pow : ℚ → ℚ → ℚ} {config : Config} {quantum : Fin 64 → Int} {now : ℚ}
  {q q' : PrioDwrrQueue} {ring ring' : List (Fin 64)} {p : Packet}

/-- A packet that is taken is accepted by the port, or goes past it. -/
theorem Enques.answer {taken : Bool} (valid : Valid config q ring)
    (constant : ∀ k, (slots q.dwrr k).quantum = quantum k)
    (enques : Enques config p q ring q' taken ring') :
    ∃ answer, RingSchedule.Answer (quanta quantum) (port (slots q.dwrr) ring) answer
        (port (slots q'.dwrr) ring') ∧
      (∀ flow, Action.sentFrom flow answer = 0) ∧
      Action.acceptedSize answer ≤ (.enque now p taken : Event).takenSize := by
  cases enques with
  | drop dwrr | prio target marker dwrr =>
      rw [dwrr.slots]
      exact ⟨none, .turns .refl, fun _ => rfl, Nat.zero_le _⟩
  | @dwrr i marked ring' target marker joins lists prio =>
      rw [accept_of_joins valid.ordered constant joins]
      exact ⟨_, .action (.accept _ _), fun _ => rfl, marker.1.le⟩

/-- A packet that leaves is sent by the port, or goes past it. -/
theorem Deques.answer {pkt : Option ((Fin 8 ⊕ Fin 64) × Packet)} (valid : Valid config q ring)
    (constant : ∀ k, (slots q.dwrr k).quantum = quantum k)
    (deques : Deques config now q ring q' pkt ring') :
    ∃ answer, RingSchedule.Answer (quanta quantum) (port (slots q.dwrr) ring) answer
        (port (slots q'.dwrr) ring') ∧
      (∀ flow, Action.sentFrom flow answer = dwrrSent (.deque now pkt) flow) ∧
      Action.acceptedSize answer = 0 := by
  cases deques with
  | prio found after =>
      subst after
      exact ⟨none, .turns .refl, fun flow => (spread_zero flow).symm, rfl⟩
  | idle empty dwrr prio =>
      rw [dwrr.slots]
      exact ⟨none, .turns .refl, fun flow => (spread_zero flow).symm, rfl⟩
  | @dwrr middle choice tail idle passes front affordable after lists prio =>
      have ordered : Ordered middle (choice.queue :: tail) := valid.ordered.passes passes
      refine ⟨some (.dequeue (some ((choice.queue : Nat), choice.pkt.size))), ?_, fun flow => ?_,
        rfl⟩
      · rw [after]
        exact .action (.dequeue (turns_of_passes constant valid.ordered passes)
          (sends_of_serve ordered front affordable))
      · unfold dwrrSent
        simp only [Event.sentFrom, Sum.inr.injEq, (dequeMarking_markedFrom config now _).1]
        exact (spread_ite choice.queue choice.pkt.size flow).symm

/-- A command that leaves the quanta alone leaves the schedule as it is. -/
theorem slots_of_command {request : Command} (returns : command config q request = some q')
    (same : ∀ k, (slots q'.dwrr k).quantum = (slots q.dwrr k).quantum) :
    slots q'.dwrr = slots q.dwrr := by
  obtain ⟨_, _, i, granted, _, after⟩ := command_effect returns
  have own := same i
  rw [after, Function.update_self] at own
  have kept : granted = (slots q.dwrr i).quantum := own
  rw [after, kept]
  exact Function.update_eq_self i (slots q.dwrr)

/-- The discipline implements the port its active list stands for. -/
theorem implements (pow : ℚ → ℚ → ℚ) (quantum : Fin 64 → Int) :
    Implements (Step pow) (Granting quantum) (quanta quantum) Shows dwrrSent Event.takenSize := by
  constructor
  rintro first last event _ ⟨before, step, after⟩ ⟨ring, rfl, valid⟩
  have inside := PrioInside.step step valid.inside
  cases step with
  | @enque now p q' taken later returns =>
      rcases valid.enque_cases returns with ⟨ring', enques⟩
      obtain ⟨answer, answers, sends, takes⟩ :=
        @Enques.answer _ _ now _ _ _ _ _ _ valid before enques
      exact ⟨answer, _, answers, ⟨ring', rfl, valid.enque enques inside⟩,
        fun flow => (sends flow).trans (spread_zero flow).symm, takes⟩
  | deque later returns =>
      rcases valid.deque_cases returns with ⟨ring', deques⟩
      obtain ⟨answer, answers, sends, takes⟩ := deques.answer valid before
      exact ⟨answer, _, answers, ⟨ring', rfl, valid.deque deques inside⟩, sends, takes.le⟩
  | @command request q' returns =>
      have same := slots_of_command returns fun k => (after k).trans (before k).symm
      refine ⟨none, _, .turns .refl, ⟨ring, ?_, valid.command returns⟩,
        fun flow => (spread_zero flow).symm, Nat.zero_le _⟩
      show _ = port (slots q'.dwrr) ring
      rw [same]
  | timeout later pending =>
      exact ⟨none, _, .turns .refl, ⟨ring, rfl, valid.lists, valid.ordered, inside⟩,
        fun flow => (spread_zero flow).symm, Nat.zero_le _⟩

/-- A discipline just constructed shows an empty port. -/
theorem shows_initial {start : Sys} (initial : Initial start) : Shows start Port.empty := by
  refine ⟨[], ?_, ?_⟩
  · rw [initial]
    exact (port_of_empty fun i => rfl).symm
  · rw [initial]
    exact valid_construct start.config

/-- Queues that hold packets are backlogged at the port. -/
theorem backlogged_of_shows {s : Sys} {i j : Fin 64} {shown : Port Nat}
    (busy : Backlogged i s ∧ Backlogged j s) (shows : Shows s shown) :
    shown.Backlogged fun flow : Nat => flow = i ∨ flow = j := by
  rcases shows with ⟨ring, rfl, -⟩
  have holds : ∀ {k : Fin 64}, Backlogged k s → (port (slots s.q.dwrr) ring).fifo k ≠ [] := by
    intro k nonempty
    unfold port
    rw [Port.numbered_fifo]
    exact mt List.map_eq_nil_iff.mp nonempty
  rintro flow (rfl | rfl)
  · exact holds busy.1
  · exact holds busy.2

end

/-! ### Two backlogged queues behind a priority packet -/

/-- Two packets for either of two DWRR queues, and one of the priority queue. -/
def crossedHistory : List Event :=
  [.enque 0 (segment 1 1500 fullSize_pos) true, .enque 0 (segment 2 1500 fullSize_pos) true,
    .enque 0 (segment 1 1500 fullSize_pos) true, .enque 0 (segment 2 1500 fullSize_pos) true,
    .enque 0 (segment 0 1500 fullSize_pos) true]

/-- The priority packet leaves, and one of a DWRR queue. -/
def crossedInterval : List Event :=
  [.deque 1 (some (.inl highest, segment 0 1500 fullSize_pos)),
    .deque 2 (some (.inr 0, segment 1 1500 fullSize_pos))]

private theorem crossedHistory_replays :
    (replay (Sys.next wholePow 8) (Granting fun _ => 1500) fresh crossedHistory).isSome = true := by
  decide +kernel

/-- The state the history leads to. -/
def crossed : Sys :=
  (replay (Sys.next wholePow 8) (Granting fun _ => 1500) fresh crossedHistory).get
    crossedHistory_replays

private theorem crossedInterval_replays :
    (replay (Sys.next wholePow 8)
      (fun s => Granting (fun _ => 1500) s ∧ Backlogged 0 s ∧ Backlogged 1 s) crossed
      crossedInterval).isSome = true := by
  decide +kernel

end MqEcn.Ns2.PrioDwrr
