import MqEcn.Library.RingFairness
import MqEcn.Ns2.Dwrr.Schedule

/-!
Contract: the fairness of the NS2 DWRR discipline.

Owns: the discipline as an implementation of the port its active list stands for, with the
packets it drops, the commands that leave the quanta alone and the timer in between, and the
bound on what two queues that stay backlogged send.

Does not own: the bound for a port.
-/

set_option autoImplicit false

namespace MqEcn.Ns2.Dwrr

open MqEcn.Library
open MqEcn.Library.RingSchedule
open MqEcn.Library.Transition

/-- The quanta of the queues. -/
def Granting (quantum : Fin 64 → Int) (s : Sys) : Prop := ∀ i, (s.q.queues i).quantum = quantum i

instance (quantum : Fin 64 → Int) : DecidablePred (Granting quantum) := fun s =>
  inferInstanceAs (Decidable (∀ i, (s.q.queues i).quantum = quantum i))

/-- The queue holds a packet. -/
def Backlogged (i : Fin 64) (s : Sys) : Prop := (s.q.queues i).packets ≠ []

instance (i : Fin 64) (s : Sys) : Decidable (Backlogged i s) :=
  inferInstanceAs (Decidable ((s.q.queues i).packets ≠ []))

/-- The port the discipline shows. -/
def Shows (s : Sys) (shown : Port Nat) : Prop :=
  ∃ ring, shown = port (slots s.q) ring ∧ Valid s.config s.q ring

/-- Bytes an event sent from the queue of a number. -/
def sentOf (event : Event Command) (flow : Nat) : Nat :=
  spread (fun i : Fin 64 => event.sentFrom i) flow

section

variable {pow : ℚ → ℚ → ℚ} {config : Config} {quantum : Fin 64 → Int} {s s' : Sys}
  {ring : List (Fin 64)} {event : Event Command}

/-- A packet that is dropped, a command that leaves the quanta alone and a timeout leave the
schedule as it is. -/
theorem Constant.silent (related : Constant config quantum s ring) (step : Step pow s event s')
    (after : Granting quantum s') (nothing : action config event = none) :
    slots s'.q = slots s.q ∧ Constant config quantum s' ring := by
  have same : slots s'.q = slots s.q ∧ Valid s'.config s'.q ring ∧ s'.config = s.config := by
    rcases related with ⟨unchanged, constant, valid⟩
    subst unchanged
    cases step with
    | @enque now p q' taken later returns =>
        rcases valid.enque_cases returns with ⟨ring', enques⟩
        cases enques with
        | drop same => exact ⟨same.slots, valid.of_same same, rfl⟩
        | activate | append => cases nothing
    | @deque now fuel q' pkt later returns => cases pkt <;> cases nothing
    | @command request q' returns =>
        refine ⟨?_, valid.command returns, rfl⟩
        cases request with
        | setThresh queueId thresh => exact (setThresh_cases returns).1
        | setQuantum queueId granted =>
            rcases setQuantum_cases returns with ⟨i, _, _, after', _⟩
            have same : granted = (slots s.q i).quantum := by
              rw [constant i, ← after i]
              have own : (slots q' i).quantum = granted := by
                rw [after', Function.update_self]
              exact own.symm
            show slots q' = slots s.q
            rw [after', same]
            exact Function.update_eq_self i (slots s.q)
    | timeout later pending => exact ⟨rfl, valid.of_same ⟨rfl, rfl, rfl⟩, rfl⟩
  rcases same with ⟨sameSlots, valid, sameConfig⟩
  have unchanged : s'.config = config := sameConfig.trans related.unchanged
  exact ⟨sameSlots, unchanged, after, unchanged ▸ valid⟩

/-- What an event stands for sends what the event sends. -/
theorem sentFrom_action (config : Config) (event : Event Command) (flow : Nat) :
    Action.sentFrom flow (action config event) = sentOf event flow := by
  unfold sentOf
  cases event with
  | enque now p taken =>
      rw [show (fun i => Event.sentFrom i _) = fun _ : Fin 64 => 0 from rfl, spread_zero]
      cases taken <;> rfl
  | command | timeout => exact (spread_zero flow).symm
  | deque now pkt =>
      cases pkt with
      | none => exact (spread_zero flow).symm
      | some served => exact (spread_ite served.1 served.2.size flow).symm

private theorem acceptedSize_action (config : Config) (event : Event Command) :
    Action.acceptedSize (action config event) = event.takenSize := by
  cases event with
  | enque now p taken => cases taken <;> rfl
  | deque now pkt => cases pkt <;> rfl
  | command | timeout => rfl

/-- The discipline implements the port its active list stands for. -/
theorem implements (pow : ℚ → ℚ → ℚ) (quantum : Fin 64 → Int) :
    Implements (Step pow) (Granting quantum) (quanta quantum) Shows sentOf Event.takenSize := by
  constructor
  rintro first last event _ ⟨before, step, after⟩ ⟨ring, rfl, valid⟩
  have related : Constant first.config quantum first ring := ⟨rfl, before, valid⟩
  have reads : (∀ flow, Action.sentFrom flow (action first.config event) = sentOf event flow) ∧
      Action.acceptedSize (action first.config event) ≤ event.takenSize :=
    ⟨sentFrom_action first.config event, (acceptedSize_action first.config event).le⟩
  cases stands : action first.config event with
  | some act =>
      rcases related.step step stands with ⟨ring', moves, related'⟩
      rw [stands] at reads
      exact ⟨_, _, .action moves, ⟨ring', rfl, related'.unchanged ▸ related'.valid⟩, reads⟩
  | none =>
      rcases related.silent step after stands with ⟨same, related'⟩
      rw [stands] at reads
      refine ⟨none, port (slots first.q) ring, .turns .refl, ⟨ring, ?_, ?_⟩, reads⟩
      · rw [same]
      · exact related'.unchanged ▸ related'.valid

/-- A discipline just constructed shows an empty port. -/
theorem shows_initial {start : Sys} (initial : Initial start) : Shows start Port.empty := by
  refine ⟨[], ?_, ?_⟩
  · rw [initial]
    exact (port_of_empty fun i => rfl).symm
  · rw [initial]
    exact valid_construct start.config

/-- Queues that hold packets are backlogged at the port. -/
theorem backlogged_of_shows {i j : Fin 64} {shown : Port Nat}
    (busy : Backlogged i s ∧ Backlogged j s) (shows : Shows s shown) :
    shown.Backlogged fun flow : Nat => flow = i ∨ flow = j := by
  rcases shows with ⟨ring, rfl, -⟩
  have holds : ∀ {k : Fin 64}, Backlogged k s → (port (slots s.q) ring).fifo k ≠ [] := by
    intro k nonempty
    unfold port
    rw [Port.numbered_fifo]
    exact mt List.map_eq_nil_iff.mp nonempty
  rintro flow (rfl | rfl)
  · exact holds busy.1
  · exact holds busy.2

end

/-! ### Two backlogged queues -/

/-- Two packets for either of two queues. -/
def pairedHistory : List (Event Command) :=
  [.enque 0 (segment 0 1500 fullSize_pos) true, .enque 0 (segment 1 1500 fullSize_pos) true,
    .enque 0 (segment 0 1500 fullSize_pos) true, .enque 0 (segment 1 1500 fullSize_pos) true]

/-- The first of them leaves, and the quantum of its queue is set to what it is. -/
def pairedInterval : List (Event Command) :=
  [.deque 1 (some (0, segment 0 1500 fullSize_pos)), .command (.setQuantum 0 1500)]

private theorem pairedHistory_replays :
    (replay (Sys.next wholePow 8) (Granting fun _ => 1500) fresh pairedHistory).isSome = true := by
  decide +kernel

/-- The state the history leads to. -/
def paired : Sys :=
  (replay (Sys.next wholePow 8) (Granting fun _ => 1500) fresh pairedHistory).get
    pairedHistory_replays

private theorem pairedInterval_replays :
    (replay (Sys.next wholePow 8)
      (fun s => Granting (fun _ => 1500) s ∧ Backlogged 0 s ∧ Backlogged 1 s) paired
      pairedInterval).isSome = true := by
  decide +kernel

end MqEcn.Ns2.Dwrr
