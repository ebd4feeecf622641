import Mathlib.Tactic.Positivity
import MqEcn.Kernel.PrioDwrr.Schedule

/-!
Contract: the fairness of the DWRR queues of `sch_prio_dwrr` under any priority traffic.

Owns: the qdisc as an implementation of the port its active list stands for, with whatever
the priority queue sends and the token bucket refuses in between, and the bound on what two
DWRR queues that stay backlogged send.

Does not own: the bound for a port, and how the quanta are set.
-/

set_option autoImplicit false

namespace MqEcn.Kernel.PrioDwrr

open MqEcn.Kernel
open MqEcn.Library
open MqEcn.Library.RingSchedule
open MqEcn.Library.Transition

/-- The quanta the parameters grant. -/
def Granting (quantum : Fin 7 → Nat) (s : Sys) : Prop :=
  ∀ i, s.params.queueQuantum i = quantum i

instance (quantum : Fin 7 → Nat) : DecidablePred (Granting quantum) := fun s =>
  inferInstanceAs (Decidable (∀ i, s.params.queueQuantum i = quantum i))

/-- The DWRR queue holds a packet. -/
def Backlogged (i : Fin 7) (s : Sys) : Prop := (s.q.dwrrQueues i).qdisc ≠ []

instance (i : Fin 7) (s : Sys) : Decidable (Backlogged i s) :=
  inferInstanceAs (Decidable ((s.q.dwrrQueues i).qdisc ≠ []))

/-- The port the qdisc shows. -/
def Shows (s : Sys) (shown : Port Nat) : Prop := shown = port s.q ∧ Steady s.q

/-- Accounted bytes of the packet an event took from the DWRR queue of a number. -/
def dwrrSent (event : Event Param) (flow : Nat) : Nat :=
  spread (fun i : Fin 7 => event.sentFrom (dwrrId i)) flow

section

variable {bfifo : Bfifo} {quantum : Fin 7 → Nat} {s : Sys}

/-- What an event stands for sends what the event takes from the DWRR queues. -/
theorem sentFrom_action (params : Params) (event : Event Param) (flow : Nat) :
    Action.sentFrom flow (action params event) = dwrrSent event flow := by
  have silent : (∀ i, event.sentFrom (dwrrId i) = 0) → dwrrSent event flow = 0 := by
    intro nothing
    unfold dwrrSent
    rw [funext nothing, spread_zero]
  cases event with
  | enqueue now skb ret =>
      rw [silent fun i => rfl]
      cases ret with
      | success =>
          unfold action
          simp only
          split <;> rfl
      | drop | cn => rfl
  | sysctl | change => exact (silent fun i => rfl).symm
  | dequeue now outcome =>
      cases outcome with
      | null | throttled | fault => exact (silent fun i => rfl).symm
      | packet id skb =>
          cases target : queueOf id with
          | inl k =>
              obtain rfl := eq_prioId_of_queueOf target
              rw [silent fun i => if_neg (dwrrId_ne_prioId i k).symm]
              simp only [action, queueOf_prioId]
              rfl
          | inr k =>
              obtain rfl := eq_dwrrId_of_queueOf target
              simp only [action, queueOf_dwrrId, Action.sentFrom]
              unfold dwrrSent
              simp only [Event.sentFrom, dwrrId_inj]
              exact (spread_ite k (skbSize skb) flow).symm

/-- An event takes no more than the packet it accepts. -/
theorem acceptedSize_action (params : Params) (event : Event Param) :
    Action.acceptedSize (action params event) ≤ event.acceptedSize := by
  unfold action
  split
  · split
    · exact Nat.zero_le _
    · exact le_refl _
  · exact Nat.zero_le _
  · split <;> exact Nat.zero_le _
  · exact Nat.zero_le _

/-- The qdisc implements the port its active list stands for. -/
theorem implements (bounded : bfifo.Bounded) (quantum : Fin 7 → Nat) :
    Implements (Step bfifo) (Granting quantum) (spread quantum) Shows dwrrSent
      Event.acceptedSize := by
  constructor
  rintro first last event _ ⟨granting, step, _⟩ ⟨rfl, steady⟩
  rcases steady.answer bounded step with ⟨answers, after⟩
  have granted : quanta first.params = spread quantum := by
    unfold quanta
    rw [funext granting]
  rw [granted] at answers
  exact ⟨_, _, answers, ⟨rfl, after⟩, sentFrom_action _ _, acceptedSize_action _ _⟩

/-- A fresh qdisc shows an empty port. -/
theorem shows_initial {start : Sys} (fresh : Initial start) : Shows start Port.empty := by
  rcases fresh with ⟨rate, initial⟩
  have scheduled : Scheduled start.q := by
    rw [initial]
    exact scheduled_qdiscInit start.clock rate
  have empty : port start.q = Port.empty := by
    apply port_of_empty scheduled
    intro i
    rw [initial]
    rfl
  refine ⟨empty.symm, scheduled, ?_, ?_⟩
  · rw [initial]
    exact counted_qdiscInit start.clock rate
  · rw [empty]
    exact List.forall_mem_nil _

/-- Queues that hold packets are backlogged at the port. -/
theorem backlogged_of_shows {i j : Fin 7} {shown : Port Nat}
    (busy : Backlogged i s ∧ Backlogged j s) (shows : Shows s shown) :
    shown.Backlogged fun flow : Nat => flow = i ∨ flow = j := by
  rcases shows with ⟨rfl, -⟩
  have holds : ∀ {k : Fin 7}, Backlogged k s → (port s.q).fifo k ≠ [] := by
    intro k nonempty
    unfold port
    rw [Port.numbered_fifo]
    exact mt List.map_eq_nil_iff.mp nonempty
  rintro flow (rfl | rfl)
  · exact holds busy.1
  · exact holds busy.2

/-- **Weighted fairness behind a priority queue.** With constant quanta, two DWRR queues that
stay backlogged over an interval are dequeued by byte counts that, each in its own quanta,
differ by at most three and the largest packet of the run in either quantum, whatever the
priority queue sends and the token bucket refuses in the interval. -/
theorem prioDwrr_weighted_fairness (bounded : bfifo.Bounded) {i j : Fin 7}
    {start first last : Sys} {history interval : List (Event Param)} (fresh : Initial start)
    (before : RunWithin (Granting quantum) (Step bfifo) start history first)
    (during : RunWithin (fun s => Granting quantum s ∧ Backlogged i s ∧ Backlogged j s)
      (Step bfifo) first interval last) :
    |(sentBytes (dwrrId i) interval : ℚ) / quantum i -
        (sentBytes (dwrrId j) interval : ℚ) / quantum j| ≤
      3 + (largestSize (history ++ interval) : ℚ) / quantum i +
        (largestSize (history ++ interval) : ℚ) / quantum j := by
  have positive : ∀ k, 0 < spread quantum (k : Fin 7) := fun k => by
    rw [spread_val, ← during.1.1 k]
    exact lt_of_lt_of_le (by decide) (first.params.queueQuantum_range k).1
  have fair := (implements bounded quantum).weighted_fairness backlogged_of_shows (positive i)
    (positive j) (shows_initial fresh) before during
    fun event member => acceptedSize_le_largestSize member
  have sent : ∀ k : Fin 7,
      (interval.map fun event => dwrrSent event k).sum = sentBytes (dwrrId k) interval := by
    intro k
    unfold dwrrSent sentBytes
    simp only [spread_val]
  rwa [sent, sent, spread_val, spread_val] at fair

end

/-! ### Two backlogged queues behind a priority frame -/

/-- Two frames for either DWRR queue, and one for the priority queue. -/
def crossedHistory : List (Event Param) :=
  [.enqueue 10 (fullFrame 4) .success, .enqueue 20 (fullFrame 8) .success,
    .enqueue 30 (fullFrame 4) .success, .enqueue 40 (fullFrame 8) .success,
    .enqueue 50 (fullFrame 0) .success]

/-- The priority frame leaves first, the next dequeue is refused, and one frame of a DWRR
queue leaves. -/
def crossedInterval : List (Event Param) :=
  [.dequeue 20000 (.packet 0 (fullFrame 0)), .dequeue 20010 (.throttled 24608),
    .dequeue 40000 (.packet 1 (fullFrame 4))]

private theorem crossedHistory_replays :
    (replay (Sys.next byteLimit 1) (Granting fun _ => 1538) idle crossedHistory).isSome = true := by
  decide

/-- The state the history leads to. -/
def crossed : Sys :=
  (replay (Sys.next byteLimit 1) (Granting fun _ => 1538) idle crossedHistory).get
    crossedHistory_replays

private theorem crossedInterval_replays :
    (replay (Sys.next byteLimit 1)
      (fun s => Granting (fun _ => 1538) s ∧ Backlogged 0 s ∧ Backlogged 1 s) crossed
      crossedInterval).isSome = true := by
  decide

theorem crossed_weighted_fairness :
    |(sentBytes (dwrrId 0) crossedInterval : ℚ) / (1538 : Nat) -
        (sentBytes (dwrrId 1) crossedInterval : ℚ) / (1538 : Nat)| ≤
      3 + (largestSize (crossedHistory ++ crossedInterval) : ℚ) / (1538 : Nat) +
        (largestSize (crossedHistory ++ crossedInterval) : ℚ) / (1538 : Nat) :=
  @prioDwrr_weighted_fairness byteLimit (fun _ => 1538) byteLimit_bounded 0 1 idle crossed _
    crossedHistory crossedInterval ⟨_, rfl⟩
    (.of_replay_isSome Sys.next_sound crossedHistory_replays)
    (.of_replay_isSome Sys.next_sound crossedInterval_replays)

end MqEcn.Kernel.PrioDwrr
