import MqEcn.Kernel.Dwrr.Bookkeeping
import MqEcn.Library.Decay

/-!
Contract: what an enqueue of `sch_dwrr` does to the round times.

Owns: the range of the round times in every reachable state, the idle intervals
`reset_round` counts and the round times they leave alone, and the exact enqueues
that change no round time but that of the idle class they fill.

Does not own: the sign of a round time.
-/

set_option autoImplicit false

namespace MqEcn.Kernel.Dwrr

open MqEcn.Kernel
open MqEcn.Library
open MqEcn.Library.Transition
open MqEcn.Library.Word
open Relation (ReflTransGen)

/-! ### The range of the filter -/

/-- Every round time is what a shift by ten bits leaves of a 64-bit value. -/
def RoundsNarrow (q : DwrrSchedData) : Prop :=
  ∀ prio, -2 ^ 53 ≤ q.roundTime prio ∧ q.roundTime prio < 2 ^ 53

theorem ewmaRound_narrow (params : Params) (smooth sample : Int) :
    -2 ^ 53 ≤ ewmaRound params smooth sample ∧ ewmaRound params smooth sample < 2 ^ 53 := by
  unfold ewmaRound s64Ewma
  have range := s64_range (s64 (smooth * params.value .roundAlpha) +
    s64 (sample * ((1 <<< 10 : Nat) - params.value .roundAlpha)))
  rw [Int.shiftRight_eq_div_pow]
  omega

theorem RoundsNarrow.update {q q' : DwrrSchedData} (narrow : RoundsNarrow q) {prio : Fin 8}
    {value : Int} (inside : -2 ^ 53 ≤ value ∧ value < 2 ^ 53)
    (updated : q'.roundTime = Function.update q.roundTime prio value) : RoundsNarrow q' := by
  intro other
  rw [updated]
  by_cases same : other = prio
  · subst same
    rw [Function.update_self]
    exact inside
  · rw [Function.update_of_ne same]
    exact narrow other

/-- One interval of decay over unbounded integers, `alpha` in units of `1 / 1024`. -/
def decayRound (alpha smooth : Int) : Int := smooth * alpha / 1024

private theorem decayRound_mono {alpha smooth more : Int} (nonneg : 0 ≤ alpha)
    (le : smooth ≤ more) :
    decayRound alpha smooth ≤ decayRound alpha more :=
  Int.ediv_le_ediv (by decide) (mul_le_mul_of_nonneg_right le nonneg)

private theorem decayRound_eq_self_iff {alpha smooth : Int} :
    decayRound alpha smooth = smooth ↔
      -1024 < smooth * (1024 - alpha) ∧ smooth * (1024 - alpha) ≤ 0 := by
  have expand : smooth * (1024 - alpha) = smooth * 1024 - smooth * alpha := mul_sub _ _ _
  unfold decayRound
  omega

/-- In its range the filter decays a round time without wrapping. -/
theorem ewmaRound_zero {params : Params} {smooth : Int}
    (narrow : -2 ^ 53 ≤ smooth ∧ smooth < 2 ^ 53) :
    ewmaRound params smooth 0 = decayRound (params.value .roundAlpha) smooth := by
  have alpha : 0 ≤ params.value .roundAlpha ∧ params.value .roundAlpha ≤ 1024 :=
    params.admissible .roundAlpha
  have low : -2 ^ 63 ≤ smooth * params.value .roundAlpha := by nlinarith
  have high : smooth * params.value .roundAlpha < 2 ^ 63 := by nlinarith
  unfold ewmaRound s64Ewma decayRound
  rw [zero_mul, s64_of_range low high, s64_of_range (by decide) (by decide : (0 : Int) < 2 ^ 63),
    add_zero, s64_of_range low high, Int.shiftRight_eq_div_pow]
  rfl

/-- So do any number of intervals. -/
theorem iterate_ewmaRound {params : Params} {smooth : Int}
    (narrow : -2 ^ 53 ≤ smooth ∧ smooth < 2 ^ 53) (intervals : Nat) :
    (fun smooth => ewmaRound params smooth 0)^[intervals] smooth =
        (decayRound (params.value .roundAlpha))^[intervals] smooth ∧
      -2 ^ 53 ≤ (fun smooth => ewmaRound params smooth 0)^[intervals] smooth ∧
      (fun smooth => ewmaRound params smooth 0)^[intervals] smooth < 2 ^ 53 := by
  induction intervals with
  | zero => exact ⟨rfl, narrow⟩
  | succ intervals inductionHypothesis =>
      rcases inductionHypothesis with ⟨same, inside⟩
      rw [Function.iterate_succ_apply', Function.iterate_succ_apply', ← same]
      exact ⟨ewmaRound_zero inside, ewmaRound_narrow params _ 0⟩

/-! ### The reset -/

/-- The whole idle intervals `reset_round` counts for a priority without packets. -/
def idleIntervals (params : Params) (now : Int) (prio : Fin 8) (q : DwrrSchedData) : Int :=
  if 0 < params.value .idleIntervalNs then
    (now - q.lastIdleTime prio).tdiv (params.value .idleIntervalNs)
  else 0

/-- The round times that some idle intervals leave as they are. -/
def Rests (alpha intervals roundTime : Int) : Prop :=
  if intervals = 0 then True
  else if 0 < intervals ∧ intervals ≤ maxIteration then
    -1024 < roundTime * (1024 - alpha) ∧ roundTime * (1024 - alpha) ≤ 0
  else roundTime = 0

instance (alpha intervals roundTime : Int) : Decidable (Rests alpha intervals roundTime) := by
  unfold Rests
  infer_instance

section

variable {params : Params} {now : Int} {prio : Fin 8} {q : DwrrSchedData}

/-- The round time a reset gives an idle priority. -/
theorem resetRound_roundTime (idle : q.prioLenBytes prio = 0) :
    resetRound params now prio q =
      { q with
        roundTime := Function.update q.roundTime prio
          (if maxIteration < idleIntervals params now prio q ∨
              idleIntervals params now prio q < 0 then 0
          else (fun smooth => ewmaRound params smooth 0)^[(idleIntervals params now prio q).toNat]
            (q.roundTime prio)) } := by
  unfold resetRound idleIntervals
  simp only [idle, true_and]

private theorem RoundsNarrow.reset (narrow : RoundsNarrow q) (idle : q.prioLenBytes prio = 0) :
    RoundsNarrow (resetRound params now prio q) := by
  rw [resetRound_roundTime idle]
  apply narrow.update _ rfl
  split
  · decide
  · exact (iterate_ewmaRound (narrow prio) _).2

/-- A reset changes a round time unless it rests. -/
theorem resetRound_eq_self_iff (narrow : RoundsNarrow q) (idle : q.prioLenBytes prio = 0) :
    (resetRound params now prio q).roundTime prio = q.roundTime prio ↔
      Rests (params.value .roundAlpha) (idleIntervals params now prio q) (q.roundTime prio) := by
  have alpha : 0 ≤ params.value .roundAlpha := (params.admissible .roundAlpha).1
  rw [resetRound_roundTime idle]
  simp only [Function.update_self]
  unfold Rests
  generalize idleIntervals params now prio q = intervals
  by_cases none : intervals = 0
  · subst none
    simp [maxIteration]
  · rw [if_neg none]
    by_cases few : 0 < intervals ∧ intervals ≤ maxIteration
    · rw [if_pos few, if_neg (by omega), (iterate_ewmaRound (narrow prio) _).1,
        Decay.iterate_eq_self_iff (fun _ _ le => decayRound_mono alpha le) (by omega),
        decayRound_eq_self_iff]
    · rw [if_neg few, if_pos (by omega)]
      exact eq_comm

end

/-! ### Runs -/

private theorem RoundsNarrow.rotations {params : Params} {prio : Fin 8} {q middle : DwrrSchedData}
    (narrow : RoundsNarrow q) (rotations : ReflTransGen (Rotates params prio) q middle) :
    RoundsNarrow middle := by
  induction rotations with
  | refl => exact narrow
  | tail _ last inductionHypothesis =>
      cases last with
      | intro => exact inductionHypothesis.update (ewmaRound_narrow params _ _) rfl

private theorem RoundsNarrow.step {bfifo : Bfifo} {s s' : Sys} {event : Event Param}
    (step : Step bfifo s event s') (narrow : RoundsNarrow s.q) : RoundsNarrow s'.q := by
  cases step with
  | enqueue later returns =>
      intro prio
      rw [dwrrEnqueue_roundTime returns]
      split
      next idle => exact narrow.reset idle prio
      next => exact narrow prio
  | dequeue later returns =>
      rcases dwrrDequeue_cases returns with ⟨_, rfl, _⟩ | ⟨prio, middle, _, rotations, exit⟩
      · exact narrow
      · have rotated := narrow.rotations rotations
        cases exit with
        | fault | null | throttled => exact rotated
        | @packet i ring skb rest head front affordable enough =>
            by_cases last : rest = []
            · exact rotated.update (ewmaRound_narrow s.params _ _) (if_pos last)
            · intro other
              rw [show (dwrrTransmit s.params _ prio i skb rest _ middle).1.roundTime =
                middle.roundTime from if_neg last]
              exact rotated other
  | sysctl => exact narrow
  | change => exact narrow

private theorem roundsNarrow_of_reachable {bfifo : Bfifo} {s : Sys}
    (reachable : Reachable bfifo s) :
    RoundsNarrow s.q := by
  apply reachable.invariant (fun s => RoundsNarrow s.q) _ RoundsNarrow.step
  rintro start ⟨rate, initial⟩ prio
  rw [initial]
  exact ⟨show (-2 ^ 53 : Int) ≤ 0 by decide, show (0 : Int) < 2 ^ 53 by decide⟩

/-! ### Enqueues -/

/-- What an enqueue to queue `i` may do: nothing at all where it refuses the packet, and
otherwise nothing to a round time but that of the class it fills, if that was idle. -/
structure Confined (q q' : DwrrSchedData) (i : Fin 8) (ret : NetXmit) : Prop where
  refused : ret ≠ .success → q' = q
  filled : ret = .success → ∀ prio, q'.roundTime prio ≠ q.roundTime prio →
    prio = (q'.queues i).prio ∧ q.prioLenBytes prio = 0

/-- The packet is taken, by an empty queue or by one that has its configured priority. -/
def Fills (bfifo : Bfifo) (params : Params) (skb : Skb) (q : DwrrSchedData) : Prop :=
  let i := dwrrClassify params skb
  dwrrBufferOverfill params (skbSize skb) i q = false ∧
    bfifo (q.queues i).qdisc skb = .success ∧
    ((q.queues i).qdisc = [] ∨ (q.queues i).prio = params.queuePrio i)

section

variable {bfifo : Bfifo} {params : Params} {now : Int} {skb : Skb} {q q' : DwrrSchedData}
  {ret : NetXmit}

private theorem success_iff (returns : dwrrEnqueue bfifo params now skb q = (q', ret)) :
    ret = .success ↔
      dwrrBufferOverfill params (skbSize skb) (dwrrClassify params skb) q = false ∧
        bfifo (q.queues (dwrrClassify params skb)).qdisc skb = .success := by
  rw [dwrrEnqueue_ret returns]
  split
  next overfilled => simp [overfilled]
  next fits => simp [fits]

/-- An enqueue that resets no round time is confined. -/
theorem Confined.of_roundTime (returns : dwrrEnqueue bfifo params now skb q = (q', ret))
    (rests : q'.roundTime = q.roundTime) : Confined q q' (dwrrClassify params skb) ret := by
  constructor
  · intro refused
    rcases dwrrEnqueue_cases returns with ⟨roundTime, ⟨_, rfl⟩ | ⟨taken, _⟩⟩
    · have same : roundTime = q.roundTime := rests
      rw [same]
    · exact absurd taken refused
  · intro _ prio changed
    exact absurd (congrFun rests prio) changed

/-- One that changes the round time of its configured priority is if it fills the class. -/
theorem confined_iff_fills (returns : dwrrEnqueue bfifo params now skb q = (q', ret))
    (idle : q.prioLenBytes (params.queuePrio (dwrrClassify params skb)) = 0)
    (changed : q'.roundTime (params.queuePrio (dwrrClassify params skb)) ≠
      q.roundTime (params.queuePrio (dwrrClassify params skb)))
    (others : ∀ prio ≠ params.queuePrio (dwrrClassify params skb),
      q'.roundTime prio = q.roundTime prio) :
    Confined q q' (dwrrClassify params skb) ret ↔ Fills bfifo params skb q := by
  have success := success_iff returns
  rcases dwrrEnqueue_cases returns with ⟨roundTime, ⟨refused, rfl⟩ | ⟨taken, _, rfl⟩⟩
  · constructor
    · intro confined
      exact absurd (congrFun (congrArg DwrrSchedData.roundTime (confined.refused refused)) _)
        changed
    · rintro ⟨fits, accepted, _⟩
      exact absurd (success.mpr ⟨fits, accepted⟩) refused
  · rcases success.mp taken with ⟨fits, accepted⟩
    have entered := dwrrAdmit_prio params now (dwrrClassify params skb)
      (params.queuePrio (dwrrClassify params skb)) skb { q with roundTime }
      (dwrrClassify params skb)
    simp only [true_and] at entered
    constructor
    · intro confined
      have own := (confined.filled taken _ changed).1
      refine ⟨fits, accepted, ?_⟩
      by_cases empty : (q.queues (dwrrClassify params skb)).qdisc = []
      · exact Or.inl empty
      · rw [entered, if_neg empty] at own
        exact Or.inr own.symm
    · rintro ⟨_, _, fills⟩
      refine ⟨fun refused => absurd taken refused, fun _ prio different => ?_⟩
      by_cases here : prio = params.queuePrio (dwrrClassify params skb)
      · refine ⟨?_, here ▸ idle⟩
        rw [here, entered]
        rcases fills with empty | own
        · rw [if_pos empty]
        · split
          · rfl
          · exact own.symm
      · exact absurd (others prio here) different

private theorem confined_iff (narrow : RoundsNarrow q)
    (returns : dwrrEnqueue bfifo params now skb q = (q', ret)) :
    Confined q q' (dwrrClassify params skb) ret ↔
      q.prioLenBytes (params.queuePrio (dwrrClassify params skb)) ≠ 0 ∨
        Rests (params.value .roundAlpha)
          (idleIntervals params now (params.queuePrio (dwrrClassify params skb)) q)
          (q.roundTime (params.queuePrio (dwrrClassify params skb))) ∨
        Fills bfifo params skb q := by
  have roundTime := dwrrEnqueue_roundTime returns
  by_cases idle : q.prioLenBytes (params.queuePrio (dwrrClassify params skb)) = 0
  · rw [if_pos idle] at roundTime
    rw [← resetRound_eq_self_iff narrow idle, ← roundTime]
    have others : ∀ prio ≠ params.queuePrio (dwrrClassify params skb),
        q'.roundTime prio = q.roundTime prio := by
      intro prio different
      rw [roundTime]
      exact Function.update_of_ne different _ _
    by_cases rests : q'.roundTime (params.queuePrio (dwrrClassify params skb)) =
        q.roundTime (params.queuePrio (dwrrClassify params skb))
    · refine iff_of_true (.of_roundTime returns ?_) (Or.inr (Or.inl rests))
      funext prio
      by_cases here : prio = params.queuePrio (dwrrClassify params skb)
      · rw [here, rests]
      · exact others prio here
    · rw [confined_iff_fills returns idle rests others]
      constructor
      · intro fills
        exact Or.inr (Or.inr fills)
      · rintro (busy | still | fills)
        · exact absurd idle busy
        · exact absurd still rests
        · exact fills
  · rw [if_neg idle] at roundTime
    exact iff_of_true (.of_roundTime returns roundTime) (Or.inl idle)

end

/-- **Enqueues and round times.** An enqueue leaves the scheduler untouched when it refuses
the packet, and no round time changed but that of the idle class it fills, if and only if the
configured priority of the queue is busy, or its round time rests, or the packet is taken and
counted under that priority. -/
theorem enqueue_confined_iff {bfifo : Bfifo} {s : Sys} (reachable : Reachable bfifo s)
    (now : Int) (skb : Skb) :
    Confined s.q (dwrrEnqueue bfifo s.params now skb s.q).1 (dwrrClassify s.params skb)
        (dwrrEnqueue bfifo s.params now skb s.q).2 ↔
      s.q.prioLenBytes (s.params.queuePrio (dwrrClassify s.params skb)) ≠ 0 ∨
        Rests (s.params.value .roundAlpha)
          (idleIntervals s.params now (s.params.queuePrio (dwrrClassify s.params skb)) s.q)
          (s.q.roundTime (s.params.queuePrio (dwrrClassify s.params skb))) ∨
        Fills bfifo s.params skb s.q :=
  confined_iff (roundsNarrow_of_reachable reachable) rfl

/-! ### Packets that are refused, and packets counted elsewhere -/

/-- A short frame has passed through queue 0, and the shared buffer has no room for a
full-sized one. -/
def narrowBuffer : List (Event Param) :=
  [.sysctl .sharedBuffer 1000, .enqueue 0 shortFrame .success,
    .dequeue 100000 (.packet 0 shortFrame)]

private theorem narrowBuffer_replays :
    (replay (Sys.next byteLimit 4) (fun _ => True) idle narrowBuffer).isSome = true := by
  decide

/-- Queue 1 has been idle in priority 1 for a while, and queue 0 holds a frame of priority 0
but is configured for priority 1 now. -/
def movedQueue : List (Event Param) :=
  [.sysctl (.queuePrio 1) 1, .enqueue 0 (fullFrame 4) .success,
    .dequeue 100000 (.packet 1 (fullFrame 4)), .enqueue 100000 (fullFrame 0) .success,
    .sysctl (.queuePrio 0) 1]

private theorem movedQueue_replays :
    (replay (Sys.next byteLimit 4) (fun _ => True) idle movedQueue).isSome = true := by
  decide

def narrowed : Sys :=
  (replay (Sys.next byteLimit 4) (fun _ => True) idle narrowBuffer).get narrowBuffer_replays

def moved : Sys :=
  (replay (Sys.next byteLimit 4) (fun _ => True) idle movedQueue).get movedQueue_replays

private theorem narrowed_reachable : Reachable byteLimit narrowed :=
  ⟨idle, narrowBuffer, ⟨_, rfl⟩,
    (RunWithin.of_replay_isSome Sys.next_sound narrowBuffer_replays).run⟩

private theorem moved_reachable : Reachable byteLimit moved :=
  ⟨idle, movedQueue, ⟨_, rfl⟩,
    (RunWithin.of_replay_isSome Sys.next_sound movedQueue_replays).run⟩

private theorem narrowed_decays :
    (dwrrEnqueue byteLimit narrowed.params 124000 (fullFrame 0) narrowed.q).2 = .drop ∧
      narrowed.q.roundTime 0 = 25168 ∧
      (dwrrEnqueue byteLimit narrowed.params 124000 (fullFrame 0) narrowed.q).1.roundTime 0 =
        14157 := by
  decide

private theorem moved_decays :
    (dwrrEnqueue byteLimit moved.params 124000 (fullFrame 0) moved.q).2 = .success ∧
      ((dwrrEnqueue byteLimit moved.params 124000 (fullFrame 0) moved.q).1.queues 0).prio = 0 ∧
      (dwrrEnqueue byteLimit moved.params 124000 (fullFrame 0) moved.q).1.roundTime 1 ≠
        moved.q.roundTime 1 := by
  decide

/-- A frame that is refused after two idle intervals decays the round time of its priority,
and one that is counted under priority 0 decays that of priority 1. -/
theorem roundTime_unconfined :
    (Reachable byteLimit narrowed ∧
      ¬Confined narrowed.q
        (dwrrEnqueue byteLimit narrowed.params 124000 (fullFrame 0) narrowed.q).1 0
        (dwrrEnqueue byteLimit narrowed.params 124000 (fullFrame 0) narrowed.q).2) ∧
    Reachable byteLimit moved ∧
      ¬Confined moved.q (dwrrEnqueue byteLimit moved.params 124000 (fullFrame 0) moved.q).1 0
        (dwrrEnqueue byteLimit moved.params 124000 (fullFrame 0) moved.q).2 := by
  refine ⟨⟨narrowed_reachable, fun confined => ?_⟩, moved_reachable, fun confined => ?_⟩
  · rcases narrowed_decays with ⟨dropped, before, after⟩
    have refused : (dwrrEnqueue byteLimit narrowed.params 124000 (fullFrame 0) narrowed.q).2 ≠
        .success := by
      rw [dropped]
      decide
    rw [confined.refused refused, before] at after
    exact absurd after (by decide)
  · rcases moved_decays with ⟨taken, counted, decays⟩
    have own := (confined.filled taken 1 decays).1
    rw [counted] at own
    exact absurd own (by decide)

/-- The frame that finds its idle class again after two intervals. -/
theorem returning_confined :
    Confined narrowed.q (dwrrEnqueue byteLimit narrowed.params 124000 shortFrame narrowed.q).1
      (dwrrClassify narrowed.params shortFrame)
      (dwrrEnqueue byteLimit narrowed.params 124000 shortFrame narrowed.q).2 :=
  (enqueue_confined_iff narrowed_reachable 124000 shortFrame).mpr
    (Or.inr (Or.inr ⟨by decide, by decide, Or.inl (by decide)⟩))

end MqEcn.Kernel.Dwrr
