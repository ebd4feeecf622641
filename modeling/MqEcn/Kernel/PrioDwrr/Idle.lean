import MqEcn.Kernel.PrioDwrr.Bookkeeping
import MqEcn.Library.Decay

/-!
Contract: the decay of the two estimates of `sch_prio_dwrr` while its DWRR queues are empty.

Owns: the range of `quantum_sum_estimate`, what one arrival does to the estimates, the
intervals by which the arrivals of an idle period decay them, the condition under which that
is the decay of one idle period, and runs on which it is not.

Does not own: the estimates while a DWRR queue holds packets.
-/

set_option autoImplicit false

namespace MqEcn.Kernel.PrioDwrr

open Finset
open MqEcn.Kernel
open MqEcn.Library
open MqEcn.Library.Transition
open MqEcn.Library.Word
open Relation (ReflTransGen)

/-! ### The range of the estimate of the quanta -/

/-- The quanta of all seven queues together. -/
def quantumTotal : Nat := 7 * quantumMax

/-- `PRIO_DWRR_QDISC_QUANTUM_ALPHA`. -/
def quantumAlpha (params : Params) : Nat := (params.value .quantumAlpha).toNat

private theorem quantumAlpha_le (params : Params) : quantumAlpha params ≤ 1000 := by
  have range := params.alpha_range.1
  unfold quantumAlpha
  omega

/-- The sum of the two products stays below `2 ^ 32`, and so does the smoothing. -/
theorem smoothQuantumSum_eq (params : Params) {quantumSumEstimate quantumSum : Nat}
    (estimate : quantumSumEstimate ≤ quantumTotal) (sum : quantumSum ≤ quantumTotal) :
    quantumAlpha params * quantumSumEstimate + (1000 - quantumAlpha params) * quantumSum <
        2 ^ 32 ∧
      smoothQuantumSum params quantumSumEstimate quantumSum =
        (quantumAlpha params * quantumSumEstimate + (1000 - quantumAlpha params) * quantumSum) /
          1000 := by
  have range := params.alpha_range.1
  have kept : u32OfInt (params.value .quantumAlpha) = quantumAlpha params := by
    unfold u32OfInt quantumAlpha
    omega
  have rest : u32OfInt (1000 - params.value .quantumAlpha) = 1000 - quantumAlpha params := by
    unfold u32OfInt quantumAlpha
    omega
  have first : quantumAlpha params * quantumSumEstimate ≤ quantumAlpha params * quantumTotal :=
    Nat.mul_le_mul_left _ estimate
  have second : (1000 - quantumAlpha params) * quantumSum ≤
      (1000 - quantumAlpha params) * quantumTotal := Nat.mul_le_mul_left _ sum
  have together : quantumAlpha params * quantumTotal +
      (1000 - quantumAlpha params) * quantumTotal = 1000 * quantumTotal := by
    rw [← Nat.add_mul, Nat.add_sub_of_le (quantumAlpha_le params)]
  have whole : 1000 * quantumTotal < 2 ^ 32 := by decide
  have both : quantumAlpha params * quantumSumEstimate +
      (1000 - quantumAlpha params) * quantumSum < 2 ^ 32 := by omega
  refine ⟨both, ?_⟩
  unfold smoothQuantumSum
  rw [kept, rest, u32_of_lt (lt_of_le_of_lt (Nat.le_add_right _ _) both),
    u32_of_lt (lt_of_le_of_lt (Nat.le_add_left _ _) both), u32_of_lt both]

private theorem smoothQuantumSum_le (params : Params) {quantumSumEstimate quantumSum : Nat}
    (estimate : quantumSumEstimate ≤ quantumTotal) (sum : quantumSum ≤ quantumTotal) :
    smoothQuantumSum params quantumSumEstimate quantumSum ≤ quantumTotal := by
  have alpha := quantumAlpha_le params
  rw [(smoothQuantumSum_eq params estimate sum).2]
  apply Nat.div_le_of_le_mul
  calc quantumAlpha params * quantumSumEstimate + (1000 - quantumAlpha params) * quantumSum
      ≤ quantumAlpha params * quantumTotal + (1000 - quantumAlpha params) * quantumTotal :=
        Nat.add_le_add (Nat.mul_le_mul_left _ estimate) (Nat.mul_le_mul_left _ sum)
    _ = 1000 * quantumTotal := by rw [← Nat.add_mul, Nat.add_sub_of_le alpha]

theorem decayQuantumSum_eq (params : Params) {quantumSumEstimate : Nat}
    (estimate : quantumSumEstimate ≤ quantumTotal) :
    (decayQuantumSum params quantumSumEstimate : Int) =
      quantumSumEstimate * params.value .quantumAlpha / 1000 := by
  rcases params.alpha_range.1 with ⟨low, high⟩
  rcases Int.eq_ofNat_of_zero_le low with ⟨alpha, isAlpha⟩
  have small : alpha ≤ 1000 := by omega
  have kept : u32OfInt (params.value .quantumAlpha) = alpha := by
    unfold u32OfInt
    omega
  have product : quantumSumEstimate * alpha ≤ quantumTotal * 1000 :=
    Nat.mul_le_mul estimate small
  unfold quantumTotal quantumMax at product
  unfold decayQuantumSum
  rw [kept, u32_of_lt (by omega), isAlpha]
  push_cast
  rfl

/-! ### One idle reset -/

/-- Whole intervals between the start of the idle period and now. -/
def idleIntervals (params : Params) (start now : Int) : Nat :=
  ((now - start) / params.value .idleIntervalNs).toNat

/-- The settings under which the idle reset decays the estimates by intervals. -/
def Decaying (params : Params) : Prop :=
  (params.value .ecnScheme = 4 ∨ params.value .ecnScheme = 3) ∧ 0 < params.value .idleIntervalNs

instance (params : Params) : Decidable (Decaying params) := by
  unfold Decaying
  infer_instance

/-- `PRIO_DWRR_QDISC_MAX_ITERATION`, as a number of intervals. -/
def decayLimit : Nat := maxIteration.toNat

private theorem idleReset_eq {params : Params} {now : Int} {q : PrioDwrrSchedData}
    (decaying : Decaying params) (later : q.lastIdleTimeNs ≤ now) :
    idleReset params now q =
      if q.sumLenBytes = 0 then
        { q with
          roundTimeNs := Decay.after (decayRoundTime params) 0 decayLimit
            (idleIntervals params q.lastIdleTimeNs now) q.roundTimeNs
          quantumSumEstimate := Decay.after (decayQuantumSum params) 0 decayLimit
            (idleIntervals params q.lastIdleTimeNs now) q.quantumSumEstimate }
      else q := by
  rcases decaying with ⟨scheme, positive⟩
  have floors : (now - q.lastIdleTimeNs).tdiv (params.value .idleIntervalNs) =
      (now - q.lastIdleTimeNs) / params.value .idleIntervalNs :=
    Int.tdiv_eq_ediv_of_nonneg (by omega)
  have nonneg : 0 ≤ (now - q.lastIdleTimeNs) / params.value .idleIntervalNs :=
    Int.ediv_nonneg (by omega) positive.le
  unfold idleReset
  by_cases empty : q.sumLenBytes = 0
  · simp only [empty, scheme, positive, true_and, and_self, if_true, floors]
    unfold Decay.after idleIntervals decayLimit maxIteration
    by_cases few : (now - q.lastIdleTimeNs) / params.value .idleIntervalNs ≤ 10
    · rw [if_pos few, if_pos (by omega), if_pos (by omega)]
    · rw [if_neg few, if_neg (by omega), if_neg (by omega)]
  · rw [if_neg fun both => empty both.1, if_neg empty]

/-! ### An idle period -/

/-- Packets in the port after an event. -/
def heldAfter (held : Nat) : Event Param → Nat
  | .enqueue _ _ .success => held + 1
  | .dequeue _ (.packet _ _) => held - 1
  | _ => held

/-- The intervals by which an event decays the estimates: an arrival does so if it finds no
packet in the port at all. -/
def decaysAt (params : Params) (start : Int) (held : Nat) : Event Param → List Nat
  | .enqueue now _ _ => if held = 0 then [idleIntervals params start now] else []
  | _ => []

/-- The intervals by which the events of an idle period decay the estimates. -/
def idleDecays (params : Params) (start : Int) : Nat → List (Event Param) → List Nat
  | _, [] => []
  | held, event :: events =>
      decaysAt params start held event ++ idleDecays params start (heldAfter held event) events

private theorem idleDecays_append (params : Params) (start : Int) (held : Nat)
    (events events' : List (Event Param)) :
    idleDecays params start held (events ++ events') =
      idleDecays params start held events ++
        idleDecays params start (events.foldl heldAfter held) events' := by
  induction events generalizing held with
  | nil => rfl
  | cons event events inductionHypothesis =>
      simp only [List.cons_append, idleDecays, inductionHypothesis, List.foldl_cons,
        List.append_assoc]

/-- No DWRR queue holds a packet. -/
def DwrrIdle (q : PrioDwrrSchedData) : Prop := ∀ i, (q.dwrrQueues i).qdisc = []

instance (q : PrioDwrrSchedData) : Decidable (DwrrIdle q) := by
  unfold DwrrIdle
  infer_instance

/-- What the events of an idle period do: only arrivals that find the port empty decay the
estimates, and all of them count from the same start. -/
structure Decays (params : Params) (events : List (Event Param)) (q q' : PrioDwrrSchedData) :
    Prop where
  start : q'.lastIdleTimeNs = q.lastIdleTimeNs
  held : q'.qlen = events.foldl heldAfter q.qlen
  roundTimeNs : q'.roundTimeNs =
    Decay.leaves (decayRoundTime params) 0
      (Decay.total decayLimit (idleDecays params q.lastIdleTimeNs q.qlen events)) q.roundTimeNs
  quantumSumEstimate : q'.quantumSumEstimate =
    Decay.leaves (decayQuantumSum params) 0
      (Decay.total decayLimit (idleDecays params q.lastIdleTimeNs q.qlen events))
      q.quantumSumEstimate

private theorem decayRoundTime_zero (params : Params) : decayRoundTime params 0 = 0 := by
  simp [decayRoundTime, s64]

private theorem decayQuantumSum_zero (params : Params) : decayQuantumSum params 0 = 0 := by
  simp [decayQuantumSum, u32]

namespace Decays

variable {params : Params} {q q' q'' : PrioDwrrSchedData}

private theorem refl (params : Params) (q : PrioDwrrSchedData) : Decays params [] q q :=
  ⟨rfl, rfl, rfl, rfl⟩

private theorem trans {events events' : List (Event Param)} (first : Decays params events q q')
    (rest : Decays params events' q' q'') : Decays params (events ++ events') q q'' := by
  have split := idleDecays_append params q.lastIdleTimeNs q.qlen events events'
  rw [← first.held] at split
  refine ⟨rest.start.trans first.start, ?_, ?_, ?_⟩
  · rw [rest.held, first.held, List.foldl_append]
  · rw [split, ← Decay.leaves_append (decayRoundTime_zero params), ← first.roundTimeNs,
      rest.roundTimeNs, first.start]
  · rw [split, ← Decay.leaves_append (decayQuantumSum_zero params), ← first.quantumSumEstimate,
      rest.quantumSumEstimate, first.start]

/-- An event that leaves the estimates alone. -/
theorem of_same {event : Event Param} (silent : ∀ start held, decaysAt params start held event = [])
    (start : q'.lastIdleTimeNs = q.lastIdleTimeNs) (held : q'.qlen = heldAfter q.qlen event)
    (roundTimeNs : q'.roundTimeNs = q.roundTimeNs)
    (quantumSumEstimate : q'.quantumSumEstimate = q.quantumSumEstimate) :
    Decays params [event] q q' := by
  have nothing : idleDecays params q.lastIdleTimeNs q.qlen [event] = [] := by
    simp only [idleDecays, silent, List.append_nil]
  refine ⟨start, held, ?_, ?_⟩
  · rw [nothing]
    exact roundTimeNs
  · rw [nothing]
    exact quantumSumEstimate

/-- An arrival: the estimates are those of the reset port. -/
theorem of_reset {now : Int} {skb : Skb} {ret : NetXmit} (decaying : Decaying params)
    (counted : Counted q) (later : q.lastIdleTimeNs ≤ now)
    (start : q'.lastIdleTimeNs = q.lastIdleTimeNs)
    (held : q'.qlen = heldAfter q.qlen (.enqueue now skb ret))
    (roundTimeNs : q'.roundTimeNs = (idleReset params now q).roundTimeNs)
    (quantumSumEstimate : q'.quantumSumEstimate =
      (idleReset params now q).quantumSumEstimate) :
    Decays params [.enqueue now skb ret] q q' := by
  rcases counted with ⟨dwrrLenBytes, balanced⟩
  have empty_iff : q.sumLenBytes = 0 ↔ q.qlen = 0 := balanced.sumLenBytes_eq_zero_iff
  have list : idleDecays params q.lastIdleTimeNs q.qlen [.enqueue now skb ret] =
      if q.qlen = 0 then [idleIntervals params q.lastIdleTimeNs now] else [] := by
    simp only [idleDecays, decaysAt, List.append_nil]
  rw [idleReset_eq decaying later] at roundTimeNs quantumSumEstimate
  refine ⟨start, held, ?_, ?_⟩
  · rw [roundTimeNs, list]
    by_cases empty : q.qlen = 0
    · rw [if_pos (empty_iff.mpr empty), if_pos empty]
      exact Decay.after_eq_leaves _ _ _ _ _
    · rw [if_neg (mt empty_iff.mp empty), if_neg empty]
      rfl
  · rw [quantumSumEstimate, list]
    by_cases empty : q.qlen = 0
    · rw [if_pos (empty_iff.mpr empty), if_pos empty]
      exact Decay.after_eq_leaves _ _ _ _ _
    · rw [if_neg (mt empty_iff.mp empty), if_neg empty]
      rfl

end Decays

/-- What every reachable state is, as far as an idle period depends on it. -/
structure Sound (s : Sys) : Prop where
  scheduled : Scheduled s.q
  counted : Counted s.q
  started : s.q.lastIdleTimeNs ≤ s.clock
  estimate_le : s.q.quantumSumEstimate ≤ quantumTotal

section

variable {bfifo : Bfifo} {first last : Sys} {event : Event Param}

private theorem qlen_succ {q : PrioDwrrSchedData} (counted : Counted q) :
    u32 (q.qlen + 1) = q.qlen + 1 := by
  rcases counted with ⟨dwrrLenBytes, balanced⟩
  have bound : q.qlen ≤ 8 * maxBufferBytes := balanced.qlen_le
  unfold maxBufferBytes at bound
  exact u32_of_lt (by omega)

/-- What one event does while no DWRR queue holds a packet. -/
theorem decays_of_step (step : Step bfifo first event last) (sound : Sound first)
    (decaying : Decaying first.params) (idle : DwrrIdle first.q) :
    Decays first.params [event] first.q last.q := by
  cases step with
  | @enqueue now skb q' ret later returns =>
      have since := sound.started.trans later
      obtain ⟨roundTimeNs, quantumSumEstimate, reset⟩ :=
        exists_idleReset_eq first.params now first.q
      have start : (idleReset first.params now first.q).lastIdleTimeNs =
          first.q.lastIdleTimeNs := by rw [reset]
      have held : (idleReset first.params now first.q).qlen = first.q.qlen := by rw [reset]
      have one : u32 ((idleReset first.params now first.q).qlen + 1) = first.q.qlen + 1 := by
        rw [held]
        exact qlen_succ sound.counted
      cases qdiscEnqueue_cases returns with
      | refused refuses =>
          refine .of_reset decaying sound.counted since start (held.trans ?_) rfl rfl
          cases ret with
          | success => exact absurd rfl refuses
          | drop | cn => rfl
      | prio | dwrr => exact .of_reset decaying sound.counted since start one rfl rfl
  | @dequeue now fuel q' outcome later returns =>
      cases qdiscDequeue_cases returns with
      | prio busy ends =>
          cases ends with
          | null | throttled => exact .of_same (fun _ _ => rfl) rfl rfl rfl rfl
          | @packet i skb marked rest found front enough marker =>
              refine .of_same (fun _ _ => rfl) rfl ?_ rfl rfl
              have exact := (@prioSubtracts first.params now _ _ _
                (refilled first.params now first.q - l2tNs first.q.rate (skbSize skb)) _
                sound.counted front).qlen
              exact Nat.eq_sub_of_add_eq exact
      | dwrr empty active rotations exit =>
          rcases List.exists_cons_of_ne_nil active with ⟨i, ring, head⟩
          exact absurd (idle i) (sound.scheduled.head_busy head)
      | idle empty inactive stays nothing =>
          rw [stays, nothing]
          exact .of_same (fun _ _ => rfl) rfl rfl rfl rfl
  | sysctl => exact .of_same (fun _ _ => rfl) rfl rfl rfl rfl
  | change => exact .of_same (fun _ _ => rfl) rfl rfl rfl rfl

end

/-! ### Reachable states -/

theorem lastIdleTimeNs_of_rotations {params : Params} {now : Int} {q middle : PrioDwrrSchedData}
    (rotations : ReflTransGen (Rotates params now) q middle) :
    middle.lastIdleTimeNs = q.lastIdleTimeNs ∧
      middle.quantumSumEstimate = q.quantumSumEstimate := by
  induction rotations with
  | refl => exact ⟨rfl, rfl⟩
  | tail _ last inductionHypothesis =>
      cases last with
      | intro head front blocked =>
          rw [refresh_eq]
          exact inductionHypothesis

/-- What sending a DWRR packet does to the start of the idle period and the estimate. -/
theorem transmit_idle (params : Params) (now toks : Int) (i : Fin 7) (skb : Skb)
    (rest : List Skb) (q : PrioDwrrSchedData) :
    (transmit params now i skb rest toks (refresh i q)).1.lastIdleTimeNs =
        (if rest = [] ∧ u32Sub q.sumLenBytes (skbSize skb) = q.sumPrioLenBytes then now
        else q.lastIdleTimeNs) ∧
      (transmit params now i skb rest toks (refresh i q)).1.quantumSumEstimate =
        smoothQuantumSum params q.quantumSumEstimate
          (transmit params now i skb rest toks (refresh i q)).1.quantumSum := by
  unfold transmit
  rw [refresh_eq]
  by_cases last : rest = []
  · simp [last, retire, take]
  · simp [last, take]

theorem decayQuantumSum_le (params : Params) {quantumSumEstimate : Nat}
    (estimate : quantumSumEstimate ≤ quantumTotal) :
    decayQuantumSum params quantumSumEstimate ≤ quantumSumEstimate := by
  rcases params.alpha_range.1 with ⟨low, high⟩
  have exact := decayQuantumSum_eq params estimate
  have product : (quantumSumEstimate : Int) * params.value .quantumAlpha ≤
      quantumSumEstimate * 1000 := Int.mul_le_mul_of_nonneg_left high (Int.natCast_nonneg _)
  omega

private theorem idleReset_estimate_le (params : Params) (now : Int) {q : PrioDwrrSchedData}
    (estimate : q.quantumSumEstimate ≤ quantumTotal) :
    (idleReset params now q).quantumSumEstimate ≤ quantumTotal := by
  have decayed : ∀ intervals, (decayQuantumSum params)^[intervals] q.quantumSumEstimate ≤
      quantumTotal := by
    intro intervals
    induction intervals with
    | zero => exact estimate
    | succ intervals inductionHypothesis =>
        rw [Function.iterate_succ_apply']
        exact (decayQuantumSum_le params inductionHypothesis).trans inductionHypothesis
  unfold idleReset
  simp only
  split_ifs
  · exact decayed _
  · exact Nat.zero_le _
  · exact estimate

theorem Sound.step {bfifo : Bfifo} (bounded : bfifo.Bounded) {s s' : Sys} {event : Event Param}
    (step : Step bfifo s event s') (sound : Sound s) : Sound s' := by
  have scheduled := sound.scheduled.step step
  have counted := sound.counted.step bounded step
  have started := sound.started
  cases step with
  | @enqueue now skb q' ret later returns =>
      have estimate := idleReset_estimate_le s.params now sound.estimate_le
      rcases exists_idleReset_eq s.params now s.q with ⟨roundTimeNs, quantumSumEstimate, reset⟩
      have start : (idleReset s.params now s.q).lastIdleTimeNs = s.q.lastIdleTimeNs := by
        rw [reset]
      have since : (idleReset s.params now s.q).lastIdleTimeNs ≤ now := by
        rw [start]
        exact started.trans later
      cases qdiscEnqueue_cases returns with
      | refused | prio | dwrr => exact ⟨scheduled, counted, since, estimate⟩
  | @dequeue now fuel q' outcome later returns =>
      have since := started.trans later
      cases qdiscDequeue_cases returns with
      | prio busy ends =>
          cases ends with
          | null | throttled | packet => exact ⟨scheduled, counted, since, sound.estimate_le⟩
      | @dwrr middle idle active rotations exit =>
          rcases lastIdleTimeNs_of_rotations rotations with ⟨start, estimate⟩
          have middleSince : middle.lastIdleTimeNs ≤ now := start.le.trans since
          have middleEstimate : middle.quantumSumEstimate ≤ quantumTotal :=
            estimate.le.trans sound.estimate_le
          cases exit with
          | fault => exact ⟨scheduled, counted, middleSince, middleEstimate⟩
          | null | throttled =>
              rw [refresh_eq] at scheduled counted ⊢
              exact ⟨scheduled, counted, middleSince, middleEstimate⟩
          | @packet i ring skb marked rest head front affordable enough marker =>
              obtain ⟨stop, sample⟩ := transmit_idle s.params now (refilled s.params now middle) i
                skb rest middle
              refine ⟨scheduled, counted, ?_, ?_⟩
              · show PrioDwrrSchedData.lastIdleTimeNs _ ≤ now
                rw [stop]
                split
                · exact le_rfl
                · exact middleSince
              · show PrioDwrrSchedData.quantumSumEstimate _ ≤ quantumTotal
                rw [sample]
                exact smoothQuantumSum_le s.params middleEstimate scheduled.quantumSum_le
      | idle idle inactive stays nothing =>
          rw [stays] at scheduled counted ⊢
          exact ⟨scheduled, counted, since, sound.estimate_le⟩
  | sysctl => exact ⟨scheduled, counted, started, sound.estimate_le⟩
  | change => exact ⟨scheduled, counted, started, sound.estimate_le⟩

theorem sound_of_reachable {bfifo : Bfifo} (bounded : bfifo.Bounded) {s : Sys}
    (reachable : Reachable bfifo s) : Sound s := by
  apply reachable.invariant Sound _ (Sound.step bounded)
  intro start fresh
  rcases fresh with ⟨rate, initial⟩
  refine ⟨?_, ?_, ?_, ?_⟩
  · rw [initial]
    exact scheduled_qdiscInit _ _
  · rw [initial]
    exact counted_qdiscInit _ _
  · rw [initial]
    exact le_rfl
  · rw [initial]
    exact Nat.zero_le _

/-! ### The decay of one period -/

/-- No DWRR queue holds a packet between the dequeue at `start` that takes the last one and
the enqueue at `now` that brings the next one, under settings that do not change. Other
packets come and go. -/
inductive IdlePeriod (bfifo : Bfifo) (params : Params) (start now : Int) :
    Sys → List (Event Param) → Sys → Prop
  | intro {before first middle last : Sys} {i k : Fin 7} {sent skb : Skb}
      {events : List (Event Param)} (reachable : Reachable bfifo before)
      (empties : Step bfifo before (.dequeue start (.packet (dwrrId i) sent)) first)
      (period : RunWithin (fun s => s.params = params ∧ DwrrIdle s.q) (Step bfifo) first events
        middle)
      (arrival : Step bfifo middle (.enqueue now skb .success) last)
      (target : qdiscClassify params skb = dwrrId k) :
      IdlePeriod bfifo params start now first (events ++ [.enqueue now skb .success]) last

/-- The estimates decay by the intervals of the period, once, over unbounded integers. -/
structure DecaysOnce (params : Params) (start now : Int) (q q' : PrioDwrrSchedData) : Prop where
  roundTimeNs : q'.roundTimeNs =
    Decay.after (fun value => value * params.value .roundAlpha / 1000) 0 decayLimit
      (idleIntervals params start now) q.roundTimeNs
  quantumSumEstimate : (q'.quantumSumEstimate : Int) =
    Decay.after (fun value => value * params.value .quantumAlpha / 1000) 0 decayLimit
      (idleIntervals params start now) q.quantumSumEstimate

/-- The arrivals that find the port empty count the intervals of the period once. -/
def CountsOnce (params : Params) (start now : Int) (held : Nat) (events : List (Event Param)) :
    Prop :=
  Decay.total decayLimit (idleDecays params start held events) =
    Decay.total decayLimit [idleIntervals params start now]

/-- A round time that decays without overflow. -/
def RoundTimeFits (params : Params) (q : PrioDwrrSchedData) : Prop :=
  0 ≤ q.roundTimeNs ∧ q.roundTimeNs * params.value .roundAlpha < 2 ^ 63

section

variable {bfifo : Bfifo} {params : Params} {start now : Int} {first last : Sys}
  {events : List (Event Param)}

/-- The dequeue that takes the last DWRR packet starts the idle period. -/
theorem lastIdleTimeNs_of_empties {before : Sys} {i : Fin 7} {sent : Skb}
    (bounded : bfifo.Bounded) (sound : Sound before)
    (empties : Step bfifo before (.dequeue start (.packet (dwrrId i) sent)) first)
    (idle : DwrrIdle first.q) : first.q.lastIdleTimeNs = start := by
  have scheduled := sound.scheduled.step empties
  have counted := sound.counted.step bounded empties
  have sums := (bookkeeping_of_invariants scheduled counted).sumLenBytes
  have lengths := (bookkeeping_of_invariants scheduled counted).dwrrLenBytes
  have nothing : ∑ k, (first.q.dwrrQueues k).lenBytes = 0 := by
    apply sum_eq_zero
    intro k _
    rw [lengths k, idle k]
    rfl
  rw [nothing, Nat.add_zero] at sums
  cases empties with
  | dequeue later returns =>
      cases qdiscDequeue_cases returns with
      | prio busy ends =>
          generalize number : dwrrId i = id at ends
          cases ends with
          | packet => exact absurd number (dwrrId_ne_prioId _ _)
      | @dwrr middle _ active rotations exit =>
          generalize dwrrId i = id at exit
          cases exit with
          | @packet k ring skb marked rest head front affordable enough marker =>
              obtain ⟨_, sumLenBytes, sumPrioLenBytes, _, _⟩ := transmit_counters before.params
                start (refilled before.params start middle) k skb rest middle
              have last := idle k
              simp only [transmit_dwrrQueues, Function.update_self] at last
              show PrioDwrrSchedData.lastIdleTimeNs _ = start
              rw [(transmit_idle before.params start _ k skb rest middle).1, if_pos]
              refine ⟨last, ?_⟩
              rw [← sumLenBytes, ← sumPrioLenBytes]
              exact sums
      | idle _ inactive stays impossible => cases impossible

private theorem decays_of_run (bounded : bfifo.Bounded) (decaying : Decaying params)
    (sound : Sound first)
    (period : RunWithin (fun s => s.params = params ∧ DwrrIdle s.q) (Step bfifo) first events
      last) : Decays params events first.q last.q := by
  rcases period with ⟨-, run⟩
  induction run with
  | nil state => exact .refl params state.q
  | cons head tail inductionHypothesis =>
      rcases head with ⟨⟨steady, idle⟩, step, _⟩
      subst steady
      exact .trans (decays_of_step step sound decaying idle)
        (inductionHypothesis (sound.step bounded step))

/-- The events of an idle period decay the estimates from its start on. -/
theorem decays_of_period (bounded : bfifo.Bounded) (decaying : Decaying params)
    (period : IdlePeriod bfifo params start now first events last) :
    first.q.lastIdleTimeNs = start ∧ first.q.quantumSumEstimate ≤ quantumTotal ∧
      Decays params events first.q last.q := by
  cases period with
  | @intro before _ middle _ i k sent skb others reachable empties period arrival target =>
      have before := sound_of_reachable bounded reachable
      have sound := before.step bounded empties
      have started := lastIdleTimeNs_of_empties bounded before empties period.1.2
      have during := decays_of_run bounded decaying sound period
      have reached : Sound middle := period.run.preserves Sound (Sound.step bounded) sound
      obtain ⟨steady, idle⟩ : middle.params = params ∧ DwrrIdle middle.q :=
        period.good_last
      subst steady
      have final := decays_of_step arrival reached decaying idle
      exact ⟨started, sound.estimate_le, during.trans final⟩

private theorem decayRoundTime_eq (params : Params) {value bound : Int} (nonneg : 0 ≤ value)
    (le : value ≤ bound) (fits : bound * params.value .roundAlpha < 2 ^ 63) :
    decayRoundTime params value = value * params.value .roundAlpha / 1000 := by
  rcases params.alpha_range.2 with ⟨low, high⟩
  have product : value * params.value .roundAlpha ≤ bound * params.value .roundAlpha :=
    Int.mul_le_mul_of_nonneg_right le low
  have positive : 0 ≤ value * params.value .roundAlpha := Int.mul_nonneg nonneg low
  unfold decayRoundTime
  rw [s64_of_range (by omega) (by omega), Int.tdiv_eq_ediv_of_nonneg positive]

/-- A factor below one does not raise what is not negative, and stays above zero. -/
theorem decay_range {alpha : Int} (low : 0 ≤ alpha) (high : alpha ≤ 1000) (value : Int)
    (nonneg : 0 ≤ value) : 0 ≤ value * alpha / 1000 ∧ value * alpha / 1000 ≤ value := by
  have product : value * alpha ≤ value * 1000 := Int.mul_le_mul_of_nonneg_left high nonneg
  have positive : 0 ≤ value * alpha := Int.mul_nonneg nonneg low
  omega

private theorem decay_shrinks {alpha : Int} (high : alpha < 1000) (value : Int)
    (positive : 0 < value) :
    value * alpha / 1000 < value := by
  have product : value * alpha < value * 1000 := Int.mul_lt_mul_of_pos_left high positive
  omega

/-- What the arrivals leave of the estimates, over unbounded integers. -/
theorem leaves_exact {q : PrioDwrrSchedData} (fits : RoundTimeFits params q)
    (estimate : q.quantumSumEstimate ≤ quantumTotal) (intervals : Option Nat) :
    Decay.leaves (decayRoundTime params) 0 intervals q.roundTimeNs =
        Decay.leaves (fun value => value * params.value .roundAlpha / 1000) 0 intervals
          q.roundTimeNs ∧
      ((Decay.leaves (decayQuantumSum params) 0 intervals q.quantumSumEstimate : Nat) : Int) =
        Decay.leaves (fun value => value * params.value .quantumAlpha / 1000) 0 intervals
          q.quantumSumEstimate := by
  rcases params.alpha_range with ⟨quantumAlpha, roundAlpha⟩
  constructor
  · exact Decay.leaves_congr (fun value => value) rfl
      (fun value low high => decayRoundTime_eq params low high fits.2)
      (decay_range roundAlpha.1 roundAlpha.2) fits.1 le_rfl intervals
  · exact Decay.leaves_congr (fun value : Nat => (value : Int)) rfl
      (fun value low high => decayQuantumSum_eq params (Int.ofNat_le.mp high))
      (decay_range quantumAlpha.1 quantumAlpha.2) (Int.natCast_nonneg _)
      (Int.ofNat_le.mpr estimate) intervals

/-- The round time the decay of one period leaves. -/
def dueRoundTime (params : Params) (start now : Int) (q : PrioDwrrSchedData) : Int :=
  Decay.after (fun value => value * params.value .roundAlpha / 1000) 0 decayLimit
    (idleIntervals params start now) q.roundTimeNs

/-- Where the arrivals count the intervals of a period once, the estimates decay once. -/
theorem decaysOnce_of_countsOnce (bounded : bfifo.Bounded) (decaying : Decaying params)
    (period : IdlePeriod bfifo params start now first events last)
    (fits : RoundTimeFits params first.q)
    (once : CountsOnce params start now first.q.qlen events) :
    DecaysOnce params start now first.q last.q := by
  rcases decays_of_period bounded decaying period with ⟨started, estimate, decays⟩
  obtain ⟨roundTime, quantumSum⟩ := leaves_exact fits estimate
    (Decay.total decayLimit (idleDecays params start first.q.qlen events))
  have roundTimeNs := decays.roundTimeNs
  have quantumSumEstimate := decays.quantumSumEstimate
  rw [started] at roundTimeNs quantumSumEstimate
  unfold CountsOnce at once
  constructor
  · rw [roundTimeNs, roundTime, once, Decay.after_eq_leaves]
  · rw [quantumSumEstimate, quantumSum, once, Decay.after_eq_leaves]

/-- Where they decay once, and the round time has not come to zero, the arrivals count the
intervals once. -/
theorem countsOnce_of_decaysOnce (bounded : bfifo.Bounded) (decaying : Decaying params)
    (period : IdlePeriod bfifo params start now first events last)
    (fits : RoundTimeFits params first.q) (shrinks : params.value .roundAlpha < 1000)
    (positive : 0 < dueRoundTime params start now first.q)
    (decaysOnce : DecaysOnce params start now first.q last.q) :
    CountsOnce params start now first.q.qlen events := by
  rcases decays_of_period bounded decaying period with ⟨started, estimate, decays⟩
  obtain ⟨roundTime, _⟩ := leaves_exact fits estimate
    (Decay.total decayLimit (idleDecays params start first.q.qlen events))
  have roundTimeNs := decays.roundTimeNs
  have due := decaysOnce.roundTimeNs
  rw [started, roundTime] at roundTimeNs
  unfold dueRoundTime at positive
  rw [Decay.after_eq_leaves] at positive due
  rcases params.alpha_range.2 with ⟨low, high⟩
  exact Decay.total_eq_of_leaves_eq (decay_range low high) (decay_shrinks shrinks) positive
    (roundTimeNs.symm.trans due)

end

/-! ### Periods of a port under `MQ_ECN_RR` -/

/-- Whether an event leaves the parameters as they are. -/
def keepsParams : Event Param → Bool
  | .sysctl _ _ => false
  | _ => true

private theorem steady_of_keepsParams {bfifo : Bfifo} {first last : Sys}
    {events : List (Event Param)}
    (within : RunWithin (fun s => DwrrIdle s.q) (Step bfifo) first events last)
    (keeps : ∀ event ∈ events, keepsParams event = true) :
    RunWithin (fun s => s.params = first.params ∧ DwrrIdle s.q) (Step bfifo) first events last := by
  rcases within with ⟨idle, run⟩
  refine ⟨⟨rfl, idle⟩, ?_⟩
  induction run with
  | nil state => exact .nil state
  | @cons first middle last event events head tail inductionHypothesis =>
      rcases head with ⟨idleFirst, step, idleMiddle⟩
      have same : middle.params = first.params := by
        cases step with
        | sysctl => exact absurd (keeps _ List.mem_cons_self) (by simp [keepsParams])
        | enqueue | dequeue | change => rfl
      have rest := inductionHypothesis (fun event member =>
        keeps event (List.mem_cons_of_mem _ member)) idleMiddle
      rw [same] at rest
      exact .cons ⟨⟨rfl, idleFirst⟩, step, same, idleMiddle⟩ rest

/-- A DWRR frame is sent by a port that marks by the round time. -/
def sendingHistory : List (Event Param) :=
  [.sysctl .ecnScheme 4, .enqueue 10 (fullFrame 4) .success]

/-- The state after some events of a port at 1 Gbit/s. -/
def after (events : List (Event Param)) : Option Sys :=
  replay (Sys.next byteLimit 1) (fun _ => True) idle events

private theorem sending_isSome : (after sendingHistory).isSome = true := by decide

def sending : Sys := (after sendingHistory).get sending_isSome

private theorem sending_reachable : Reachable byteLimit sending :=
  ⟨idle, sendingHistory, ⟨_, rfl⟩, (RunWithin.of_replay_isSome Sys.next_sound sending_isSome).run⟩

private theorem sent_isSome :
    (sending.next byteLimit 1 (.dequeue 20000 (.packet 1 (fullFrame 4)))).isSome = true := by
  decide

/-- The DWRR queues are idle from time 20000 on. -/
def sent : Sys :=
  (sending.next byteLimit 1 (.dequeue 20000 (.packet 1 (fullFrame 4)))).get sent_isSome

private theorem sent_step :
    Step byteLimit sending (.dequeue 20000 (.packet (dwrrId 0) (fullFrame 4))) sent :=
  Sys.next_sound (Option.some_get sent_isSome).symm

/-- A period in which the priority frames come and go as `events` say. -/
theorem idlePeriod_of_replay {events : List (Event Param)} {middle last : Sys}
    (keeps : ∀ event ∈ events, keepsParams event = true)
    (during : replay (Sys.next byteLimit 1) (fun s => DwrrIdle s.q) sent events = some middle)
    (ends : middle.next byteLimit 1 (.enqueue 70000 (fullFrame 4) .success) = some last) :
    IdlePeriod byteLimit sent.params 20000 70000 sent
      (events ++ [.enqueue 70000 (fullFrame 4) .success]) last :=
  .intro sending_reachable sent_step
    (steady_of_keepsParams (RunWithin.of_replay Sys.next_sound during) keeps)
    (Sys.next_sound ends) (by decide : qdiscClassify sent.params (fullFrame 4) = dwrrId 0)

/-- A priority frame leaves before the first interval of the period is over. -/
def briefTraffic : List (Event Param) :=
  [.enqueue 21000 (fullFrame 0) .success, .dequeue 30000 (.packet 0 (fullFrame 0))]

/-- A priority frame comes and leaves in the third interval. -/
def lateTraffic : List (Event Param) :=
  [.enqueue 45000 (fullFrame 0) .success, .dequeue 60000 (.packet 0 (fullFrame 0))]

/-- A priority frame stays in the port. -/
def standingTraffic : List (Event Param) := [.enqueue 21000 (fullFrame 0) .success]

end MqEcn.Kernel.PrioDwrr
