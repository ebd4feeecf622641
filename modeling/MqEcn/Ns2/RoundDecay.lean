import Mathlib.Data.Rat.Floor
import MqEcn.Ns2.Dwrr.Step
import MqEcn.Ns2.PrioDwrr.Idle
import MqEcn.Ns2.Wrr.Step

/-!
Contract: the decay of the round time by an idle period, against the filter of the round time.

Owns: the closed form of the filter without samples, what `enque` of DWRR, PRIO_DWRR and WRR
does to the round time of an idle port, and the exact condition under which it is that filter.

Does not own: the estimates of a busy port.
-/

set_option autoImplicit false

namespace MqEcn.Ns2

open MqEcn.Ns2.Dwrr (Tuning mqMarkingGener mqMarkingRr truncate decayIdle startTimer)

/-! ### The filter -/

/-- The filter of `round_time`, without samples. -/
theorem iterate_filter (alpha roundTime : ℚ) (n : Nat) :
    (fun roundTime => roundTime * alpha + 0 * (1 - alpha))^[n] roundTime =
      roundTime * alpha ^ n := by
  induction n generalizing roundTime with
  | zero => rw [Function.iterate_zero_apply, pow_zero, mul_one]
  | succ n inductionHypothesis =>
      rw [Function.iterate_succ_apply, inductionHypothesis, zero_mul, add_zero, pow_succ',
        mul_assoc]

/-- Two factors decay a round time alike only if there is nothing to tell them apart. -/
theorem decay_eq_iff {alpha beta roundTime : ℚ} {n : Nat} (alphaNonneg : 0 ≤ alpha)
    (betaNonneg : 0 ≤ beta) :
    roundTime * beta ^ n = roundTime * alpha ^ n ↔ roundTime = 0 ∨ n = 0 ∨ beta = alpha := by
  rw [mul_eq_mul_left_iff, or_comm]
  apply or_congr_right
  by_cases none : n = 0
  · subst none
    simp only [pow_zero, true_or]
  · rw [pow_left_inj₀ betaNonneg alphaNonneg none]
    simp only [none, false_or]

/-! ### Idle slots -/

/-- `n` whole idle slots of `intervalBytes` bytes. -/
def WholeSlots (intervalBytes : Int) (linkCapacity idleTime : ℚ) (n : Nat) : Prop :=
  (n : ℚ) ≤ idleTime / (intervalBytes * 8 / linkCapacity) ∧
    idleTime / (intervalBytes * 8 / linkCapacity) < n + 1

private theorem truncate_of_wholeSlots {intervalBytes : Int} {linkCapacity idleTime : ℚ} {n : Nat}
    (slots : WholeSlots intervalBytes linkCapacity idleTime n) :
    truncate (idleTime / (intervalBytes * 8 / linkCapacity)) = n := by
  unfold WholeSlots at slots
  generalize idleTime / (intervalBytes * 8 / linkCapacity) = value at slots ⊢
  obtain ⟨least, most⟩ := slots
  have nonneg : 0 ≤ value.num := Rat.num_nonneg.mpr ((Nat.cast_nonneg n).trans least)
  have floor : ⌊value⌋ = (n : Int) := Int.floor_eq_iff.mpr ⟨by exact_mod_cast least,
    by exact_mod_cast most⟩
  unfold truncate
  rw [Int.tdiv_eq_ediv_of_nonneg nonneg, ← Rat.floor_def', floor]

/-- The settings under which an idle port decays its round time, with factors in range. -/
structure DecaysRounds (tuning : Tuning) : Prop where
  scheme : tuning.markingScheme = mqMarkingRr
  slot : 0 < tuning.estimateRoundIdleIntervalBytes
  capacity : 0 < tuning.linkCapacity
  roundAlpha : 0 ≤ tuning.estimateRoundAlpha ∧ tuning.estimateRoundAlpha ≤ 1
  quantumAlpha : 0 ≤ tuning.estimateQuantumAlpha ∧ tuning.estimateQuantumAlpha ≤ 1

/-- `n` whole idle slots of a port that has been idle since `lastIdleTime`. -/
def IdleFor (tuning : Tuning) (lastIdleTime now : ℚ) (n : Nat) : Prop :=
  WholeSlots tuning.estimateRoundIdleIntervalBytes tuning.linkCapacity (now - lastIdleTime) n

section

variable {pow : ℚ → ℚ → ℚ} {tuning : Tuning} {now : ℚ} {n : Nat}

private theorem decayIdle_wholeSlots (raises : RaisesWhole pow) (decays : DecaysRounds tuning)
    {q : Dwrr.DwrrQueue} (idle : IdleFor tuning q.lastIdleTime now n) :
    (decayIdle pow tuning now true q).roundTime =
        q.roundTime * tuning.estimateQuantumAlpha ^ n ∧
      (decayIdle pow tuning now true q).lastIdleTime = q.lastIdleTime := by
  rw [Dwrr.decayIdle_of_rounds pow decays.scheme ⟨decays.slot, decays.capacity⟩,
    truncate_of_wholeSlots idle, Int.cast_natCast, raises]
  exact ⟨rfl, rfl⟩

/-- The decay is the filter without samples exactly if nothing tells the two factors apart. -/
theorem decayIdle_eq_filter_iff (raises : RaisesWhole pow) (decays : DecaysRounds tuning)
    {q : Dwrr.DwrrQueue} (idle : IdleFor tuning q.lastIdleTime now n) :
    (decayIdle pow tuning now true q).roundTime =
        (fun roundTime => Dwrr.smoothRoundTime tuning roundTime 0)^[n] q.roundTime ↔
      q.roundTime = 0 ∨ n = 0 ∨ tuning.estimateQuantumAlpha = tuning.estimateRoundAlpha := by
  rw [(decayIdle_wholeSlots raises decays idle).1]
  unfold Dwrr.smoothRoundTime
  rw [iterate_filter]
  exact decay_eq_iff decays.roundAlpha.1 decays.quantumAlpha.1

/-- Two idle periods decay like one. -/
theorem decayIdle_decayIdle (raises : RaisesWhole pow) (decays : DecaysRounds tuning)
    {q : Dwrr.DwrrQueue} {later last : ℚ} {m : Nat}
    (first : IdleFor tuning q.lastIdleTime now n) (second : IdleFor tuning q.lastIdleTime later m)
    (both : IdleFor tuning q.lastIdleTime last (n + m)) :
    (decayIdle pow tuning later true (decayIdle pow tuning now true q)).roundTime =
      (decayIdle pow tuning last true q).roundTime := by
  obtain ⟨roundTime, lastIdleTime⟩ := decayIdle_wholeSlots raises decays first
  rw [← lastIdleTime] at second
  rw [(decayIdle_wholeSlots raises decays second).1, roundTime,
    (decayIdle_wholeSlots raises decays both).1, pow_add, mul_assoc]

end

/-! ### Enque -/

private theorem Dwrr.enque_roundTime {pow : ℚ → ℚ → ℚ} {config : Dwrr.Config} {now : ℚ} {p : Packet}
    {q q' : Dwrr.DwrrQueue} {taken : Bool} (empty : Dwrr.totalByteLength config q = 0)
    (returns : Dwrr.enque pow config now p q = some (q', taken)) :
    q'.roundTime =
      (decayIdle pow config.toTuning now true (startTimer config.toTuning q)).roundTime := by
  unfold Dwrr.enque at returns
  simp only [empty, decide_true] at returns
  split at returns
  · cases returns
    rfl
  · obtain ⟨admitted, admits, taken⟩ := Option.map_eq_some_iff.mp returns
    cases taken
    unfold Dwrr.admission at admits
    obtain ⟨activated, activates, marks⟩ := Option.bind_eq_some_iff.mp admits
    obtain ⟨marked, _, rfl⟩ := Option.map_eq_some_iff.mp marks
    exact (PrioDwrr.sameEstimate_activate activates).roundTime

private theorem PrioDwrr.enque_roundTime {pow : ℚ → ℚ → ℚ} {config : PrioDwrr.Config} {now : ℚ}
    {p : Packet} {q q' : PrioDwrr.PrioDwrrQueue} {taken : Bool}
    (empty : PrioDwrr.totalDwrrByteLength q = 0)
    (returns : PrioDwrr.enque pow config now p q = some (q', taken)) :
    q'.dwrr.roundTime =
      (decayIdle pow config.toTuning now true (startTimer config.toTuning q.dwrr)).roundTime := by
  rw [(PrioDwrr.enque_cases returns).1.roundTime]
  unfold PrioDwrr.settle
  simp only [empty, decide_true]

private theorem Dwrr.enque_eq_filter_iff {pow : ℚ → ℚ → ℚ} (raises : RaisesWhole pow)
    {config : Dwrr.Config} {q q' : Dwrr.DwrrQueue} {now : ℚ} {p : Packet} {taken : Bool} {n : Nat}
    (decays : DecaysRounds config.toTuning) (empty : Dwrr.totalByteLength config q = 0)
    (idle : IdleFor config.toTuning q.lastIdleTime now n)
    (returns : Dwrr.enque pow config now p q = some (q', taken)) :
    q'.roundTime =
        (fun roundTime => Dwrr.smoothRoundTime config.toTuning roundTime 0)^[n] q.roundTime ↔
      q.roundTime = 0 ∨ n = 0 ∨ config.estimateQuantumAlpha = config.estimateRoundAlpha := by
  obtain ⟨roundTime, lastIdleTime⟩ := Dwrr.startTimer_roundTime config.toTuning q
  rw [Dwrr.enque_roundTime empty returns, ← roundTime]
  rw [← lastIdleTime] at idle
  exact decayIdle_eq_filter_iff raises decays idle

private theorem PrioDwrr.enque_eq_filter_iff {pow : ℚ → ℚ → ℚ} (raises : RaisesWhole pow)
    {config : PrioDwrr.Config} {q q' : PrioDwrr.PrioDwrrQueue} {now : ℚ} {p : Packet}
    {taken : Bool} {n : Nat} (decays : DecaysRounds config.toTuning)
    (empty : PrioDwrr.totalDwrrByteLength q = 0)
    (idle : IdleFor config.toTuning q.dwrr.lastIdleTime now n)
    (returns : PrioDwrr.enque pow config now p q = some (q', taken)) :
    q'.dwrr.roundTime =
        (fun roundTime => Dwrr.smoothRoundTime config.toTuning roundTime 0)^[n]
          q.dwrr.roundTime ↔
      q.dwrr.roundTime = 0 ∨ n = 0 ∨
        config.estimateQuantumAlpha = config.estimateRoundAlpha := by
  obtain ⟨roundTime, lastIdleTime⟩ := Dwrr.startTimer_roundTime config.toTuning q.dwrr
  rw [PrioDwrr.enque_roundTime empty returns, ← roundTime]
  rw [← lastIdleTime] at idle
  exact decayIdle_eq_filter_iff raises decays idle

private theorem Wrr.enque_roundTime {pow : ℚ → ℚ → ℚ} {config : Wrr.Config} {now : ℚ} {p : Packet}
    {q q' : Wrr.WrrQueue} {taken : Bool} {n : Nat} (raises : RaisesWhole pow)
    (positive : 0 < config.estimateRoundIdleIntervalBytes ∧ 0 < config.linkCapacity)
    (empty : Wrr.totalByteLength config q = 0)
    (idle : WholeSlots config.estimateRoundIdleIntervalBytes config.linkCapacity
      (now - q.lastIdleTime) n)
    (returns : Wrr.enque pow config now p q = some (q', taken)) :
    q'.roundTime =
      (fun roundTime => Wrr.smoothRoundTime config roundTime 0)^[n] q.roundTime := by
  have reset : (Wrr.resetIdle pow config now q).roundTime =
      q.roundTime * config.estimateRoundAlpha ^ n := by
    unfold Wrr.resetIdle
    rw [if_pos empty]
    simp only [if_pos positive, truncate_of_wholeSlots idle, Int.cast_natCast, raises _ n]
  unfold Wrr.smoothRoundTime
  rw [iterate_filter, ← reset]
  rcases Wrr.enque_cases returns with ⟨_, rfl⟩ | ⟨_, marked, _, rfl⟩
  · rfl
  · rfl

/-- **Idle decay.** The round time that an arrival at an idle DWRR or PRIO_DWRR finds is that of
the filter without samples exactly if it is 0, or no whole slot has passed, or the factor of the
quantum estimate is that of the round time; that of WRR always is. Idle periods of `n` and of
`m` slots decay like one of `n + m`. -/
theorem idleDecay_eq_filter_iff {pow : ℚ → ℚ → ℚ} (raises : RaisesWhole pow) :
    (∀ {config : Dwrr.Config} {q q' : Dwrr.DwrrQueue} {now : ℚ} {p : Packet} {taken : Bool}
        {n : Nat}, DecaysRounds config.toTuning → Dwrr.totalByteLength config q = 0 →
      IdleFor config.toTuning q.lastIdleTime now n →
      Dwrr.enque pow config now p q = some (q', taken) →
      (q'.roundTime =
          (fun roundTime => Dwrr.smoothRoundTime config.toTuning roundTime 0)^[n] q.roundTime ↔
        q.roundTime = 0 ∨ n = 0 ∨ config.estimateQuantumAlpha = config.estimateRoundAlpha)) ∧
    (∀ {config : PrioDwrr.Config} {q q' : PrioDwrr.PrioDwrrQueue} {now : ℚ} {p : Packet}
        {taken : Bool} {n : Nat}, DecaysRounds config.toTuning →
      PrioDwrr.totalDwrrByteLength q = 0 →
      IdleFor config.toTuning q.dwrr.lastIdleTime now n →
      PrioDwrr.enque pow config now p q = some (q', taken) →
      (q'.dwrr.roundTime =
          (fun roundTime => Dwrr.smoothRoundTime config.toTuning roundTime 0)^[n]
            q.dwrr.roundTime ↔
        q.dwrr.roundTime = 0 ∨ n = 0 ∨
          config.estimateQuantumAlpha = config.estimateRoundAlpha)) ∧
    (∀ {config : Wrr.Config} {q q' : Wrr.WrrQueue} {now : ℚ} {p : Packet} {taken : Bool}
        {n : Nat}, 0 < config.estimateRoundIdleIntervalBytes ∧ 0 < config.linkCapacity →
      Wrr.totalByteLength config q = 0 →
      WholeSlots config.estimateRoundIdleIntervalBytes config.linkCapacity
        (now - q.lastIdleTime) n →
      Wrr.enque pow config now p q = some (q', taken) →
      q'.roundTime =
        (fun roundTime => Wrr.smoothRoundTime config roundTime 0)^[n] q.roundTime) ∧
    ∀ {tuning : Tuning} {q : Dwrr.DwrrQueue} {now later last : ℚ} {n m : Nat}, DecaysRounds tuning →
      IdleFor tuning q.lastIdleTime now n → IdleFor tuning q.lastIdleTime later m →
      IdleFor tuning q.lastIdleTime last (n + m) →
      (decayIdle pow tuning later true (decayIdle pow tuning now true q)).roundTime =
        (decayIdle pow tuning last true q).roundTime := by
  refine ⟨?_, ?_, ?_, ?_⟩
  · exact Dwrr.enque_eq_filter_iff raises
  · exact PrioDwrr.enque_eq_filter_iff raises
  · intro config q q' now p taken n positive empty idle returns
    exact Wrr.enque_roundTime raises positive empty idle returns
  · intro tuning q now later last n m decays first second both
    exact decayIdle_decayIdle raises decays first second both

/-! ### Two factors -/

open MqEcn.Library.Transition
open MqEcn.Ns2.Dwrr (segment)

/-- The defaults with MQ-ECN, but for the factor of the quantum estimate. -/
def splitTuning : Tuning :=
  { Dwrr.defaultConfig.toTuning with
    markingScheme := mqMarkingRr
    estimateQuantumAlpha := 1 / 2 }

private theorem decays_splitTuning : DecaysRounds splitTuning := by
  refine ⟨rfl, ?_, ?_, ?_, ?_⟩
  all_goals decide +kernel

def splitDwrr : Dwrr.Config := { Dwrr.defaultConfig with toTuning := splitTuning }

def splitPrioDwrr : PrioDwrr.Config := { PrioDwrr.defaultConfig with toTuning := splitTuning }

/-- One idle slot of 1500 bytes. -/
def slot : ℚ := 12 / 10000000

/-- A packet for the first DWRR queue of either discipline is taken and sent. -/
theorem dwrr_leads : (replay (Dwrr.Sys.next wholePow 2) (fun _ => True)
    ⟨splitDwrr, Dwrr.construct, 0⟩ [.enque 0 (segment 0 1500 fullSize_pos) true,
      .deque 0 (some (0, segment 0 1500 fullSize_pos))]).isSome = true := by
  decide +kernel

private theorem prioDwrr_leads : (replay (PrioDwrr.Sys.next wholePow 2) (fun _ => True)
    ⟨splitPrioDwrr, PrioDwrr.construct, 0⟩ [.enque 0 (segment 1 1500 fullSize_pos) true,
      .deque 0 (some (.inr 0, segment 1 1500 fullSize_pos))]).isSome = true := by
  decide +kernel

/-- The states these runs lead to. -/
def servedDwrr : Dwrr.DwrrQueue := (Option.get _ dwrr_leads).q

def servedPrioDwrr : PrioDwrr.PrioDwrrQueue := (Option.get _ prioDwrr_leads).q

private theorem servedDwrr_takes : (Dwrr.enque wholePow splitDwrr slot (segment 0 1500 fullSize_pos)
    servedDwrr).isSome = true := by
  decide +kernel

private theorem servedPrioDwrr_takes : (PrioDwrr.enque wholePow splitPrioDwrr slot
    (segment 1 1500 fullSize_pos) servedPrioDwrr).isSome = true := by
  decide +kernel

private theorem servedDwrr_idleFor : IdleFor splitTuning servedDwrr.lastIdleTime slot 1 := by
  unfold IdleFor WholeSlots
  decide +kernel

private theorem servedPrioDwrr_idleFor :
    IdleFor splitTuning servedPrioDwrr.dwrr.lastIdleTime slot 1 := by
  unfold IdleFor WholeSlots
  decide +kernel

/-- After one idle slot both disciplines have decayed by the wrong factor. -/
theorem idleDecay_ne_filter :
    (¬∀ (config : Dwrr.Config) (q q' : Dwrr.DwrrQueue) (now : ℚ) (p : Packet) (taken : Bool)
        (n : Nat), DecaysRounds config.toTuning → Dwrr.totalByteLength config q = 0 →
      IdleFor config.toTuning q.lastIdleTime now n →
      Dwrr.enque wholePow config now p q = some (q', taken) →
      q'.roundTime =
        (fun roundTime => Dwrr.smoothRoundTime config.toTuning roundTime 0)^[n] q.roundTime) ∧
    ¬∀ (config : PrioDwrr.Config) (q q' : PrioDwrr.PrioDwrrQueue) (now : ℚ) (p : Packet)
        (taken : Bool) (n : Nat), DecaysRounds config.toTuning →
      PrioDwrr.totalDwrrByteLength q = 0 →
      IdleFor config.toTuning q.dwrr.lastIdleTime now n →
      PrioDwrr.enque wholePow config now p q = some (q', taken) →
      q'.dwrr.roundTime =
        (fun roundTime => Dwrr.smoothRoundTime config.toTuning roundTime 0)^[n]
          q.dwrr.roundTime := by
  constructor
  · intro agrees
    have empty : Dwrr.totalByteLength splitDwrr servedDwrr = 0 := by decide +kernel
    obtain ⟨⟨q', taken⟩, returns⟩ := Option.isSome_iff_exists.mp servedDwrr_takes
    have same := agrees splitDwrr _ _ _ _ _ _ decays_splitTuning empty servedDwrr_idleFor returns
    have condition := (Dwrr.enque_eq_filter_iff raisesWhole_wholePow decays_splitTuning empty
      servedDwrr_idleFor returns).mp same
    revert condition
    decide +kernel
  · intro agrees
    have empty : PrioDwrr.totalDwrrByteLength servedPrioDwrr = 0 := by decide +kernel
    obtain ⟨⟨q', taken⟩, returns⟩ := Option.isSome_iff_exists.mp servedPrioDwrr_takes
    have same := agrees splitPrioDwrr _ _ _ _ _ _ decays_splitTuning empty
      servedPrioDwrr_idleFor returns
    have condition := (@PrioDwrr.enque_eq_filter_iff _ raisesWhole_wholePow splitPrioDwrr _ _ _ _
      _ _ decays_splitTuning empty servedPrioDwrr_idleFor returns).mp same
    revert condition
    decide +kernel

theorem split_idleDecay :
    (∃ q' taken,
      Dwrr.enque wholePow splitDwrr slot (segment 0 1500 fullSize_pos) servedDwrr =
        some (q', taken) ∧
      (q'.roundTime = (fun roundTime => Dwrr.smoothRoundTime splitTuning roundTime 0)^[1]
          servedDwrr.roundTime ↔
        servedDwrr.roundTime = 0 ∨ 1 = 0 ∨
          splitTuning.estimateQuantumAlpha = splitTuning.estimateRoundAlpha)) ∧
    ∃ q' taken,
      PrioDwrr.enque wholePow splitPrioDwrr slot (segment 1 1500 fullSize_pos) servedPrioDwrr =
        some (q', taken) ∧
      (q'.dwrr.roundTime = (fun roundTime => Dwrr.smoothRoundTime splitTuning roundTime 0)^[1]
          servedPrioDwrr.dwrr.roundTime ↔
        servedPrioDwrr.dwrr.roundTime = 0 ∨ 1 = 0 ∨
          splitTuning.estimateQuantumAlpha = splitTuning.estimateRoundAlpha) := by
  obtain ⟨dwrr, prioDwrr, _⟩ := idleDecay_eq_filter_iff raisesWhole_wholePow
  constructor
  · obtain ⟨⟨q', taken⟩, returns⟩ := Option.isSome_iff_exists.mp servedDwrr_takes
    have empty : Dwrr.totalByteLength splitDwrr servedDwrr = 0 := by decide +kernel
    exact ⟨q', taken, returns,
      @dwrr splitDwrr _ _ _ _ _ _ decays_splitTuning empty servedDwrr_idleFor returns⟩
  · obtain ⟨⟨q', taken⟩, returns⟩ := Option.isSome_iff_exists.mp servedPrioDwrr_takes
    have empty : PrioDwrr.totalDwrrByteLength servedPrioDwrr = 0 := by decide +kernel
    exact ⟨q', taken, returns, @prioDwrr splitPrioDwrr _ _ _ _ _ _ decays_splitTuning empty
      servedPrioDwrr_idleFor returns⟩

end MqEcn.Ns2
