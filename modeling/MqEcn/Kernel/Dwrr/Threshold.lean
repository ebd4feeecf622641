import Mathlib.Tactic.Ring
import MqEcn.Kernel.Dwrr.Bookkeeping

/-!
Contract: the threshold `mq_ecn_marking` compares a queue with.

Owns: the divisors of its divisions, the formula it approximates over unbounded
integers, the round times at which the 32-bit divisor of `div_u64` does no harm,
and the equivalence of the two.

Does not own: which round times a run produces.
-/

set_option autoImplicit false

namespace MqEcn.Kernel.Dwrr

open MqEcn.Kernel
open MqEcn.Library.Word

/-- The divisors of the divisions `mq_ecn_marking` executes: that of `div_u64`, which
keeps 32 bits of a positive round time, and that of `div64_u64`. -/
def mqEcnDivisors (q : DwrrSchedData) (cl : DwrrClass) : List Nat :=
  (if 0 < q.roundTime cl.prio then [u32OfInt (q.roundTime cl.prio)] else []) ++ [q.rate.rateBps]

/-- The share of the port threshold a class is due, over unbounded integers. -/
def thresholdFormula (quantum roundTime rateBps portThresh : Nat) : Nat :=
  min (quantum * 2 ^ 33 / roundTime) rateBps * portThresh / rateBps

/-- `mq_ecn_marking` divides by nothing that is zero and finds the threshold due. -/
structure ExactThreshold (params : Params) (q : DwrrSchedData) (cl : DwrrClass) : Prop where
  divides : ∀ divisor ∈ mqEcnDivisors q cl, divisor ≠ 0
  exact : mqEcnThresh params q cl =
    thresholdFormula cl.quantum (q.roundTime cl.prio).toNat q.rate.rateBps
      (params.value .portThresh).toNat

/-- The port thresholds the formula is meant for. -/
def ThresholdAdmitted (params : Params) : Prop :=
  0 ≤ params.value .portThresh ∧ params.value .portThresh ≤ 2 ^ 28

instance (params : Params) : Decidable (ThresholdAdmitted params) := by
  unfold ThresholdAdmitted
  infer_instance

/-- The round times that lose nothing to a 32-bit divisor: those that fit, and those
at which a class would be due the whole link either way. -/
def SurvivesTruncation (quantum rateBps roundTime : Nat) : Prop :=
  roundTime < 2 ^ 32 ∨
    (¬2 ^ 32 ∣ roundTime ∧ rateBps ≤ quantum * 2 ^ 33 / roundTime)

/-- The round times at which one port threshold does not notice the 32-bit divisor: what
is left of the round time raises the product by less than the next byte takes. -/
def AbsorbsTruncation (quantum rateBps roundTime portThresh : Nat) : Prop :=
  ¬2 ^ 32 ∣ roundTime ∧
    min (quantum * 2 ^ 33 / (roundTime % 2 ^ 32)) rateBps * portThresh <
      (thresholdFormula quantum roundTime rateBps portThresh + 1) * rateBps

/-! ### The estimate of the rate -/

section

variable {quantum rateBps roundTime : Nat}

/-- What the 32-bit divisor leaves of the estimate agrees with it up to the link rate. -/
theorem SurvivesTruncation.estimate (survives : SurvivesTruncation quantum rateBps roundTime) :
    min (quantum * 2 ^ 33 / (roundTime % 2 ^ 32)) rateBps =
      min (quantum * 2 ^ 33 / roundTime) rateBps := by
  rcases survives with fits | ⟨odd, whole⟩
  · rw [Nat.mod_eq_of_lt fits]
  · have positive : 0 < roundTime % 2 ^ 32 := Nat.pos_of_ne_zero fun zero =>
      odd (Nat.dvd_of_mod_eq_zero zero)
    have larger : quantum * 2 ^ 33 / roundTime ≤ quantum * 2 ^ 33 / (roundTime % 2 ^ 32) :=
      Nat.div_le_div_left (Nat.mod_le _ _) positive
    rw [min_eq_right whole, min_eq_right (whole.trans larger)]

/-- A round time that loses nothing is absorbed by every port threshold. -/
theorem SurvivesTruncation.absorbs (survives : SurvivesTruncation quantum rateBps roundTime)
    (running : 0 < roundTime) (positive : 0 < rateBps) (portThresh : Nat) :
    AbsorbsTruncation quantum rateBps roundTime portThresh := by
  constructor
  · rcases survives with fits | ⟨odd, _⟩
    · exact Nat.not_dvd_of_pos_of_lt running fits
    · exact odd
  · rw [survives.estimate, Nat.mul_comm (_ + 1)]
    exact Nat.lt_mul_div_succ _ positive

/-- Truncation never lowers the estimate. -/
theorem estimate_mono (quantum rateBps : Nat) (odd : ¬2 ^ 32 ∣ roundTime) :
    min (quantum * 2 ^ 33 / roundTime) rateBps ≤
      min (quantum * 2 ^ 33 / (roundTime % 2 ^ 32)) rateBps := by
  have positive : 0 < roundTime % 2 ^ 32 := Nat.pos_of_ne_zero fun zero =>
    odd (Nat.dvd_of_mod_eq_zero zero)
  exact min_le_min_right _ (Nat.div_le_div_left (Nat.mod_le _ _) positive)

/-- Past 32 bits the truncated estimate exceeds the true one by a quantum. -/
theorem estimate_add_quantum_le (quantum : Nat) (odd : ¬2 ^ 32 ∣ roundTime)
    (long : 2 ^ 32 ≤ roundTime) :
    quantum * 2 ^ 33 / roundTime + quantum ≤ quantum * 2 ^ 33 / (roundTime % 2 ^ 32) := by
  have small : roundTime % 2 ^ 32 < 2 ^ 32 := Nat.mod_lt _ (by decide)
  have positive : 0 < roundTime % 2 ^ 32 := Nat.pos_of_ne_zero fun zero =>
    odd (Nat.dvd_of_mod_eq_zero zero)
  have half : 2 * (roundTime % 2 ^ 32) ≤ roundTime := by omega
  have doubled : 2 * (quantum * 2 ^ 33 / roundTime) ≤ quantum * 2 ^ 33 / (roundTime % 2 ^ 32) := by
    rw [Nat.le_div_iff_mul_le positive]
    calc 2 * (quantum * 2 ^ 33 / roundTime) * (roundTime % 2 ^ 32)
        = quantum * 2 ^ 33 / roundTime * (2 * (roundTime % 2 ^ 32)) := by ring
      _ ≤ quantum * 2 ^ 33 / roundTime * roundTime := Nat.mul_le_mul_left _ half
      _ ≤ quantum * 2 ^ 33 := Nat.div_mul_le_self _ _
  have granted : 2 * quantum ≤ quantum * 2 ^ 33 / (roundTime % 2 ^ 32) := by
    rw [Nat.le_div_iff_mul_le positive]
    calc 2 * quantum * (roundTime % 2 ^ 32) ≤ 2 * quantum * 2 ^ 32 :=
          Nat.mul_le_mul_left _ small.le
      _ = quantum * 2 ^ 33 := by ring
  omega

/-- The true estimate is below two quanta there. -/
theorem estimate_le (quantum : Nat) (long : 2 ^ 32 ≤ roundTime) :
    quantum * 2 ^ 33 / roundTime ≤ 2 * quantum := by
  have positive : 0 < roundTime := lt_of_lt_of_le (by decide) long
  rw [← Nat.lt_succ_iff, Nat.div_lt_iff_lt_mul positive]
  calc quantum * 2 ^ 33 = 2 * quantum * 2 ^ 32 := by ring
    _ ≤ 2 * quantum * roundTime := Nat.mul_le_mul_left _ long
    _ < (2 * quantum + 1) * roundTime := by
      rw [Nat.add_mul]
      omega

/-- The largest port threshold tells the two estimates apart. -/
theorem scaled_ne {estimate truncated : Nat} (rate : rateBps < 2 ^ 35) (positive : 0 < rateBps)
    (below : estimate < rateBps) (small : estimate ≤ 409600)
    (apart : estimate + 1538 ≤ truncated) :
    min truncated rateBps * 2 ^ 28 / rateBps ≠ min estimate rateBps * 2 ^ 28 / rateBps := by
  have gap : min estimate rateBps * 2 ^ 28 + rateBps ≤ min truncated rateBps * 2 ^ 28 := by
    rw [min_eq_left below.le]
    rcases le_total truncated rateBps with narrow | wide
    · rw [min_eq_left narrow]
      omega
    · rw [min_eq_right wide]
      omega
  have higher : (min estimate rateBps * 2 ^ 28 + rateBps) / rateBps ≤
      min truncated rateBps * 2 ^ 28 / rateBps := Nat.div_le_div_right gap
  rw [Nat.add_div_right _ positive] at higher
  omega

end

/-! ### The threshold -/

theorem changeRate_rateBps {rate : Nat} (word : rate < 2 ^ 32) :
    (changeRate rate).rateBps = rate * 8 := by
  unfold changeRate
  rw [u32_of_lt word, u64_of_lt (by omega)]
  unfold precomputeRatedata
  split
  · rfl
  · rfl

section

variable {q : DwrrSchedData} {cl : DwrrClass} {rate : Nat}

/-- With the truncation of the divisor as its only loss, the threshold is the formula. -/
theorem mqEcnThresh_eq {params : Params} (quantum : cl.quantum ≤ 204800)
    (running : 0 < q.roundTime cl.prio) (word : rate < 2 ^ 32)
    (configured : q.rate = changeRate rate) (admitted : ThresholdAdmitted params) :
    mqEcnThresh params q cl =
      min (cl.quantum * 2 ^ 33 / ((q.roundTime cl.prio).toNat % 2 ^ 32)) (rate * 8) *
        (params.value .portThresh).toNat / (rate * 8) := by
  have bps : q.rate.rateBps = rate * 8 := by rw [configured, changeRate_rateBps word]
  have divisor : u32OfInt (q.roundTime cl.prio) = (q.roundTime cl.prio).toNat % 2 ^ 32 := by
    unfold u32OfInt
    omega
  have shifted : u64 (cl.quantum <<< 33) = cl.quantum * 2 ^ 33 := by
    rw [Nat.shiftLeft_eq, u64_of_lt (by omega)]
  rcases admitted with ⟨nonneg, small⟩
  have thresh : u64OfInt (params.value .portThresh) = (params.value .portThresh).toNat := by
    unfold u64OfInt
    omega
  have product : min (cl.quantum * 2 ^ 33 / ((q.roundTime cl.prio).toNat % 2 ^ 32)) (rate * 8) *
      (params.value .portThresh).toNat < 2 ^ 64 := by
    calc min (cl.quantum * 2 ^ 33 / ((q.roundTime cl.prio).toNat % 2 ^ 32)) (rate * 8) *
          (params.value .portThresh).toNat
        ≤ rate * 8 * 2 ^ 28 := Nat.mul_le_mul (min_le_right _ _) (by omega)
      _ < 2 ^ 64 := by omega
  unfold mqEcnThresh
  simp only [if_pos running, bps, divisor, shifted, thresh]
  rw [u64_of_lt product]

/-- A class is due at most the port threshold. -/
theorem thresholdFormula_le (quantum roundTime rateBps portThresh : Nat) :
    thresholdFormula quantum roundTime rateBps portThresh ≤ portThresh := by
  unfold thresholdFormula
  rcases Nat.eq_zero_or_pos rateBps with rfl | positive
  · simp
  · apply Nat.div_le_of_le_mul
    exact Nat.mul_le_mul_right _ (min_le_right _ _)

/-- The longer the round, the less a class is due. -/
theorem thresholdFormula_antitone {roundTime longer : Nat} (quantum rateBps portThresh : Nat)
    (positive : 0 < roundTime) (later : roundTime ≤ longer) :
    thresholdFormula quantum longer rateBps portThresh ≤
      thresholdFormula quantum roundTime rateBps portThresh := by
  unfold thresholdFormula
  apply Nat.div_le_div_right
  apply Nat.mul_le_mul_right
  exact min_le_min_right _ (Nat.div_le_div_left later positive)

/-- Of the two divisors, only that of `div_u64` can be zero. -/
theorem mqEcnDivisors_ne_zero_iff (running : 0 < q.roundTime cl.prio)
    (positive : 0 < q.rate.rateBps) :
    (∀ divisor ∈ mqEcnDivisors q cl, divisor ≠ 0) ↔
      ¬2 ^ 32 ∣ (q.roundTime cl.prio).toNat := by
  have divisor : u32OfInt (q.roundTime cl.prio) = 0 ↔
      2 ^ 32 ∣ (q.roundTime cl.prio).toNat := by
    unfold u32OfInt
    omega
  simp only [mqEcnDivisors, if_pos running, List.cons_append, List.nil_append, List.mem_cons,
    List.not_mem_nil, or_false, forall_eq_or_imp, forall_eq, ne_eq, divisor]
  exact and_iff_left positive.ne'

/-- At one port threshold the code is exact if and only if the threshold absorbs what the
truncation of the divisor adds. -/
theorem exactThreshold_iff_absorbs {params : Params} (quantum : cl.quantum ≤ 204800)
    (running : 0 < q.roundTime cl.prio) (positive : 0 < rate) (word : rate < 2 ^ 32)
    (configured : q.rate = changeRate rate) (admitted : ThresholdAdmitted params) :
    ExactThreshold params q cl ↔
      AbsorbsTruncation cl.quantum q.rate.rateBps (q.roundTime cl.prio).toNat
        (params.value .portThresh).toNat := by
  have bps : q.rate.rateBps = rate * 8 := by rw [configured, changeRate_rateBps word]
  have divided : 0 < rate * 8 := by omega
  have divisors := mqEcnDivisors_ne_zero_iff running (bps ▸ divided)
  have value := mqEcnThresh_eq quantum running word configured admitted
  rw [bps]
  constructor
  · rintro ⟨divides, exact⟩
    refine ⟨divisors.mp divides, ?_⟩
    rw [value, bps] at exact
    rw [← Nat.div_lt_iff_lt_mul divided, exact]
    exact Nat.lt_succ_self _
  · rintro ⟨odd, below⟩
    rw [← Nat.div_lt_iff_lt_mul divided, ← value] at below
    refine ⟨divisors.mpr odd, ?_⟩
    have above : thresholdFormula cl.quantum (q.roundTime cl.prio).toNat (rate * 8)
        (params.value .portThresh).toNat ≤ mqEcnThresh params q cl := by
      rw [value]
      exact Nat.div_le_div_right
        (Nat.mul_le_mul_right _ (estimate_mono cl.quantum (rate * 8) odd))
    rw [bps]
    exact Nat.le_antisymm (Nat.lt_succ_iff.mp below) above

private theorem ExactThreshold.of_survives {params : Params} (quantum : cl.quantum ≤ 204800)
    (running : 0 < q.roundTime cl.prio) (positive : 0 < rate) (word : rate < 2 ^ 32)
    (configured : q.rate = changeRate rate) (admitted : ThresholdAdmitted params)
    (survives : SurvivesTruncation cl.quantum q.rate.rateBps (q.roundTime cl.prio).toNat) :
    ExactThreshold params q cl := by
  have bps : q.rate.rateBps = rate * 8 := by rw [configured, changeRate_rateBps word]
  rw [exactThreshold_iff_absorbs quantum running positive word configured admitted]
  apply survives.absorbs
  · omega
  · omega

/-- The largest admitted port threshold. -/
def widest : Params := paramsInit.write .portThresh (2 ^ 28)

private theorem survives_of_exactThreshold (quantum : 1538 ≤ cl.quantum ∧ cl.quantum ≤ 204800)
    (running : 0 < q.roundTime cl.prio) (positive : 0 < rate) (word : rate < 2 ^ 32)
    (configured : q.rate = changeRate rate) (exact : ExactThreshold widest q cl) :
    SurvivesTruncation cl.quantum q.rate.rateBps (q.roundTime cl.prio).toNat := by
  have bps : q.rate.rateBps = rate * 8 := by rw [configured, changeRate_rateBps word]
  have thresh : (widest.value .portThresh).toNat = 2 ^ 28 := by decide
  rcases (exactThreshold_iff_absorbs quantum.2 running positive word configured
    (by decide)).mp exact with ⟨odd, _⟩
  rw [bps]
  by_contra fails
  simp only [SurvivesTruncation, not_or, not_lt, not_and, not_le] at fails
  rcases fails with ⟨long, lost⟩
  have apart := estimate_add_quantum_le cl.quantum odd long
  have small := estimate_le cl.quantum long
  have value := exact.exact
  rw [mqEcnThresh_eq quantum.2 running word configured (by decide), thresholdFormula, bps,
    thresh] at value
  exact scaled_ne (by omega) (by omega) (lost odd) (by omega) (by omega) value

/-- **MQ-ECN threshold.** At an admitted port threshold the code divides by nothing that is
zero and finds the threshold due, if and only if that threshold absorbs the truncation of
the divisor. It does at every admitted port threshold if and only if the round time survives
the truncation. Where absorbed, the threshold is no more than that of the port, and a longer
round time gives no higher one. -/
theorem mqEcnThresh_exact_iff (quantum : 1538 ≤ cl.quantum ∧ cl.quantum ≤ 204800)
    (running : 0 < q.roundTime cl.prio) (positive : 0 < rate) (word : rate < 2 ^ 32)
    (configured : q.rate = changeRate rate) :
    (∀ params, ThresholdAdmitted params →
      (ExactThreshold params q cl ↔
        AbsorbsTruncation cl.quantum q.rate.rateBps (q.roundTime cl.prio).toNat
          (params.value .portThresh).toNat)) ∧
    ((∀ params, ThresholdAdmitted params → ExactThreshold params q cl) ↔
      SurvivesTruncation cl.quantum q.rate.rateBps (q.roundTime cl.prio).toNat) ∧
    ∀ params, ThresholdAdmitted params →
      AbsorbsTruncation cl.quantum q.rate.rateBps (q.roundTime cl.prio).toNat
        (params.value .portThresh).toNat →
        mqEcnThresh params q cl ≤ params.value .portThresh ∧
        ∀ longer : DwrrSchedData, longer.rate = q.rate →
          q.roundTime cl.prio ≤ longer.roundTime cl.prio →
          AbsorbsTruncation cl.quantum longer.rate.rateBps (longer.roundTime cl.prio).toNat
            (params.value .portThresh).toNat →
            mqEcnThresh params longer cl ≤ mqEcnThresh params q cl := by
  have exactly := fun params (admitted : ThresholdAdmitted params) =>
    exactThreshold_iff_absorbs quantum.2 running positive word configured admitted
  refine ⟨exactly, ⟨fun exact => ?_, fun survives params admitted => ?_⟩,
    fun params admitted absorbs => ?_⟩
  · exact survives_of_exactThreshold quantum running positive word configured
      (exact widest (by decide))
  · exact .of_survives quantum.2 running positive word configured admitted survives
  have short := (exactly params admitted).mpr absorbs
  constructor
  · have bounded := thresholdFormula_le cl.quantum (q.roundTime cl.prio).toNat q.rate.rateBps
      (params.value .portThresh).toNat
    rcases admitted with ⟨nonneg, _⟩
    rw [short.exact]
    omega
  · intro longer sameRate later absorbsLonger
    have long := (exactThreshold_iff_absorbs quantum.2 (lt_of_lt_of_le running later) positive
      word (sameRate.trans configured) admitted).mpr absorbsLonger
    rw [short.exact, long.exact, sameRate]
    apply thresholdFormula_antitone
    · omega
    · omega

end

/-! ### A round of more than 32 bits -/

/-- The loaded qdisc at 1 Gbit/s, with rounds of four seconds and a bit. -/
def slowRound : DwrrSchedData := { loaded.q with roundTime := fun _ => 2 ^ 32 + 1 }

/-- The class of queue 0 is due none of the port threshold, and gets all of it. -/
theorem slowRound_threshold :
    ThresholdAdmitted paramsInit ∧ (slowRound.queues 0).quantum = 1538 ∧
      slowRound.rate = changeRate 125000000 ∧
      slowRound.roundTime (slowRound.queues 0).prio = 2 ^ 32 + 1 ∧
      mqEcnThresh paramsInit slowRound (slowRound.queues 0) = 32000 ∧
      thresholdFormula 1538 (2 ^ 32 + 1) 1000000000 32000 = 0 ∧
      ¬ExactThreshold paramsInit slowRound (slowRound.queues 0) := by
  have threshold : mqEcnThresh paramsInit slowRound (slowRound.queues 0) = 32000 := by decide
  have due : thresholdFormula 1538 (2 ^ 32 + 1) 1000000000 32000 = 0 := by decide
  refine ⟨by decide, by decide, by decide, by decide, threshold, due, fun exact => ?_⟩
  have equal : mqEcnThresh paramsInit slowRound (slowRound.queues 0) =
      thresholdFormula 1538 (2 ^ 32 + 1) 1000000000 32000 := exact.exact
  omega

/-- The loaded qdisc with rounds of 24 microseconds. -/
def fastRound : DwrrSchedData := { loaded.q with roundTime := fun _ => 24608 }

private theorem fastRound_rate : fastRound.rate = changeRate 125000000 := by decide

/-- There the class of queue 0 gets what it is due. -/
theorem fastRound_threshold : ExactThreshold paramsInit fastRound (fastRound.queues 0) :=
  (mqEcnThresh_exact_iff (by decide) (by decide) (by decide) (by decide) fastRound_rate).2.1.mpr
    (Or.inl (by decide)) paramsInit (by decide)

end MqEcn.Kernel.Dwrr
