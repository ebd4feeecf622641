import MqEcn.Kernel.Shaping
import MqEcn.Library.FixedPoint

/-!
Contract: the accuracy of `l2t_ns`.

Owns: `l2t_ns` as a multiplication in fixed point, its distance from the exact transmission
time, the rates whose factor fits the 32 bits of `mult`, and the bytes a shaper lets through at
these rates.

Does not own: the token bucket.
-/

set_option autoImplicit false

namespace MqEcn.Kernel

open MqEcn.Library
open MqEcn.Library.Transition
open MqEcn.Library.Word

/-! ### Conversion -/

/-- The transmission time of `len` bytes, in nanoseconds. -/
def exactNs (rate : RateCfg) (len : Nat) : ℚ := len * 8 * 10 ^ 9 / rate.rateBps

/-- `l2t_ns` is the transmission time, rounded down, with a factor rounded down. -/
def Accurate (rate : RateCfg) (len : Nat) : Prop :=
  l2tNs rate len ≤ exactNs rate len ∧ exactNs rate len < l2tNs rate len + 1 + len / 2 ^ 15

/-- The least rate in bytes per second whose factor fits `mult`. -/
def leastRate : Nat := 7630

/-- The factor of a rate, before it is stored in `mult`. -/
def exactMult (rate : Nat) : Nat := 8 * 1000000000 * 2 ^ 15 / (rate * 8)

section

variable {rate len : Nat}

private theorem changeRate_eq (positive : 0 < rate) (narrow : rate < 2 ^ 32) :
    changeRate rate = { rateBps := rate * 8, mult := u32 (exactMult rate), shift := 15 } := by
  have same : u64 (u32 rate * 8) = rate * 8 := by
    unfold u64 u32
    omega
  unfold changeRate precomputeRatedata exactMult
  rw [same, if_pos (by omega)]

theorem l2tNs_changeRate (positive : 0 < rate) (narrow : rate < 2 ^ 32) (short : len < 2 ^ 32) :
    l2tNs (changeRate rate) len = FixedPoint.scale 15 (u32 (exactMult rate)) len := by
  have wide : len * u32 (exactMult rate) < 2 ^ 64 := by
    have factor : u32 (exactMult rate) < 2 ^ 32 := Nat.mod_lt _ (by decide)
    calc len * u32 (exactMult rate) < 2 ^ 32 * 2 ^ 32 := Nat.mul_lt_mul'' short factor
      _ = 2 ^ 64 := by decide
  have whole : u32 len = len := Nat.mod_eq_of_lt short
  have product : u64 (len * u32 (exactMult rate)) = len * u32 (exactMult rate) :=
    Nat.mod_eq_of_lt wide
  rw [changeRate_eq positive narrow]
  unfold l2tNs FixedPoint.scale
  rw [whole, product, Nat.shiftRight_eq_div_pow]

private theorem exactNs_changeRate (positive : 0 < rate) (narrow : rate < 2 ^ 32) :
    exactNs (changeRate rate) len = len * (8 * 10 ^ 9 / (rate * 8 : Nat)) := by
  rw [changeRate_eq positive narrow]
  unfold exactNs
  rw [mul_assoc, mul_div_assoc]

/-- The factor is the exact one, rounded down. -/
theorem exactMult_range (positive : 0 < rate) :
    (exactMult rate : ℚ) ≤ 8 * 10 ^ 9 / (rate * 8 : Nat) * 2 ^ 15 ∧
      (8 * 10 ^ 9 / (rate * 8 : Nat) * 2 ^ 15 : ℚ) < exactMult rate + 1 := by
  have divisor : 0 < rate * 8 := by omega
  have divisorRat : (0 : ℚ) < (rate * 8 : Nat) := by exact_mod_cast divisor
  have below := Nat.div_mul_le_self (8 * 1000000000 * 2 ^ 15) (rate * 8)
  have above := Nat.lt_mul_div_succ (8 * 1000000000 * 2 ^ 15) divisor
  rw [div_mul_eq_mul_div]
  unfold exactMult
  constructor
  · rw [le_div_iff₀ divisorRat]
    exact_mod_cast below
  · rw [div_lt_iff₀ divisorRat, mul_comm (_ + 1 : ℚ)]
    exact_mod_cast above

private theorem exactMult_lt_iff (positive : 0 < rate) :
    exactMult rate < 2 ^ 32 ↔ leastRate ≤ rate := by
  unfold exactMult leastRate
  rw [Nat.div_lt_iff_lt_mul (by omega)]
  omega

/-- Where the factor fits `mult`, the conversion is accurate. -/
theorem accurate_of_fits (positive : 0 < rate) (narrow : rate < 2 ^ 32) (short : len < 2 ^ 32)
    (fits : leastRate ≤ rate) : Accurate (changeRate rate) len := by
  have stored : u32 (exactMult rate) = exactMult rate :=
    Nat.mod_eq_of_lt ((exactMult_lt_iff positive).mpr fits)
  obtain ⟨below, above⟩ := exactMult_range positive
  unfold Accurate
  rw [l2tNs_changeRate positive narrow short, exactNs_changeRate positive narrow, stored]
  exact ⟨FixedPoint.scale_le below, FixedPoint.lt_scale above⟩

/-- Where it does not, every length is at least 131072 ns a byte too short. -/
theorem l2tNs_add_le (positive : 0 < rate) (narrow : rate < 2 ^ 32) (short : len < 2 ^ 32)
    (slow : rate < leastRate) :
    (l2tNs (changeRate rate) len + len * 2 ^ 17 : ℚ) ≤ exactNs (changeRate rate) len := by
  have tooLarge : 2 ^ 32 ≤ exactMult rate := by
    rw [← not_lt, exactMult_lt_iff positive]
    exact not_le.mpr slow
  have lacks : u32 (exactMult rate) + 2 ^ 32 ≤ exactMult rate := by
    unfold u32
    omega
  have excess : (u32 (exactMult rate) + (2 ^ 32 : Nat) : ℚ) ≤
      8 * 10 ^ 9 / (rate * 8 : Nat) * 2 ^ 15 := by
    refine le_trans ?_ (exactMult_range positive).1
    exact_mod_cast lacks
  have missing := @FixedPoint.scale_add_le 15 _ len _ _ excess
  have power : (len * (2 ^ 32 : Nat) / 2 ^ 15 : ℚ) = len * 2 ^ 17 := by
    push_cast
    rw [mul_div_assoc]
    norm_num
  rw [l2tNs_changeRate positive narrow short, exactNs_changeRate positive narrow, ← power]
  exact missing

/-- The conversion is accurate for no byte or where the factor fits `mult`. -/
theorem accurate_iff (positive : 0 < rate) (narrow : rate < 2 ^ 32) (short : len < 2 ^ 32) :
    Accurate (changeRate rate) len ↔ len = 0 ∨ leastRate ≤ rate := by
  constructor
  · intro accurate
    by_contra neither
    obtain ⟨some, slow⟩ := not_or.mp neither
    have missing := l2tNs_add_le positive narrow short (not_le.mp slow)
    have close := accurate.2
    have bytes : (1 : ℚ) ≤ len := by exact_mod_cast Nat.one_le_iff_ne_zero.mpr some
    linarith
  · rintro (rfl | fits)
    · unfold Accurate exactNs l2tNs
      simp [u32, u64]
    · exact accurate_of_fits positive narrow short fits

private theorem l2tNs_mono (positive : 0 < rate) (narrow : rate < 2 ^ 32) {more : Nat}
    (ordered : len ≤ more) (short : more < 2 ^ 32) :
    l2tNs (changeRate rate) len ≤ l2tNs (changeRate rate) more := by
  rw [l2tNs_changeRate positive narrow (ordered.trans_lt short),
    l2tNs_changeRate positive narrow short]
  exact FixedPoint.scale_mono 15 _ ordered

end

/-! ### Shaping -/

section

variable {Param : Type}

/-- The size of a packet returned at a time in the closed window. -/
def Event.sizeWithin (opens closes : Int) : Event Param → Option Nat
  | .dequeue now (.packet _ skb) =>
      if opens ≤ now ∧ now ≤ closes then some (skbSize skb) else none
  | _ => none

def sizesWithin (opens closes : Int) (events : List (Event Param)) : List Nat :=
  events.filterMap (Event.sizeWithin opens closes)

/-- The packets of a window do not take longer at the configured rate than two buckets, the
window and the rounding of each. -/
def Conforms (rate : RateCfg) (bucketBytes opens closes : Int) (sizes : List Nat) : Prop :=
  (sizes.map (exactNs rate)).sum ≤
    2 * bucketNs rate bucketBytes + (closes - opens : Int) +
      (sizes.map fun size : Nat => (1 + size / 2 ^ 15 : ℚ)).sum

/-- No run of either scheduler at a constant rate releases packets faster. -/
def Shapes (rate : RateCfg) : Prop :=
  ∀ (bfifo : Bfifo) (bucketBytes opens closes : Int), opens ≤ closes →
    (∀ start last events, Dwrr.Initial start →
      RunWithin (Dwrr.Shaped rate bucketBytes) (Dwrr.Step bfifo) start events last →
      Conforms rate bucketBytes opens closes (sizesWithin opens closes events)) ∧
    ∀ start last events, Wfq.Initial start →
      RunWithin (Wfq.Shaped rate bucketBytes) (Wfq.Step bfifo) start events last →
      Conforms rate bucketBytes opens closes (sizesWithin opens closes events)

private theorem airtimeWithin_eq_sum (rate : RateCfg) (opens closes : Int)
    (events : List (Event Param)) :
    airtimeWithin rate opens closes events =
      (((sizesWithin opens closes events).map (l2tNs rate)).sum : Nat) := by
  unfold airtimeWithin sizesWithin
  induction events with
  | nil => rfl
  | cons event rest inductionHypothesis =>
      by_cases returned : ∃ now queue skb, event = .dequeue now (.packet queue skb)
      · obtain ⟨now, queue, skb, rfl⟩ := returned
        have spending : Event.spending rate (.dequeue now (.packet queue skb) : Event Param) =
            some (now, (l2tNs rate (skbSize skb) : Int)) := rfl
        rw [List.filterMap_cons_some spending]
        unfold TokenBucket.spentWithin
        rw [inductionHypothesis]
        by_cases inside : opens ≤ now ∧ now ≤ closes
        · have size : Event.sizeWithin opens closes
              (.dequeue now (.packet queue skb) : Event Param) = some (skbSize skb) :=
            if_pos inside
          rw [if_pos inside, List.filterMap_cons_some size, List.map_cons, List.sum_cons,
            Nat.cast_add]
        · have size : Event.sizeWithin opens closes
              (.dequeue now (.packet queue skb) : Event Param) = none := if_neg inside
          rw [if_neg inside, List.filterMap_cons_none size, zero_add]
      · have spending : Event.spending rate event = none := by
          unfold Event.spending
          split
          next now queue skb => exact absurd ⟨now, queue, skb, rfl⟩ returned
          next => rfl
        have size : Event.sizeWithin opens closes event = none := by
          unfold Event.sizeWithin
          split
          next now queue skb => exact absurd ⟨now, queue, skb, rfl⟩ returned
          next => rfl
        rw [List.filterMap_cons_none spending, List.filterMap_cons_none size, inductionHypothesis]

private theorem sizesWithin_lt {opens closes : Int} {events : List (Event Param)} :
    ∀ size ∈ sizesWithin opens closes events, size < 2 ^ 32 := by
  intro size member
  obtain ⟨event, _, sized⟩ := List.mem_filterMap.mp member
  unfold Event.sizeWithin at sized
  split at sized
  next =>
    obtain ⟨_, same⟩ := Option.ite_none_right_eq_some.mp sized
    obtain rfl := Option.some.inj same
    exact Nat.mod_lt _ (by decide)
  next => cases sized

/-- What is charged for some packets is off by the rounding of each. -/
theorem sum_exactNs_le {rate : RateCfg} {sizes : List Nat}
    (accurate : ∀ size ∈ sizes, Accurate rate size) :
    (sizes.map (exactNs rate)).sum ≤
      ((sizes.map (l2tNs rate)).sum : Nat) +
        (sizes.map fun size : Nat => (1 + size / 2 ^ 15 : ℚ)).sum := by
  induction sizes with
  | nil => simp
  | cons size sizes inductionHypothesis =>
      have head := (accurate size List.mem_cons_self).2
      have tail := inductionHypothesis fun other member =>
        accurate other (List.mem_cons_of_mem size member)
      simp only [List.map_cons, List.sum_cons]
      push_cast at tail ⊢
      linarith

private theorem conforms_of_airtime {rate : RateCfg} {bucketBytes opens closes : Int}
    {events : List (Event Param)} (accurate : ∀ len < 2 ^ 32, Accurate rate len)
    (airtime : airtimeWithin rate opens closes events ≤
      2 * bucketNs rate bucketBytes + (closes - opens)) :
    Conforms rate bucketBytes opens closes (sizesWithin opens closes events) := by
  have charged := @sum_exactNs_le rate (sizesWithin opens closes events)
    fun size member => accurate size (sizesWithin_lt size member)
  rw [airtimeWithin_eq_sum] at airtime
  generalize ((sizesWithin opens closes events).map (l2tNs rate)).sum = total at charged airtime
  have airtimeRat : (total : ℚ) ≤ 2 * bucketNs rate bucketBytes + (closes - opens : Int) := by
    exact_mod_cast airtime
  unfold Conforms
  linarith

private theorem shapes_of_accurate {rate : RateCfg} (accurate : ∀ len < 2 ^ 32, Accurate rate len) :
    Shapes rate := by
  intro bfifo bucketBytes opens closes ordered
  constructor
  · intro start last events fresh run
    exact conforms_of_airtime accurate (Dwrr.airtimeWithin_le fresh run ordered)
  · intro start last events fresh run
    exact conforms_of_airtime accurate (Wfq.airtimeWithin_le fresh run ordered)

end

/-- **Accuracy.** At a 32-bit rate the conversion of a length is accurate exactly if the length
is 0 or the rate is at least 7630 bytes/s. Exactly at these rates it is accurate for all lengths,
monotone, and the shaper releases packets no faster than the rate but for the rounding. -/
theorem l2tNs_accurate_iff {rate : Nat} (positive : 0 < rate) (narrow : rate < 2 ^ 32) :
    (∀ len < 2 ^ 32, Accurate (changeRate rate) len ↔ len = 0 ∨ leastRate ≤ rate) ∧
      (((∀ len < 2 ^ 32, Accurate (changeRate rate) len) ∧
          (∀ more < 2 ^ 32, ∀ len ≤ more,
            l2tNs (changeRate rate) len ≤ l2tNs (changeRate rate) more) ∧
          Shapes (changeRate rate)) ↔
        leastRate ≤ rate) := by
  have each : ∀ len < 2 ^ 32, (Accurate (changeRate rate) len ↔ len = 0 ∨ leastRate ≤ rate) :=
    fun len short => accurate_iff positive narrow short
  refine ⟨each, ⟨fun all => ?_, fun fits => ?_⟩⟩
  · exact ((each 1 (by decide)).mp (all.1 1 (by decide))).resolve_left (by decide)
  · have accurate : ∀ len < 2 ^ 32, Accurate (changeRate rate) len :=
      fun len short => (each len short).mpr (Or.inr fits)
    exact ⟨accurate, fun more short len ordered => l2tNs_mono positive narrow ordered short,
      shapes_of_accurate accurate⟩

/-- One gigabit a second. -/
theorem gigabit_accurate :
    (Accurate (changeRate 125000000) 1538 ↔ 1538 = 0 ∨ leastRate ≤ 125000000) ∧
      Shapes (changeRate 125000000) :=
  have gigabit := @l2tNs_accurate_iff 125000000 (by decide) (by decide)
  ⟨gigabit.1 1538 (by decide), (gigabit.2.mpr (by decide)).2.2⟩

/-- One byte at 7629 bytes/s is 131 microseconds, and is charged 6 ns. -/
theorem slowRate_inaccurate : ¬∀ rate len : Nat, 0 < rate → rate < 2 ^ 32 → len < 2 ^ 32 →
    Accurate (changeRate rate) len := by
  intro accurate
  have above := (accurate 7629 1 (by decide) (by decide) (by decide)).2
  revert above
  decide +kernel

end MqEcn.Kernel
