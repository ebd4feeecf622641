import Mathlib.Algebra.Order.Field.Basic
import Mathlib.Analysis.Convex.Basic
import MqEcn.Library.Transition

/-!
Contract: a quantity followed by exponential smoothing.

Owns: what may happen to the estimate of a quantity that stays between zero and a limit, the
range in which whole runs keep the estimate, and the range of a threshold that is shared out by
it.

Does not own: when a scheduler samples its estimates.
-/

set_option autoImplicit false

namespace MqEcn.Library.Smoothing

open Set
open MqEcn.Library.Transition

variable {K : Type*} [Field K] [LinearOrder K] [IsStrictOrderedRing K]

/-- An estimate, the quantity it follows, and the time from which a rest is counted. -/
structure Estimate (K : Type*) where
  value : K
  quantity : K
  idleSince : K

/-- What an operation at `now` may do to an estimate that keeps `alpha` of its past: leave it,
weaken it, or mix the quantity into it as the operation leaves that behind. -/
inductive Moves (alpha now : K) (before after : Estimate K) : Prop
  | keep (value : after.value = before.value)
      (idle : after.idleSince = before.idleSince ∨ after.idleSince = now) :
      Moves alpha now before after
  | decay {factor : K} (range : factor ∈ Icc 0 1) (value : after.value = before.value * factor)
      (idle : after.idleSince = before.idleSince) : Moves alpha now before after
  | sample (value : after.value = before.value * alpha + after.quantity * (1 - alpha))
      (idle : after.idleSince = before.idleSince ∨ after.idleSince = now) :
      Moves alpha now before after

/-- The estimate of a quantity up to `limit`, with no rest that begins in the future. -/
structure InRange (limit clock : K) (estimate : Estimate K) : Prop where
  value : estimate.value ∈ Icc 0 limit
  idle : estimate.idleSince ≤ clock

section

variable {alpha limit clock now : K} {before after : Estimate K}

theorem Moves.value_mem (moves : Moves alpha now before after) (factor : alpha ∈ Icc 0 1)
    (quantity : after.quantity ∈ Icc 0 limit) (range : before.value ∈ Icc 0 limit) :
    after.value ∈ Icc 0 limit := by
  cases moves with
  | keep value => exact value ▸ range
  | @decay factor weaker value =>
      rw [value]
      exact ⟨mul_nonneg range.1 weaker.1,
        (mul_le_of_le_one_right range.1 weaker.2).trans range.2⟩
  | sample value =>
      have mixed := convex_Icc (0 : K) limit range quantity factor.1
        (sub_nonneg.mpr factor.2) (add_sub_cancel alpha 1)
      rw [value, mul_comm before.value, mul_comm after.quantity]
      exact mixed

omit [IsStrictOrderedRing K] in
private theorem Moves.idleSince_le (moves : Moves alpha now before after) (later : clock ≤ now)
    (idle : before.idleSince ≤ clock) : after.idleSince ≤ now := by
  have old : before.idleSince ≤ now := idle.trans later
  cases moves with
  | keep _ since | sample _ since =>
      rcases since with same | fresh
      · exact same ▸ old
      · exact fresh.le
  | decay _ _ since => exact since ▸ old

/-- An operation keeps the estimate in range. -/
theorem InRange.step (range : InRange limit clock before) (moves : Moves alpha now before after)
    (later : clock ≤ now) (factor : alpha ∈ Icc 0 1) (quantity : after.quantity ∈ Icc 0 limit) :
    InRange limit now after :=
  ⟨moves.value_mem factor quantity range.value, moves.idleSince_le later range.idle⟩

end

/-! ### Runs -/

section

universe u v

variable {State : Type u} {Label : Type v} {step : State → Label → State → Prop}
  {estimate : State → Estimate K} {clock : State → K} {alpha limit : K} {sound good : State → Prop}
  {first last : State} {labels : List Label}

/-- A system that keeps an estimate, as long as it is in a sound state. -/
structure Estimating (step : State → Label → State → Prop) (estimate : State → Estimate K)
    (clock : State → K) (alpha : K) (sound : State → Prop) : Prop where
  kept : ∀ {s label s'}, step s label s' → sound s → sound s'
  later : ∀ {s label s'}, step s label s' → clock s ≤ clock s'
  moves : ∀ {s label s'}, step s label s' → sound s → (estimate s).idleSince ≤ clock s →
    Moves alpha (clock s') (estimate s) (estimate s')
  nonneg : ∀ {s}, sound s → 0 ≤ (estimate s).quantity

/-- A run has some limit for its estimate. -/
theorem Estimating.bounded (estimating : Estimating step estimate clock alpha sound)
    (factor : alpha ∈ Icc 0 1) (run : Run step first labels last) (isSound : sound first)
    (range : ∃ bound, InRange bound (clock first) (estimate first)) :
    sound last ∧ ∃ bound, InRange bound (clock last) (estimate last) := by
  apply run.preserves
    (fun s => sound s ∧ ∃ bound, InRange bound (clock s) (estimate s)) _ ⟨isSound, range⟩
  rintro s label s' head ⟨soundBefore, bound, before⟩
  have soundAfter := estimating.kept head soundBefore
  refine ⟨soundAfter, max bound (estimate s').quantity, ?_⟩
  have wider : InRange (max bound (estimate s').quantity) (clock s) (estimate s) :=
    ⟨⟨before.value.1, before.value.2.trans (le_max_left _ _)⟩, before.idle⟩
  exact wider.step (estimating.moves head soundBefore before.idle) (estimating.later head) factor
    ⟨estimating.nonneg soundAfter, le_max_right _ _⟩

/-- A run that keeps the quantity within a limit keeps its estimate within it. -/
theorem Estimating.inRange (estimating : Estimating step estimate clock alpha sound)
    (factor : alpha ∈ Icc 0 1) (within : RunWithin good step first labels last)
    (below : ∀ s, sound s → good s → (estimate s).quantity ≤ limit) (isSound : sound first)
    (range : InRange limit (clock first) (estimate first)) :
    sound last ∧ InRange limit (clock last) (estimate last) := by
  apply within.2.preserves (fun s => sound s ∧ InRange limit (clock s) (estimate s)) _
    ⟨isSound, range⟩
  rintro s label s' ⟨_, head, goodAfter⟩ ⟨soundBefore, before⟩
  have soundAfter := estimating.kept head soundBefore
  exact ⟨soundAfter, before.step (estimating.moves head soundBefore before.idle)
    (estimating.later head) factor ⟨estimating.nonneg soundAfter, below s' soundAfter goodAfter⟩⟩

/-- Whatever the quantity was before: from an estimate within the limit on. -/
theorem Estimating.inRange_since (estimating : Estimating step estimate clock alpha sound)
    (factor : alpha ∈ Icc 0 1) {start : State} {history : List Label} {bound : K}
    (before : Run step start history first) (during : RunWithin good step first labels last)
    (isSound : sound start) (range : InRange bound (clock start) (estimate start))
    (under : (estimate first).value ≤ limit)
    (below : ∀ s, sound s → good s → (estimate s).quantity ≤ limit) :
    sound last ∧ InRange limit (clock last) (estimate last) := by
  obtain ⟨soundFirst, _, rangeFirst⟩ := estimating.bounded factor before isSound ⟨bound, range⟩
  exact estimating.inRange factor during below soundFirst
    ⟨⟨rangeFirst.value.1, under⟩, rangeFirst.idle⟩

end

/-! ### A threshold shared out -/

/-- The part of `thresh` for a `share` of what is estimated, once the estimate is worth
dividing by. -/
def portion (least share estimate thresh : K) : K :=
  if least ≤ estimate then min (share / estimate) 1 * thresh else thresh

variable {least share estimate limit thresh : K}

theorem portion_le (nonneg : 0 ≤ thresh) : portion least share estimate thresh ≤ thresh := by
  unfold portion
  split
  · exact mul_le_of_le_one_left nonneg (min_le_right _ _)
  · exact le_rfl

/-- An estimate below the limit leaves at least the part a share has in the limit. -/
theorem le_portion (nonneg : 0 ≤ thresh) (positive : 0 < least) (own : 0 ≤ share)
    (within : share ≤ limit) (below : estimate ≤ limit) :
    share / limit * thresh ≤ portion least share estimate thresh := by
  have part : share / limit ≤ 1 := div_le_one_of_le₀ within (own.trans within)
  unfold portion
  split
  next worth =>
    have positiveEstimate : 0 < estimate := positive.trans_le worth
    have larger : share / limit ≤ share / estimate :=
      div_le_div_of_nonneg_left own positiveEstimate below
    exact mul_le_mul_of_nonneg_right (le_min larger part) nonneg
  next => exact mul_le_of_le_one_left nonneg part

end MqEcn.Library.Smoothing
