import Mathlib.Algebra.Order.Ring.Int
import Mathlib.Logic.Function.Iterate
import Mathlib.Order.Iterate
import Mathlib.Tactic.Common

/-!
Contract: values that decay by whole intervals, up to a limit of intervals at a time.

Owns: what a decay leaves of a value, the intervals several decays add up to and what they
leave together, the values that monotone decays leave alone, decays that agree below a bound,
and the number of intervals read off a value that has not decayed to zero.

Does not own: when a value decays.
-/

set_option autoImplicit false

namespace MqEcn.Library.Decay

universe u

variable {Value : Type u}

/-- What `intervals` intervals leave of a value; beyond `limit` nothing but `floor` is left. -/
def after (decay : Value → Value) (floor : Value) (limit intervals : Nat) (value : Value) :
    Value :=
  if intervals ≤ limit then decay^[intervals] value else floor

/-- The intervals several decays add up to; `none` where one of them is beyond the limit. -/
def total (limit : Nat) (intervals : List Nat) : Option Nat :=
  if ∀ number ∈ intervals, number ≤ limit then some intervals.sum else none

/-- What that many intervals leave of a value. -/
def leaves (decay : Value → Value) (floor : Value) : Option Nat → Value → Value
  | some intervals, value => decay^[intervals] value
  | none, _ => floor

private theorem total_singleton (limit number : Nat) :
    total limit [number] = if number ≤ limit then some number else none := by
  simp [total]

private theorem total_append (limit : Nat) (first second : List Nat) :
    total limit (first ++ second) =
      (total limit first).bind fun sum => (total limit second).map (sum + ·) := by
  unfold total
  simp only [List.forall_mem_append, List.sum_append]
  by_cases small : ∀ number ∈ first, number ≤ limit
  · by_cases others : ∀ number ∈ second, number ≤ limit
    · rw [if_pos ⟨small, others⟩, if_pos small, if_pos others]
      rfl
    · rw [if_neg fun both => others both.2, if_pos small, if_neg others]
      rfl
  · rw [if_neg fun both => small both.1, if_neg small]
    rfl

/-- One decay leaves what its intervals leave. -/
theorem after_eq_leaves (decay : Value → Value) (floor : Value) (limit number : Nat)
    (value : Value) :
    after decay floor limit number value = leaves decay floor (total limit [number]) value := by
  rw [total_singleton]
  unfold after
  split
  · rfl
  · rfl

/-- What is left after some decays and then some more. -/
theorem leaves_append {decay : Value → Value} {floor : Value} (fixed : decay floor = floor)
    (limit : Nat) (first second : List Nat) (value : Value) :
    leaves decay floor (total limit second) (leaves decay floor (total limit first) value) =
      leaves decay floor (total limit (first ++ second)) value := by
  have stays : ∀ more, leaves decay floor more floor = floor := by
    intro more
    cases more with
    | none => rfl
    | some more => exact Function.iterate_fixed fixed more
  rw [total_append]
  cases total limit first with
  | none => exact stays _
  | some number =>
      cases total limit second with
      | none => rfl
      | some more =>
          show decay^[more] (decay^[number] value) = decay^[number + more] value
          rw [Nat.add_comm, Function.iterate_add_apply]

/-- A value that some intervals of a monotone decay leave alone is left alone by each. -/
theorem iterate_eq_self_iff [LinearOrder Value] {decay : Value → Value} (mono : Monotone decay)
    {intervals : Nat} (positive : 0 < intervals) {value : Value} :
    decay^[intervals] value = value ↔ decay value = value := by
  constructor
  · intro comesBack
    rcases le_total (decay value) value with falls | rises
    · apply le_antisymm falls
      calc value = decay^[intervals] value := comesBack.symm
        _ ≤ decay^[1] value := mono.antitone_iterate_of_map_le falls positive
    · apply le_antisymm _ rises
      calc decay^[1] value ≤ decay^[intervals] value :=
            mono.monotone_iterate_of_le_map rises positive
        _ = value := comesBack
  · intro fixed
    exact Function.iterate_fixed fixed intervals

/-! ### Integers -/

/-- A decay that is another one on the integers, for the values up to a bound which that one
does not raise, leaves the same. -/
theorem leaves_congr (embed : Value → Int) {decay : Value → Value} {exact : Int → Int}
    {floor start : Value} {bound : Int} (bottom : embed floor = 0)
    (agree : ∀ value, 0 ≤ embed value → embed value ≤ bound →
      embed (decay value) = exact (embed value))
    (range : ∀ value, 0 ≤ value → 0 ≤ exact value ∧ exact value ≤ value)
    (nonneg : 0 ≤ embed start) (le : embed start ≤ bound) (intervals : Option Nat) :
    embed (leaves decay floor intervals start) = leaves exact 0 intervals (embed start) := by
  cases intervals with
  | none => exact bottom
  | some intervals =>
      suffices invariant : embed (decay^[intervals] start) = exact^[intervals] (embed start) ∧
          0 ≤ exact^[intervals] (embed start) ∧ exact^[intervals] (embed start) ≤ bound from
        invariant.1
      induction intervals with
      | zero => exact ⟨rfl, nonneg, le⟩
      | succ intervals inductionHypothesis =>
          rcases inductionHypothesis with ⟨same, low, high⟩
          rw [Function.iterate_succ_apply', Function.iterate_succ_apply', ← same] at *
          have next := range _ low
          exact ⟨agree _ low high, next.1, next.2.trans high⟩

section

variable {decay : Int → Int}

/-- A decay that shrinks what is positive has not come back to a positive value it has
passed. -/
theorem iterate_lt (range : ∀ value, 0 ≤ value → 0 ≤ decay value ∧ decay value ≤ value)
    (shrinks : ∀ value, 0 < value → decay value < value) {value : Int} {fewer more : Nat}
    (positive : 0 < decay^[fewer] value) (later : fewer < more) :
    decay^[more] value < decay^[fewer] value := by
  rcases Nat.exists_eq_add_of_lt later with ⟨rest, rfl⟩
  have next := range _ positive.le
  have below : ∀ count, 0 ≤ decay^[count] (decay (decay^[fewer] value)) ∧
      decay^[count] (decay (decay^[fewer] value)) ≤ decay (decay^[fewer] value) := by
    intro count
    induction count with
    | zero => exact ⟨next.1, le_rfl⟩
    | succ count inductionHypothesis =>
        rw [Function.iterate_succ_apply']
        have step := range _ inductionHypothesis.1
        exact ⟨step.1, step.2.trans inductionHypothesis.2⟩
  have split : decay^[fewer + rest + 1] value = decay^[rest] (decay (decay^[fewer] value)) := by
    rw [show fewer + rest + 1 = rest + (fewer + 1) by omega, Function.iterate_add_apply,
      Function.iterate_succ_apply']
  rw [split]
  exact (below rest).2.trans_lt (shrinks _ positive)

/-- A value that has not decayed to zero tells the number of intervals. -/
theorem total_eq_of_leaves_eq
    (range : ∀ value, 0 ≤ value → 0 ≤ decay value ∧ decay value ≤ value)
    (shrinks : ∀ value, 0 < value → decay value < value) {value : Int} {left right : Option Nat}
    (positive : 0 < leaves decay 0 right value)
    (same : leaves decay 0 left value = leaves decay 0 right value) : left = right := by
  cases right with
  | none => exact absurd positive (lt_irrefl 0)
  | some right =>
      cases left with
      | none =>
          rw [← same] at positive
          exact absurd positive (lt_irrefl 0)
      | some left =>
          have equal : decay^[left] value = decay^[right] value := same
          have rightPositive : 0 < decay^[right] value := positive
          have leftPositive : 0 < decay^[left] value := by rwa [equal]
          rcases Nat.lt_trichotomy left right with lower | even | higher
          · exact absurd equal (iterate_lt range shrinks leftPositive lower).ne'
          · rw [even]
          · exact absurd equal (iterate_lt range shrinks rightPositive higher).ne

end

end MqEcn.Library.Decay
