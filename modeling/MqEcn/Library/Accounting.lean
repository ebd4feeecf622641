import Mathlib.Algebra.Order.BigOperators.Group.Finset
import Mathlib.Data.Fintype.BigOperators
import Mathlib.Tactic.Abel

/-!
Contract: totals over a finite family one member of which is replaced.

Owns: the exchange law for a total when one member changes, the bound of a member
by the total, and the bound of a total by a bound on every member.

Does not own: what a member or its measure is.
-/

set_option autoImplicit false

namespace MqEcn.Library.Accounting

open Finset

variable {Index Member : Type} [Fintype Index]

section Update

variable [DecidableEq Index]

/-- Replacing one member exchanges its old contribution for the new one. -/
theorem total_update (measure : Member → Nat) (family : Index → Member)
    (index : Index) (member : Member) :
    ∑ other, measure (Function.update family index member other) + measure (family index) =
      ∑ other, measure (family other) + measure member := by
  have rest : ∑ other ∈ univ.erase index, measure (Function.update family index member other) =
      ∑ other ∈ univ.erase index, measure (family other) := by
    apply sum_congr rfl
    intro other inside
    rw [Function.update_of_ne (ne_of_mem_erase inside)]
  have before := add_sum_erase univ (fun other => measure (family other)) (mem_univ index)
  have after := add_sum_erase univ
    (fun other => measure (Function.update family index member other)) (mem_univ index)
  simp only [Function.update_self, rest] at after
  omega

/-- Replacing one member moves the total by the difference of the two contributions. -/
theorem total_update_sub {Value : Type} [AddCommGroup Value] (measure : Member → Value)
    (family : Index → Member) (index : Index) (member : Member) :
    ∑ other, measure (Function.update family index member other) =
      ∑ other, measure (family other) + (measure member - measure (family index)) := by
  have rest : ∑ other ∈ univ.erase index, measure (Function.update family index member other) =
      ∑ other ∈ univ.erase index, measure (family other) := by
    apply sum_congr rfl
    intro other inside
    rw [Function.update_of_ne (ne_of_mem_erase inside)]
  rw [← add_sum_erase univ (fun other => measure (family other)) (mem_univ index),
    ← add_sum_erase univ (fun other => measure (Function.update family index member other))
      (mem_univ index), rest, Function.update_self]
  abel

end Update

/-- One member contributes at most the total. -/
theorem measure_le_total (measure : Member → Nat) (family : Index → Member) (index : Index) :
    measure (family index) ≤ ∑ other, measure (family other) :=
  single_le_sum (f := fun other => measure (family other)) (fun _ _ => Nat.zero_le _)
    (mem_univ index)

/-- A bound on every member bounds the total. -/
theorem total_le_card_mul {measure : Member → Nat} {family : Index → Member} {bound : Nat}
    (each : ∀ index, measure (family index) ≤ bound) :
    ∑ index, measure (family index) ≤ Fintype.card Index * bound := by
  calc ∑ index, measure (family index) ≤ ∑ _index : Index, bound :=
        sum_le_sum fun index _ => each index
    _ = Fintype.card Index * bound := by simp

end MqEcn.Library.Accounting
