import Mathlib.Tactic.Common
import Mathlib.Algebra.Order.Ring.Int
import Mathlib.Logic.Function.Basic

/-!
Contract: integer sysctl parameters.

Owns: the two handlers the parameter tables use, settings every value of which
its own handler admits, and the write, which a handler refuses or performs.

Does not own: the tables of the modules.
-/

set_option autoImplicit false

namespace MqEcn.Kernel.Sysctl

/-- `proc_handler` of a table entry, with `extra1` and `extra2` where it has them. -/
inductive Handler where
  /-- `proc_dointvec_minmax`. -/
  | minmax (low high : Int)
  /-- `proc_dointvec`. -/
  | dointvec
deriving DecidableEq

/-- The values a handler stores. -/
def Handler.Admits : Handler → Int → Prop
  | .minmax low high, value => low ≤ value ∧ value ≤ high
  | .dointvec, value => -2 ^ 31 ≤ value ∧ value < 2 ^ 31

instance (handler : Handler) (value : Int) : Decidable (handler.Admits value) := by
  unfold Handler.Admits
  cases handler <;> infer_instance

/-- The integers behind a parameter table. No value is outside its own range. -/
structure Settings {Param : Type} (handler : Param → Handler) where
  value : Param → Int
  admissible : ∀ param, (handler param).Admits (value param)

namespace Settings

variable {Param : Type} [DecidableEq Param] {handler : Param → Handler}

/-- A write to one entry. A value outside the range is refused. -/
def write (settings : Settings handler) (param : Param) (value : Int) : Settings handler :=
  if admits : (handler param).Admits value then
    { value := Function.update settings.value param value
      admissible := fun other => by
        by_cases same : other = param
        · subst same
          simpa using admits
        · simpa [Function.update_of_ne same] using settings.admissible other }
  else settings

/-- A write touches no other entry. -/
theorem write_value_of_ne (settings : Settings handler) {param other : Param}
    (different : other ≠ param) (value : Int) :
    (settings.write param value).value other = settings.value other := by
  unfold write
  split
  · simp [Function.update_of_ne different]
  · rfl

/-- What a write leaves in every entry. -/
theorem write_value (settings : Settings handler) (param other : Param) (value : Int) :
    (settings.write param value).value other =
      if (handler param).Admits value ∧ other = param then value else settings.value other := by
  unfold write
  by_cases admits : (handler param).Admits value
  · by_cases same : other = param
    · subst same
      simp [admits]
    · simp [admits, same]
  · simp [admits]

omit [DecidableEq Param] in
/-- Settings are what their values are. -/
theorem eq_of_value {left right : Settings handler}
    (same : ∀ param, left.value param = right.value param) : left = right := by
  obtain ⟨value, admissible⟩ := left
  obtain ⟨value', admissible'⟩ := right
  obtain rfl : value = value' := funext same
  rfl

end Settings

end MqEcn.Kernel.Sysctl
