import Mathlib.Data.List.Nodup
import Mathlib.Logic.Function.Basic
import Mathlib.Tactic.Common

/-!
Contract: a ring of the flows that wait for service, kept beside flags of the flows.

Owns: the flags of a flow, what ties them to the ring, and the four changes of a ring that
keep the tie: a flow joins at the tail, the head is visited, the head goes to the tail, the
head leaves.

Does not own: who is served, and for how long.
-/

set_option autoImplicit false

namespace MqEcn.Library.ActiveRing

universe u

variable {Flow : Type u}

/-- What is recorded of a flow: whether it has anything to send, whether it is marked as a
member of the ring, and whether its visit has started. -/
structure Flags where
  busy : Bool
  active : Bool
  current : Bool

/-- The ring holds each busy flow once, the marks say so, and only the head is visited. -/
structure Consistent (flags : Flow → Flags) (ring : List Flow) : Prop where
  nodup : ring.Nodup
  mem_iff : ∀ flow, flow ∈ ring ↔ (flags flow).busy = true
  active_eq : ∀ flow, (flags flow).active = (flags flow).busy
  current : ∀ flow, (flags flow).current = true → ring.head? = some flow

/-- An empty ring of flows that have nothing to send. -/
theorem consistent_nil {flags : Flow → Flags}
    (idle : ∀ flow, flags flow = ⟨false, false, false⟩) : Consistent flags [] where
  nodup := List.nodup_nil
  mem_iff := fun flow => by simp [idle flow]
  active_eq := fun flow => by rw [idle flow]
  current := fun flow => by simp [idle flow]

/-- A ring without repetition takes a new flow at its tail. -/
theorem nodup_snoc {ring : List Flow} {flow : Flow} (nodup : ring.Nodup) (fresh : flow ∉ ring) :
    (ring ++ [flow]).Nodup := by
  rw [← List.concat_eq_append]
  exact nodup.concat fresh

namespace Consistent

variable {flags : Flow → Flags} {ring tail : List Flow} {flow : Flow}

/-- A flow is in the ring once if it is busy, else not at all. -/
theorem count_eq [DecidableEq Flow] (consistent : Consistent flags ring) (flow : Flow) :
    ring.count flow = if (flags flow).busy then 1 else 0 := by
  split
  next busy => exact List.count_eq_one_of_mem consistent.nodup ((consistent.mem_iff flow).mpr busy)
  next idle => exact List.count_eq_zero.mpr fun member => idle ((consistent.mem_iff flow).mp member)

theorem head_busy (consistent : Consistent flags (flow :: tail)) : (flags flow).busy = true :=
  (consistent.mem_iff flow).mp List.mem_cons_self

/-- The flows behind the head are not visited. -/
theorem current_eq_false (consistent : Consistent flags (flow :: tail)) {other : Flow}
    (behind : other ≠ flow) : (flags other).current = false := by
  rw [Bool.eq_false_iff]
  intro current
  exact behind (Option.some.inj (consistent.current other current)).symm

variable [DecidableEq Flow]

/-- The flags of one flow are replaced, in a ring that holds the other flows as before. -/
theorem update (consistent : Consistent flags ring) {ring' : List Flow} {flags' : Flags}
    (nodup : ring'.Nodup) (others : ∀ other ≠ flow, other ∈ ring' ↔ other ∈ ring)
    (heads : ∀ other ≠ flow, (flags other).current = true → ring'.head? = some other)
    (member : flow ∈ ring' ↔ flags'.busy = true) (active : flags'.active = flags'.busy)
    (head : flags'.current = true → ring'.head? = some flow) :
    Consistent (Function.update flags flow flags') ring' := by
  refine ⟨nodup, fun other => ?_, fun other => ?_, fun other => ?_⟩
  all_goals by_cases same : other = flow
  · subst same
    rwa [Function.update_self]
  · rw [Function.update_of_ne same, others other same]
    exact consistent.mem_iff other
  · subst same
    rwa [Function.update_self]
  · rw [Function.update_of_ne same]
    exact consistent.active_eq other
  · subst same
    rwa [Function.update_self]
  · rw [Function.update_of_ne same]
    exact heads other same

/-- An idle flow joins at the tail. -/
theorem join (consistent : Consistent flags ring) (idle : (flags flow).busy = false) :
    Consistent (Function.update flags flow ⟨true, true, false⟩) (ring ++ [flow]) := by
  have fresh : flow ∉ ring := fun member => by
    rw [(consistent.mem_iff flow).mp member] at idle
    cases idle
  apply consistent.update (nodup_snoc consistent.nodup fresh)
  · intro other different
    simp [different]
  · intro other _ current
    rw [List.head?_append, consistent.current other current]
    rfl
  · simp
  · rfl
  · simp

/-- The head is visited. -/
theorem visit (consistent : Consistent flags (flow :: tail)) :
    Consistent (Function.update flags flow { flags flow with current := true })
      (flow :: tail) := by
  apply consistent.update consistent.nodup
  · exact fun _ _ => Iff.rfl
  · exact fun other _ => consistent.current other
  · exact consistent.mem_iff flow
  · exact consistent.active_eq flow
  · exact fun _ => rfl

/-- The head goes to the tail, and its visit is over. -/
theorem turn (consistent : Consistent flags (flow :: tail)) :
    Consistent (Function.update flags flow { flags flow with current := false })
      (tail ++ [flow]) := by
  rcases List.nodup_cons.mp consistent.nodup with ⟨fresh, nodup⟩
  apply consistent.update (nodup_snoc nodup fresh)
  · intro other different
    simp [different]
  · intro other different current
    rw [consistent.current_eq_false different] at current
    cases current
  · simp [consistent.head_busy]
  · exact consistent.active_eq flow
  · simp

/-- The head leaves. -/
theorem leave (consistent : Consistent flags (flow :: tail)) :
    Consistent (Function.update flags flow ⟨false, false, false⟩) tail := by
  rcases List.nodup_cons.mp consistent.nodup with ⟨fresh, nodup⟩
  apply consistent.update nodup
  · intro other different
    simp [different]
  · intro other different current
    rw [consistent.current_eq_false different] at current
    cases current
  · simp [fresh]
  · rfl
  · simp

end Consistent

end MqEcn.Library.ActiveRing
