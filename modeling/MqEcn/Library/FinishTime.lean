import Mathlib.Algebra.Order.BigOperators.Group.Finset
import Mathlib.Algebra.Order.Group.Abs
import Mathlib.Data.Fintype.BigOperators
import Mathlib.Tactic.Abel
import Mathlib.Tactic.Linarith
import MqEcn.Library.Transition

/-!
Contract: schedulers that serve the flow with the least finish tag.

Owns: the abstract scheduler (the backlogged flows, one finish tag a flow and the
virtual clock), its moves, the chained-gap invariant that bounds how far the tags
lie below the clock, and the fairness that follows for two flows that stay
backlogged.

Does not own: packets, weights, or the number format of the tags: they range over
any linearly ordered additive group, so that machine integers and rationals are
both instances.
-/

set_option autoImplicit false

namespace MqEcn.Library.FinishTime

open Finset
open MqEcn.Library.Transition

variable {Flow Time : Type} [DecidableEq Flow]

/-- The backlogged flows, the finish tag of each flow's head, and the virtual
clock. -/
structure State (Flow Time : Type) where
  backlogged : Finset Flow
  finish : Flow → Time
  clock : Time

/-- What the scheduler can do. -/
inductive Move (Flow Time : Type) where
  /-- A flow becomes backlogged; its head is stamped past the clock. -/
  | activate (flow : Flow) (increment : Time)
  /-- The served flow stays backlogged; its next head is stamped. -/
  | advance (flow : Flow) (increment : Time)
  /-- The served flow has nothing left. -/
  | retire (flow : Flow)

section Scheduler

variable [AddCommGroup Time] [LinearOrder Time] [IsOrderedAddMonoid Time]

/-- The flow's tag is the least of the backlogged flows' tags. -/
def Least (state : State Flow Time) (flow : Flow) : Prop :=
  flow ∈ state.backlogged ∧
    ∀ other ∈ state.backlogged, state.finish flow ≤ state.finish other

/-- One move. Increments are positive and at most the flow's width. -/
inductive Step (width : Flow → Time) : State Flow Time → Move Flow Time → State Flow Time → Prop
  | activate {state : State Flow Time} {flow : Flow} {increment : Time}
      (fresh : flow ∉ state.backlogged) (positive : 0 < increment)
      (bounded : increment ≤ width flow) :
      Step width state (.activate flow increment)
        ⟨insert flow state.backlogged,
          Function.update state.finish flow (state.clock + increment),
          state.clock + increment⟩
  | advance {state : State Flow Time} {flow : Flow} {increment : Time}
      (least : Least state flow) (positive : 0 < increment)
      (bounded : increment ≤ width flow) :
      Step width state (.advance flow increment)
        ⟨state.backlogged,
          Function.update state.finish flow (state.finish flow + increment),
          max state.clock (state.finish flow + increment)⟩
  | retire {state : State Flow Time} {flow : Flow} (least : Least state flow) :
      Step width state (.retire flow)
        ⟨state.backlogged.erase flow, state.finish, state.clock⟩

/-- The chained-gap invariant. The clock is the greatest tag, and above the least
tag every level lies below the clock by at most the widths of the flows whose tag
exceeds it. -/
structure Chained (width : Flow → Time) (state : State Flow Time) : Prop where
  attained : state.backlogged.Nonempty → ∃ flow ∈ state.backlogged, state.finish flow = state.clock
  greatest : ∀ flow ∈ state.backlogged, state.finish flow ≤ state.clock
  gap : ∀ level, (∃ flow ∈ state.backlogged, state.finish flow ≤ level) →
    state.clock - level ≤ ∑ flow ∈ state.backlogged with level < state.finish flow, width flow

variable {width : Flow → Time}

omit [DecidableEq Flow] [IsOrderedAddMonoid Time] in
theorem chained_of_idle {state : State Flow Time} (idle : state.backlogged = ∅) :
    Chained width state where
  attained := fun nonempty => by simp [idle] at nonempty
  greatest := fun flow member => by simp [idle] at member
  gap := fun level ⟨flow, member, _⟩ => by simp [idle] at member

omit [DecidableEq Flow] in
private theorem sum_width_mono (nonneg : ∀ flow, 0 ≤ width flow) {small large : Finset Flow}
    (subset : small ⊆ large) : ∑ flow ∈ small, width flow ≤ ∑ flow ∈ large, width flow :=
  sum_le_sum_of_subset_of_nonneg subset fun flow _ _ => nonneg flow

omit [DecidableEq Flow] in
private theorem sub_le_sum_width (nonneg : ∀ flow, 0 ≤ width flow) {time level : Time}
    (reached : time ≤ level) (flows : Finset Flow) : time - level ≤ ∑ flow ∈ flows, width flow := by
  calc time - level ≤ 0 := sub_nonpos.mpr reached
    _ ≤ _ := sum_nonneg fun flow _ => nonneg flow

/-- Activation stamps past the clock, so the new gap is the new flow's own. -/
theorem Chained.activate (nonneg : ∀ flow, 0 ≤ width flow) {state : State Flow Time}
    {flow : Flow} {increment : Time} (chained : Chained width state)
    (fresh : flow ∉ state.backlogged) (positive : 0 < increment)
    (bounded : increment ≤ width flow) :
    Chained width ⟨insert flow state.backlogged,
      Function.update state.finish flow (state.clock + increment), state.clock + increment⟩ where
  attained := fun _ => ⟨flow, mem_insert_self _ _, Function.update_self _ _ _⟩
  greatest := by
    intro other member
    simp only [mem_insert] at member
    by_cases same : other = flow
    · subst same
      simp
    · simp only [Function.update_of_ne same]
      have below := chained.greatest other (member.resolve_left same)
      exact below.trans (le_add_of_nonneg_right positive.le)
  gap := by
    intro level reaches
    obtain ⟨lowest, member, below⟩ := reaches
    simp only [mem_insert] at member
    by_cases reached : state.clock + increment ≤ level
    · exact sub_le_sum_width nonneg reached _
    · have above : level < state.clock + increment := not_le.mp reached
      -- the new flow is above the level, the old ones above it are still counted
      have inserted : insert flow {other ∈ state.backlogged | level < state.finish other} ⊆
          {other ∈ insert flow state.backlogged |
            level < Function.update state.finish flow (state.clock + increment) other} := by
        intro other inside
        simp only [mem_insert, mem_filter] at inside ⊢
        rcases inside with rfl | ⟨old, high⟩
        · exact ⟨Or.inl rfl, by simpa using above⟩
        · have different : other ≠ flow := fun equal => fresh (equal ▸ old)
          exact ⟨Or.inr old, by simpa [Function.update_of_ne different] using high⟩
      apply le_trans _ (sum_width_mono nonneg inserted)
      rw [sum_insert (by simp [fresh])]
      have different : lowest ≠ flow := by
        rintro rfl
        simp only [Function.update_self] at below
        exact reached below
      have old : lowest ∈ state.backlogged := member.resolve_left different
      have gap := chained.gap level
        ⟨lowest, old, by simpa [Function.update_of_ne different] using below⟩
      calc state.clock + increment - level = increment + (state.clock - level) := by abel
        _ ≤ width flow + _ := add_le_add bounded gap

/-- Serving moves only the least tag: every gap it opens above the level is its
own. -/
theorem Chained.advance (nonneg : ∀ flow, 0 ≤ width flow) {state : State Flow Time}
    {flow : Flow} {increment : Time} (chained : Chained width state)
    (least : Least state flow) (positive : 0 < increment) (bounded : increment ≤ width flow) :
    Chained width ⟨state.backlogged,
      Function.update state.finish flow (state.finish flow + increment),
      max state.clock (state.finish flow + increment)⟩ where
  attained := by
    intro _
    rcases le_total state.clock (state.finish flow + increment) with overtakes | behind
    · exact ⟨flow, least.1, by simp [max_eq_right overtakes]⟩
    · obtain ⟨top, member, equal⟩ := chained.attained ⟨flow, least.1⟩
      have different : top ≠ flow := by
        rintro rfl
        rw [equal] at behind
        exact absurd behind (not_le.mpr (lt_add_of_pos_right _ positive))
      exact ⟨top, member, by simp [Function.update_of_ne different, max_eq_left behind, equal]⟩
  greatest := by
    intro other member
    by_cases same : other = flow
    · subst same
      simp
    · simp only [Function.update_of_ne same]
      exact (chained.greatest other member).trans (le_max_left _ _)
  gap := by
    intro level reaches
    obtain ⟨lowest, member, below⟩ := reaches
    have floor : state.finish flow ≤ level := by
      by_cases same : lowest = flow
      · subst same
        simp only [Function.update_self] at below
        exact (le_add_of_nonneg_right positive.le).trans below
      · simp only [Function.update_of_ne same] at below
        exact (least.2 lowest member).trans below
    -- the served flow was not above the level, so no counted flow is lost
    have kept : {other ∈ state.backlogged | level < state.finish other} ⊆
        {other ∈ state.backlogged |
          level < Function.update state.finish flow (state.finish flow + increment) other} := by
      intro other inside
      simp only [mem_filter] at inside ⊢
      have different : other ≠ flow := by
        rintro rfl
        exact absurd floor (not_le.mpr inside.2)
      exact ⟨inside.1, by simpa [Function.update_of_ne different] using inside.2⟩
    have old := (chained.gap level ⟨flow, least.1, floor⟩).trans (sum_width_mono nonneg kept)
    rw [sub_le_iff_le_add, max_le_iff, ← sub_le_iff_le_add, ← sub_le_iff_le_add]
    refine ⟨old, ?_⟩
    by_cases reached : state.finish flow + increment ≤ level
    · exact sub_le_sum_width nonneg reached _
    · have above : level < state.finish flow + increment := not_le.mp reached
      have counted : flow ∈ {other ∈ state.backlogged |
          level < Function.update state.finish flow (state.finish flow + increment) other} := by
        simp [least.1, above]
      calc state.finish flow + increment - level
          = increment + (state.finish flow - level) := by abel
        _ ≤ width flow + 0 := add_le_add bounded (sub_nonpos.mpr floor)
        _ = width flow := add_zero _
        _ ≤ _ := single_le_sum (f := width) (fun other _ => nonneg other) counted

omit [IsOrderedAddMonoid Time] in
/-- Dropping the least tag loses no flow above a level the others reach. -/
theorem Chained.retire {state : State Flow Time} {flow : Flow} (chained : Chained width state)
    (least : Least state flow) :
    Chained width ⟨state.backlogged.erase flow, state.finish, state.clock⟩ where
  attained := by
    rintro ⟨other, inside⟩
    obtain ⟨top, member, equal⟩ := chained.attained ⟨flow, least.1⟩
    by_cases same : top = flow
    · subst same
      -- the least tag was the clock, so every tag is the clock
      refine ⟨other, inside, le_antisymm ?_ ?_⟩
      · exact chained.greatest other (mem_of_mem_erase inside)
      · rw [← equal]
        exact least.2 other (mem_of_mem_erase inside)
    · exact ⟨top, mem_erase.mpr ⟨same, member⟩, equal⟩
  greatest := fun other inside => chained.greatest other (mem_of_mem_erase inside)
  gap := by
    intro level reaches
    obtain ⟨lowest, inside, below⟩ := reaches
    have floor : state.finish flow ≤ level :=
      (least.2 lowest (mem_of_mem_erase inside)).trans below
    have unchanged : {other ∈ state.backlogged.erase flow | level < state.finish other} =
        {other ∈ state.backlogged | level < state.finish other} := by
      ext other
      simp only [mem_filter, mem_erase]
      constructor
      · intro inside
        exact ⟨inside.1.2, inside.2⟩
      · intro inside
        have above : state.finish flow < state.finish other := floor.trans_lt inside.2
        exact ⟨⟨fun equal => absurd above (by simp [equal]), inside.1⟩, inside.2⟩
    rw [unchanged]
    exact chained.gap level ⟨flow, least.1, floor⟩

private theorem Chained.step (nonneg : ∀ flow, 0 ≤ width flow) {first last : State Flow Time}
    {move : Move Flow Time} (step : Step width first move last)
    (chained : Chained width first) : Chained width last := by
  cases step with
  | activate fresh positive bounded => exact chained.activate nonneg fresh positive bounded
  | advance least positive bounded => exact chained.advance nonneg least positive bounded
  | retire least => exact chained.retire least

theorem Chained.run (nonneg : ∀ flow, 0 ≤ width flow) {first last : State Flow Time}
    {moves : List (Move Flow Time)} (chained : Chained width first)
    (run : Run (Step width) first moves last) : Chained width last :=
  run.preserves (Chained width) (fun step => Chained.step nonneg step) chained

/-- No backlogged tag lies below the clock by more than the other flows' widths. -/
theorem Chained.clock_sub_finish_le (nonneg : ∀ flow, 0 ≤ width flow)
    {state : State Flow Time} {flow : Flow} (chained : Chained width state)
    (member : flow ∈ state.backlogged) :
    state.clock - state.finish flow ≤ ∑ other ∈ state.backlogged.erase flow, width other := by
  apply (chained.gap (state.finish flow) ⟨flow, member, le_rfl⟩).trans
  apply sum_width_mono nonneg
  intro other inside
  simp only [mem_filter] at inside
  exact mem_erase.mpr ⟨fun equal => absurd inside.2 (by simp [equal]), inside.1⟩

/-! ### Fairness -/

/-- What a list of moves adds to one flow's tag while the flow stays backlogged. -/
def advanced (flow : Flow) : List (Move Flow Time) → Time
  | [] => 0
  | .advance served increment :: rest =>
      (if served = flow then increment else 0) + advanced flow rest
  | _ :: rest => advanced flow rest

omit [LinearOrder Time] [IsOrderedAddMonoid Time] in
@[simp] theorem advanced_append (flow : Flow) (left right : List (Move Flow Time)) :
    advanced flow (left ++ right) = advanced flow left + advanced flow right := by
  induction left with
  | nil => simp [advanced]
  | cons head tail inductionHypothesis =>
      cases head <;> simp [advanced, inductionHypothesis, add_assoc]

omit [IsOrderedAddMonoid Time] in
/-- A flow is backlogged until it retires, and its tag is what it had plus what it
advanced. -/
theorem finish_eq_add_advanced {first last : State Flow Time} {moves : List (Move Flow Time)}
    {flow : Flow} (run : Run (Step width) first moves last)
    (member : flow ∈ first.backlogged) (stays : .retire flow ∉ moves) :
    flow ∈ last.backlogged ∧ last.finish flow = first.finish flow + advanced flow moves := by
  induction run with
  | nil => exact ⟨member, by simp [advanced]⟩
  | cons head tail inductionHypothesis =>
      simp only [List.mem_cons, not_or] at stays
      cases head with
      | @activate joining increment fresh positive bounded =>
          have different : flow ≠ joining := fun equal => fresh (equal ▸ member)
          have after := inductionHypothesis (mem_insert_of_mem member) stays.2
          simpa [advanced, Function.update_of_ne different] using after
      | @advance served increment least positive bounded =>
          have after := inductionHypothesis member stays.2
          refine ⟨after.1, ?_⟩
          rw [after.2]
          by_cases same : served = flow
          · subst same
            simp [advanced, add_assoc]
          · simp [advanced, same, Function.update_of_ne (Ne.symm same)]
      | @retire served least =>
          have different : flow ≠ served := fun equal => stays.1 (by rw [equal])
          have after := inductionHypothesis (mem_erase.mpr ⟨different, member⟩) stays.2
          simpa [advanced] using after

variable [Fintype Flow]

/-- The tags of two backlogged flows differ by at most the sum of the widths. -/
theorem Chained.abs_finish_sub_le (nonneg : ∀ flow, 0 ≤ width flow) {state : State Flow Time}
    {left right : Flow} (chained : Chained width state)
    (leftMember : left ∈ state.backlogged) (rightMember : right ∈ state.backlogged) :
    |state.finish left - state.finish right| ≤ ∑ flow, width flow := by
  have below : ∀ flow ∈ state.backlogged,
      state.clock - state.finish flow ≤ ∑ flow, width flow := fun flow member =>
    (chained.clock_sub_finish_le nonneg member).trans
      (sum_width_mono nonneg (subset_univ _))
  rw [abs_sub_le_iff]
  constructor
  · calc state.finish left - state.finish right
        ≤ state.clock - state.finish right :=
          sub_le_sub_right (chained.greatest left leftMember) _
      _ ≤ _ := below right rightMember
  · calc state.finish right - state.finish left
        ≤ state.clock - state.finish left :=
          sub_le_sub_right (chained.greatest right rightMember) _
      _ ≤ _ := below left leftMember

/-- **Fairness.** While two flows stay backlogged, their tags advance by amounts
that differ by at most twice the sum of the widths, however long the run. -/
theorem abs_advanced_sub_le (nonneg : ∀ flow, 0 ≤ width flow) {first last : State Flow Time}
    {moves : List (Move Flow Time)} {left right : Flow}
    (run : Run (Step width) first moves last)
    (before : Chained width first) (after : Chained width last)
    (leftMember : left ∈ first.backlogged) (rightMember : right ∈ first.backlogged)
    (leftStays : .retire left ∉ moves)
    (rightStays : .retire right ∉ moves) :
    |advanced left moves - advanced right moves| ≤
      ∑ flow, width flow + ∑ flow, width flow := by
  obtain ⟨leftMember', leftFinish⟩ := finish_eq_add_advanced run leftMember leftStays
  obtain ⟨rightMember', rightFinish⟩ := finish_eq_add_advanced run rightMember rightStays
  have start := before.abs_finish_sub_le nonneg leftMember rightMember
  have finish := after.abs_finish_sub_le nonneg leftMember' rightMember'
  have split : advanced left moves - advanced right moves =
      (last.finish left - last.finish right) - (first.finish left - first.finish right) := by
    rw [leftFinish, rightFinish]
    abel
  rw [split]
  exact (abs_sub _ _).trans (add_le_add finish start)

/-- A quantity in `[0, width]` changes by at most `width`. -/
private theorem abs_sub_le_width {before after bound : Time}
    (beforeRange : 0 ≤ before ∧ before ≤ bound)
    (afterRange : 0 ≤ after ∧ after ≤ bound) : |before - after| ≤ bound := by
  rw [abs_sub_le_iff]
  constructor
  · exact (sub_le_self _ afterRange.1).trans beforeRange.2
  · exact (sub_le_self _ beforeRange.1).trans afterRange.2

/-- **Fairness of what is sent.** Where a tag advances by what its flow sends, up to the
head that waits at either end, two flows that stay backlogged send amounts that differ by
at most twice the sum of the widths and their own two. -/
theorem abs_sent_sub_le (nonneg : ∀ flow, 0 ≤ width flow) {first last : State Flow Time}
    {moves : List (Move Flow Time)} {left right : Flow}
    (run : Run (Step width) first moves last)
    (before : Chained width first) (after : Chained width last)
    (members : ∀ flow, flow = left ∨ flow = right → flow ∈ first.backlogged)
    (stays : ∀ flow, flow = left ∨ flow = right → .retire flow ∉ moves)
    {sent head head' : Flow → Time}
    (accounts : ∀ flow, flow = left ∨ flow = right →
      advanced flow moves + head flow = sent flow + head' flow)
    (headRange : ∀ flow, flow = left ∨ flow = right → 0 ≤ head flow ∧ head flow ≤ width flow)
    (headRange' : ∀ flow, flow = left ∨ flow = right → 0 ≤ head' flow ∧ head' flow ≤ width flow) :
    |sent left - sent right| ≤
      ∑ flow, width flow + ∑ flow, width flow + width left + width right := by
  have isLeft : left = left ∨ left = right := Or.inl rfl
  have isRight : right = left ∨ right = right := Or.inr rfl
  have fair := abs_advanced_sub_le nonneg run before after (members left isLeft)
    (members right isRight) (stays left isLeft) (stays right isRight)
  have leftHead := abs_sub_le_width (headRange left isLeft) (headRange' left isLeft)
  have rightHead := abs_sub_le_width (headRange' right isRight) (headRange right isRight)
  have split : sent left - sent right =
      (advanced left moves - advanced right moves) + (head left - head' left) +
        (head' right - head right) := by
    have leftSent := eq_sub_of_add_eq (accounts left isLeft).symm
    have rightSent := eq_sub_of_add_eq (accounts right isRight).symm
    rw [leftSent, rightSent]
    abel
  rw [split]
  calc |(advanced left moves - advanced right moves) + (head left - head' left) +
          (head' right - head right)|
      ≤ |(advanced left moves - advanced right moves) + (head left - head' left)| +
          |head' right - head right| := abs_add_le _ _
    _ ≤ |advanced left moves - advanced right moves| + |head left - head' left| +
          |head' right - head right| := add_le_add_left (abs_add_le _ _) _
    _ ≤ _ := add_le_add (add_le_add fair leftHead) rightHead

end Scheduler

end MqEcn.Library.FinishTime
