import Mathlib.Data.List.MinMax

/-!
Contract: the search of a list for its first answer, and for an earliest item by a running
candidate.

Owns: the item at which the scan of a sorted list stops, and the lowest item of a sorted list
with the least rank; where the item a search by a running
candidate ends with comes from, the search under a
second comparison that agrees with the first on what it meets, and the search that
passes over some of the items. A comparison that is no order on all items can be an
order on these.

Does not own: the search itself, which is that of `List.argmin`.
-/

set_option autoImplicit false

namespace MqEcn.Library.Selection

variable {Item : Type} {earlier earlier' : Item → Item → Prop} [DecidableRel earlier]
  [DecidableRel earlier']

/-- The search ends with the candidate it starts from or with a listed item. -/
theorem mem_of_mem_foldl {items : List Item} {best : Option Item} {item : Item}
    (found : item ∈ items.foldl (List.argAux earlier) best) : item ∈ best ∨ item ∈ items := by
  induction items generalizing best with
  | nil => exact Or.inl found
  | cons head tail inductionHypothesis =>
      rw [List.foldl_cons] at found
      rcases inductionHypothesis found with inside | inside
      · cases best with
        | none =>
            obtain rfl : head = item := Option.some.inj inside
            exact Or.inr List.mem_cons_self
        | some old =>
            simp only [List.argAux] at inside
            split at inside
            · obtain rfl : head = item := Option.some.inj inside
              exact Or.inr List.mem_cons_self
            · exact Or.inl inside
      · exact Or.inr (List.mem_cons_of_mem _ inside)

/-- The search depends on the comparisons of what it meets only. -/
theorem foldl_congr {items : List Item} {best : Option Item}
    (agree : ∀ item ∈ items, ∀ other, other ∈ best ∨ other ∈ items →
      (earlier item other ↔ earlier' item other)) :
    items.foldl (List.argAux earlier) best = items.foldl (List.argAux earlier') best := by
  induction items generalizing best with
  | nil => rfl
  | cons head tail inductionHypothesis =>
      have same : List.argAux earlier best head = List.argAux earlier' best head := by
        cases best with
        | none => rfl
        | some old =>
            have compare := agree head List.mem_cons_self old (Or.inl rfl)
            simp only [List.argAux, compare]
      rw [List.foldl_cons, List.foldl_cons, same]
      apply inductionHypothesis
      intro item member other isOther
      apply agree item (List.mem_cons_of_mem _ member)
      rcases isOther with isBest | inside
      · have single : other ∈ [head].foldl (List.argAux earlier') best := isBest
        rcases mem_of_mem_foldl single with old | new
        · exact Or.inl old
        · exact Or.inr (List.mem_cons.mpr (Or.inl (List.mem_singleton.mp new)))
      · exact Or.inr (List.mem_cons_of_mem _ inside)

/-! ### Passing over items -/

section Scan

variable {kept : Item → Prop} [DecidablePred kept] {items : List Item} {best item : Item}

/-- One item of a search that passes over the items it does not keep. -/
def scanStep (kept : Item → Prop) [DecidablePred kept] (earlier : Item → Item → Prop)
    [DecidableRel earlier] (best : Option Item) (item : Item) : Option Item :=
  if kept item then List.argAux earlier best item else best

/-- It is the search of the items it keeps. -/
theorem foldl_scanStep (items : List Item) (best : Option Item) :
    items.foldl (scanStep kept earlier) best =
      (items.filter fun item => decide (kept item)).foldl (List.argAux earlier) best := by
  rw [List.foldl_filter]
  congr 1
  funext best item
  simp only [scanStep, decide_eq_true_eq]

/-- The search depends on which items it keeps, and on the comparisons of these only. -/
theorem scan_congr {kept' : Item → Prop} [DecidablePred kept']
    (same : ∀ item ∈ items, kept item ↔ kept' item)
    (agree : ∀ item ∈ items, ∀ other ∈ items, kept item → kept other →
      (earlier item other ↔ earlier' item other)) :
    items.foldl (scanStep kept earlier) none = items.foldl (scanStep kept' earlier') none := by
  have sameItems : (items.filter fun item => decide (kept item)) =
      items.filter fun item => decide (kept' item) :=
    List.filter_congr fun item member => decide_eq_decide.mpr (same item member)
  rw [foldl_scanStep, foldl_scanStep, ← sameItems]
  apply foldl_congr
  intro item member other isOther
  rcases isOther with nothing | inside
  · cases nothing
  · simp only [List.mem_filter, decide_eq_true_eq] at member inside
    exact agree item member.1 other inside.1 member.2 inside.2

theorem kept_of_scan (found : items.foldl (scanStep kept earlier) none = some best) :
    best ∈ items ∧ kept best := by
  rw [foldl_scanStep] at found
  rcases mem_of_mem_foldl found with nothing | member
  · cases nothing
  · simpa using member

/-- The search ends with an item as soon as one is kept. -/
theorem scan_isSome (member : item ∈ items) (isKept : kept item) :
    (items.foldl (scanStep kept earlier) none).isSome := by
  rw [Option.isSome_iff_ne_none, foldl_scanStep, ne_eq, List.foldl_argAux_eq_none, not_and_or]
  refine Or.inl (List.ne_nil_of_mem (List.mem_filter.mpr ⟨member, ?_⟩))
  simpa using isKept

/-- Where the kept items compare as their ranks do, it is the search for a least rank. -/
theorem foldl_scanStep_eq_argmin {Rank : Type} [LinearOrder Rank] {rank : Item → Rank}
    (ordered : ∀ i ∈ items, ∀ j ∈ items, kept i → kept j → (earlier i j ↔ rank i < rank j)) :
    items.foldl (scanStep kept earlier) none =
      (items.filter fun item => decide (kept item)).argmin rank := by
  rw [foldl_scanStep]
  apply foldl_congr
  intro i member j isOther
  rcases isOther with nothing | inside
  · cases nothing
  · simp only [List.mem_filter, decide_eq_true_eq] at member inside
    exact ordered i member.1 j inside.1 member.2 inside.2

theorem rank_le_of_scan {Rank : Type} [LinearOrder Rank] {rank : Item → Rank}
    (ordered : ∀ i ∈ items, ∀ j ∈ items, kept i → kept j → (earlier i j ↔ rank i < rank j))
    (found : items.foldl (scanStep kept earlier) none = some best) (member : item ∈ items)
    (isKept : kept item) : rank best ≤ rank item := by
  rw [foldl_scanStep_eq_argmin ordered] at found
  apply List.le_of_mem_argmin _ found
  simpa using ⟨member, isKept⟩

end Scan

/-! ### Scans of a sorted list -/

section

variable {Answer : Type} [Preorder Item] {items before after : List Item} {item other : Item}
  {ask : Item → Option Answer} {answer : Answer} {test : Item → Bool}

/-- In a sorted list, what comes before an item is what is below it. -/
theorem mem_before_iff_lt (sorted : items.Pairwise (· < ·))
    (split : items = before ++ item :: after) (listed : other ∈ items) :
    other ∈ before ↔ other < item := by
  rw [split, List.pairwise_append] at sorted
  constructor
  · intro inside
    exact sorted.2.2 other inside item List.mem_cons_self
  · intro lower
    rw [split, List.mem_append, List.mem_cons] at listed
    rcases listed with inside | rfl | behind
    · exact inside
    · exact absurd lower (lt_irrefl _)
    · have above := (List.pairwise_cons.mp sorted.2.1).1 other behind
      exact absurd (lower.trans above) (lt_irrefl _)

/-- In a sorted list the item with the least rank is the lowest of those that have it. -/
theorem lt_of_mem_argmin_of_sorted {Rank : Type} [LinearOrder Rank] [DecidableEq Item]
    {rank : Item → Rank} (sorted : items.Pairwise (· < ·)) (found : item ∈ items.argmin rank)
    (listed : other ∈ items) (lower : other < item) : rank item < rank other := by
  by_contra notLess
  have order := List.index_of_argmin found listed (not_lt.mp notLess)
  obtain ⟨before, after, split⟩ := List.append_of_mem (List.argmin_mem found)
  have inside : other ∈ before := (mem_before_iff_lt sorted split listed).mpr lower
  have outside : item ∉ before := fun again =>
    lt_irrefl item ((mem_before_iff_lt sorted split (List.argmin_mem found)).mp again)
  rw [split, List.idxOf_append_of_notMem outside, List.idxOf_append_of_mem inside] at order
  have early := List.idxOf_lt_length_of_mem inside
  omega

/-- A scan for an answer ends with that of the first item that has one. -/
theorem findSome?_eq_some_iff_of_sorted (sorted : items.Pairwise (· < ·)) :
    items.findSome? ask = some answer ↔
      ∃ item ∈ items, ask item = some answer ∧
        ∀ other ∈ items, other < item → ask other = none := by
  rw [List.findSome?_eq_some_iff]
  constructor
  · rintro ⟨before, item, after, split, answers, silent⟩
    refine ⟨item, ?_, answers, fun other listed lower => ?_⟩
    · rw [split]
      exact List.mem_append_right _ List.mem_cons_self
    · exact silent other ((mem_before_iff_lt sorted split listed).mpr lower)
  · rintro ⟨item, listed, answers, silent⟩
    obtain ⟨before, after, split⟩ := List.append_of_mem listed
    refine ⟨before, item, after, split, answers, fun other inside => ?_⟩
    have isListed : other ∈ items := by
      rw [split]
      exact List.mem_append_left _ inside
    exact silent other isListed ((mem_before_iff_lt sorted split isListed).mp inside)

/-- A scan stops at the first item that passes the test. -/
theorem find?_eq_some_iff_of_sorted (sorted : items.Pairwise (· < ·)) :
    items.find? test = some item ↔
      item ∈ items ∧ test item = true ∧ ∀ other ∈ items, other < item → test other = false := by
  rw [List.find?_eq_findSome?_guard, findSome?_eq_some_iff_of_sorted sorted]
  simp only [Option.guard_eq_some_iff, Option.guard_eq_none_iff]
  constructor
  · rintro ⟨found, listed, ⟨rfl, passes⟩, earlier⟩
    exact ⟨listed, passes, earlier⟩
  · rintro ⟨listed, passes, earlier⟩
    exact ⟨item, listed, ⟨rfl, passes⟩, earlier⟩

end

end MqEcn.Library.Selection
