import Mathlib.Algebra.Order.Ring.Int
import Mathlib.Tactic.Linarith
import Mathlib.Tactic.SplitIfs
import MqEcn.Library.Transition

/-!
Contract: a token bucket that bounds the refill and the leftover apart.

Owns: the bucket that credits at most one capacity for the time elapsed, adds it
to at most one capacity carried over, and spends from the sum; the range of the
carried tokens; the exact condition under which waiting makes a spending
affordable, and the time from which it is; the conformance bound over every time
window, two capacities plus the length of the window; and its use for a system that
spends from a bucket as it runs.

Does not own: what is spent, or the conversion of sizes to time.
-/

set_option autoImplicit false

namespace MqEcn.Library.TokenBucket

/-- Carried tokens and the time they were last brought up to date. -/
structure Bucket where
  tokens : Int
  time : Int
deriving DecidableEq

/-- Tokens left over if `cost` were spent at `now`. -/
def remaining (capacity : Int) (bucket : Bucket) (now cost : Int) : Int :=
  min (now - bucket.time) capacity + bucket.tokens - cost

/-- The bucket after spending `cost` at `now`. -/
def spend (capacity : Int) (bucket : Bucket) (now cost : Int) : Bucket :=
  ⟨min (remaining capacity bucket now cost) capacity, now⟩

/-- Spendings, with their times, that a bucket allows one after the other. -/
inductive Spends (capacity : Int) : Bucket → List (Int × Int) → Prop
  | nil (bucket : Bucket) : Spends capacity bucket []
  | cons {bucket : Bucket} {now cost : Int} {rest : List (Int × Int)}
      (later : bucket.time ≤ now)
      (affordable : 0 ≤ remaining capacity bucket now cost)
      (tail : Spends capacity (spend capacity bucket now cost) rest) :
      Spends capacity bucket ((now, cost) :: rest)

/-- Total cost of the spendings at times in the closed window. -/
def spentWithin (opens closes : Int) : List (Int × Int) → Int
  | [] => 0
  | (now, cost) :: rest =>
      (if opens ≤ now ∧ now ≤ closes then cost else 0) + spentWithin opens closes rest

variable {capacity : Int}

private theorem spend_tokens_range (nonneg : 0 ≤ capacity) {bucket : Bucket} {now cost : Int}
    (affordable : 0 ≤ remaining capacity bucket now cost) :
    0 ≤ (spend capacity bucket now cost).tokens ∧
      (spend capacity bucket now cost).tokens ≤ capacity := by
  simp only [spend]
  omega

/-- Waiting makes a cost affordable exactly when the carried tokens and one
capacity cover it. -/
theorem affordable_iff (bucket : Bucket) (earliest cost : Int) :
    (∃ now, earliest ≤ now ∧ 0 ≤ remaining capacity bucket now cost) ↔
      cost ≤ bucket.tokens + capacity := by
  constructor
  · intro waited
    obtain ⟨now, _, enough⟩ := waited
    unfold remaining at enough
    omega
  · intro covered
    have enough : 0 ≤ remaining capacity bucket (max earliest (bucket.time + capacity)) cost := by
      unfold remaining
      omega
    exact ⟨_, le_max_left _ _, enough⟩

/-- The time a cost is saved up for, counted from the last spending. -/
def due (bucket : Bucket) (cost : Int) : Int := bucket.time + cost - bucket.tokens

/-- A cost within one capacity is affordable from the time it is due. -/
theorem remaining_nonneg_iff {bucket : Bucket} {now cost : Int} (tokens : 0 ≤ bucket.tokens)
    (covered : cost ≤ capacity) :
    0 ≤ remaining capacity bucket now cost ↔ due bucket cost ≤ now := by
  unfold remaining due
  omega

/-- What is missing for a cost within one capacity is the time until it is due. -/
theorem sub_remaining_eq_due {bucket : Bucket} {now cost : Int} (tokens : 0 ≤ bucket.tokens)
    (covered : cost ≤ capacity) (short : remaining capacity bucket now cost < 0) :
    now - remaining capacity bucket now cost = due bucket cost := by
  unfold remaining at short ⊢
  unfold due
  omega

/-- The tokens in the bucket at `now`. -/
def level (capacity : Int) (bucket : Bucket) (now : Int) : Int :=
  min (now - bucket.time) capacity + bucket.tokens

section

variable {bucket : Bucket} {now cost : Int}

/-- They cover a cost within one capacity from the time it is due; before, what is missing
is the time until then. -/
theorem level_lt_iff (tokens : 0 ≤ bucket.tokens) (covered : cost ≤ capacity) :
    (level capacity bucket now < cost ↔ now < due bucket cost) ∧
      (level capacity bucket now < cost →
        now + cost - level capacity bucket now = due bucket cost) := by
  unfold level due
  omega

/-- They are above a smaller cost only after it is due. -/
theorem level_le_iff (tokens : 0 ≤ bucket.tokens) (covered : cost < capacity) :
    (level capacity bucket now ≤ cost ↔ now ≤ due bucket cost) ∧
      (level capacity bucket now ≤ cost →
        now + cost - level capacity bucket now = due bucket cost) := by
  unfold level due
  omega

/-- A timer armed for the time the missing tokens take: before it the same tokens are missing
for the same time, and from it on none are. -/
theorem level_timer (tokens : 0 ≤ bucket.tokens) (covered : cost ≤ capacity)
    (short : level capacity bucket now < cost) {expires : Int}
    (armed : now - (level capacity bucket now - cost) = expires) (t : Int) :
    (t < expires → level capacity bucket t < cost ∧
        t - (level capacity bucket t - cost) = expires) ∧
      (expires ≤ t → cost ≤ level capacity bucket t) := by
  have first := (@level_lt_iff capacity bucket now cost tokens covered).2 short
  obtain ⟨missing, wait⟩ := @level_lt_iff capacity bucket t cost tokens covered
  constructor
  · intro early
    have again := missing.mpr (by omega)
    have same := wait again
    exact ⟨again, by omega⟩
  · intro late
    exact not_lt.mp fun again => absurd (missing.mp again) (by omega)

/-- The same timer where a cost takes more tokens than it has: at the time it is armed for the
tokens are still not enough. -/
theorem level_timer_strict (tokens : 0 ≤ bucket.tokens) (covered : cost < capacity)
    (short : level capacity bucket now ≤ cost) {expires : Int}
    (armed : now + cost - level capacity bucket now = expires) (t : Int) :
    (t ≤ expires → level capacity bucket t ≤ cost ∧
        t + cost - level capacity bucket t = expires) ∧
      (expires < t → cost < level capacity bucket t) := by
  have first := (@level_le_iff capacity bucket now cost tokens covered).2 short
  obtain ⟨missing, wait⟩ := @level_le_iff capacity bucket t cost tokens covered
  constructor
  · intro early
    have again := missing.mpr (by omega)
    exact ⟨again, (wait again).trans (first.symm.trans armed)⟩
  · intro late
    exact not_le.mp fun again => absurd (missing.mp again) (by omega)

end

/-- What a window can still see spent: nothing once it is over, the carried
tokens and the time left while it is open, two capacities and its whole length
before it opens. -/
def windowBound (capacity opens closes : Int) (bucket : Bucket) : Int :=
  if closes < bucket.time then 0
  else if opens ≤ bucket.time then bucket.tokens + (closes - bucket.time)
  else 2 * capacity + (closes - opens)

private theorem windowBound_nonneg {opens closes : Int} (ordered : opens ≤ closes)
    (nonneg : 0 ≤ capacity) {bucket : Bucket} (tokens : 0 ≤ bucket.tokens) :
    0 ≤ windowBound capacity opens closes bucket := by
  unfold windowBound
  split_ifs <;> omega

/-- One spending uses up what it takes from the window. -/
theorem windowBound_spend {opens closes : Int} (ordered : opens ≤ closes) (nonneg : 0 ≤ capacity)
    {bucket : Bucket} {now : Int} (cost : Int) (later : bucket.time ≤ now)
    (tokens : bucket.tokens ≤ capacity) (tokensNonneg : 0 ≤ bucket.tokens) :
    (if opens ≤ now ∧ now ≤ closes then cost else 0) +
        windowBound capacity opens closes (spend capacity bucket now cost) ≤
      windowBound capacity opens closes bucket := by
  unfold windowBound spend
  unfold remaining
  simp only
  by_cases ended : closes < now
  · rw [if_neg (by omega), if_pos ended]
    split_ifs <;> omega
  · by_cases opened : opens ≤ now
    · rw [if_pos ⟨opened, by omega⟩, if_neg ended, if_pos opened, if_neg (by omega)]
      split_ifs <;> omega
    · rw [if_neg (by omega), if_neg ended, if_neg opened, if_neg (by omega), if_neg (by omega)]
      omega

/-- **Conformance.** Over every window, the spendings a bucket allows cost at most
two capacities and the length of the window. -/
theorem spentWithin_le {opens closes : Int} (ordered : opens ≤ closes) (nonneg : 0 ≤ capacity)
    {bucket : Bucket} {spendings : List (Int × Int)} (spends : Spends capacity bucket spendings)
    (tokens : bucket.tokens ≤ capacity) (tokensNonneg : 0 ≤ bucket.tokens) :
    spentWithin opens closes spendings ≤ windowBound capacity opens closes bucket := by
  induction spends with
  | nil bucket => exact windowBound_nonneg ordered nonneg tokensNonneg
  | @cons bucket now cost rest later affordable tail inductionHypothesis =>
      have range := spend_tokens_range nonneg affordable
      have rest := inductionHypothesis range.2 range.1
      have head := windowBound_spend ordered nonneg cost later tokens tokensNonneg
      simp only [spentWithin]
      omega

/-- The bound of a window does not depend on the bucket it starts from. -/
theorem windowBound_le {opens closes : Int} (ordered : opens ≤ closes) (nonneg : 0 ≤ capacity)
    {bucket : Bucket} (tokens : bucket.tokens ≤ capacity) :
    windowBound capacity opens closes bucket ≤ 2 * capacity + (closes - opens) := by
  unfold windowBound
  split_ifs <;> omega

/-- The bound for a bucket that starts without tokens. -/
theorem spentWithin_le_of_empty {opens closes : Int} (ordered : opens ≤ closes)
    (nonneg : 0 ≤ capacity) {bucket : Bucket} {spendings : List (Int × Int)}
    (spends : Spends capacity bucket spendings) (empty : bucket.tokens = 0) :
    spentWithin opens closes spendings ≤ 2 * capacity + (closes - opens) := by
  have tokens : bucket.tokens ≤ capacity := by
    rw [empty]
    exact nonneg
  calc spentWithin opens closes spendings
      ≤ windowBound capacity opens closes bucket :=
        spentWithin_le ordered nonneg spends tokens empty.ge
    _ ≤ _ := windowBound_le ordered nonneg tokens

/-! ### Systems that spend -/

/-- What a step with or without a spending does to the bucket. -/
def Pays (capacity : Int) (before : Bucket) : Option (Int × Int) → Bucket → Prop
  | none, after => after = before
  | some (now, cost), after =>
      before.time ≤ now ∧ 0 ≤ remaining capacity before now cost ∧
        after = spend capacity before now cost

/-- No step leaves the carried tokens negative. -/
theorem Pays.tokens_nonneg {before after : Bucket} {spending : Option (Int × Int)}
    (nonneg : 0 ≤ capacity) (pays : Pays capacity before spending after)
    (tokens : 0 ≤ before.tokens) : 0 ≤ after.tokens := by
  cases spending with
  | none =>
      obtain rfl : after = before := pays
      exact tokens
  | some paid =>
      obtain ⟨_, affordable, rfl⟩ := pays
      exact (spend_tokens_range nonneg affordable).1

/-- Nor does a run in which each step pays, whatever the capacity it finds. -/
theorem tokens_nonneg_of_reachable {State Label : Type} {initial : State → Prop}
    {step : State → Label → State → Prop} (bucket : State → Bucket) (clock capacity : State → Int)
    (spending : State → Label → Option (Int × Int)) {state : State}
    (reachable : Transition.Reachable initial step state) (nonneg : ∀ state, 0 ≤ capacity state)
    (fresh : ∀ {state}, initial state →
      (bucket state).time ≤ clock state ∧ (bucket state).tokens = 0)
    (pays : ∀ {first last label}, step first label last → (bucket first).time ≤ clock first →
      Pays (capacity first) (bucket first) (spending first label) (bucket last) ∧
        (bucket last).time ≤ clock last) :
    (bucket state).time ≤ clock state ∧ 0 ≤ (bucket state).tokens := by
  apply reachable.invariant fun state =>
    (bucket state).time ≤ clock state ∧ 0 ≤ (bucket state).tokens
  · intro start isInitial
    obtain ⟨past, empty⟩ := fresh isInitial
    exact ⟨past, empty.ge⟩
  · intro first last label head both
    obtain ⟨paid, past⟩ := pays head both.1
    exact ⟨past, paid.tokens_nonneg (nonneg first) both.2⟩

/-- A run all of whose steps pay is a run of spendings. -/
theorem spends_of_run {State Label : Type} {step : State → Label → State → Prop}
    {bucket : State → Bucket} {spending : Label → Option (Int × Int)} {first last : State}
    {labels : List Label} (run : Transition.Run step first labels last)
    (invariant : State → Prop)
    (pays : ∀ {first last label}, step first label last → invariant first →
      Pays capacity (bucket first) (spending label) (bucket last) ∧ invariant last)
    (holds : invariant first) : Spends capacity (bucket first) (labels.filterMap spending) := by
  induction run with
  | nil state => exact .nil _
  | @cons first middle last label labels head _ inductionHypothesis =>
      obtain ⟨paid, holdsMiddle⟩ := pays head holds
      have tail := inductionHypothesis holdsMiddle
      cases spent : spending label with
      | none =>
          rw [spent] at paid
          have same : bucket middle = bucket first := paid
          rwa [List.filterMap_cons_none spent, ← same]
      | some spending =>
          rw [spent] at paid
          obtain ⟨later, affordable, after⟩ := paid
          rw [List.filterMap_cons_some spent]
          apply Spends.cons later affordable
          rwa [← after]

/-- The bound for a run all of whose steps pay, from a state without tokens. -/
theorem spentWithin_le_of_run {State Label : Type} {step : State → Label → State → Prop}
    (bucket : State → Bucket) {spending : Label → Option (Int × Int)} {first last : State}
    {labels : List Label} (run : Transition.Run step first labels last)
    (invariant : State → Prop)
    (pays : ∀ {first last label}, step first label last → invariant first →
      Pays capacity (bucket first) (spending label) (bucket last) ∧ invariant last)
    (holds : invariant first) (empty : (bucket first).tokens = 0) {opens closes : Int}
    (ordered : opens ≤ closes) (nonneg : 0 ≤ capacity) :
    spentWithin opens closes (labels.filterMap spending) ≤ 2 * capacity + (closes - opens) :=
  spentWithin_le_of_empty ordered nonneg (spends_of_run run invariant pays holds) empty

end MqEcn.Library.TokenBucket
