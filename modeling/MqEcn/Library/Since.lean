import MqEcn.Library.Transition

/-!
Contract: what a field that remembers a moment says about the run up to now.

Owns: runs read as "since an opening step every step has kept", and the rule that
derives this from a record in the state which each step sets, keeps or clears.

Does not own: any particular system. A system supplies its record, what it takes to
set it, and what a step that leaves it alone guarantees.
-/

set_option autoImplicit false

namespace MqEcn.Library.Transition

universe u v w

variable {State : Type u} {Label : Type v} {step : State → Label → State → Prop}

/-- A run one step of which opens, and every later step of which keeps. -/
def Since (step opens keeps : State → Label → State → Prop) (first : State)
    (labels : List Label) (last : State) : Prop :=
  ∃ before label after opened begun, labels = before ++ label :: after ∧
    Run step first before opened ∧ step opened label begun ∧ opens opened label begun ∧
    Run (fun state event next => step state event next ∧ keeps state event next)
      begun after last

variable {opens opens' keeps keeps' : State → Label → State → Prop} {first last : State}
  {labels : List Label}

/-- A run of the parts is longer by what stands before it. -/
theorem Since.cons {middle : State} {label : Label} (head : step first label middle)
    (since : Since step opens keeps middle labels last) :
    Since step opens keeps first (label :: labels) last := by
  obtain ⟨before, opening, after, opened, begun, split, earlier, rest⟩ := since
  exact ⟨label :: before, opening, after, opened, begun, by rw [split, List.cons_append],
    .cons head earlier, rest⟩

/-- What opened and what kept may be weakened, the opening step in view of the run since. -/
theorem Since.mono (since : Since step opens keeps first labels last)
    (opening : ∀ {opened label begun after}, step opened label begun →
      Run step begun after last → opens opened label begun → opens' opened label begun)
    (keeping : ∀ {state label next}, step state label next → keeps state label next →
      keeps' state label next) :
    Since step opens' keeps' first labels last := by
  obtain ⟨before, label, after, opened, begun, split, earlier, head, opensHere, run⟩ := since
  have later : Run step begun after last := run.mono fun kept => kept.1
  exact ⟨before, label, after, opened, begun, split, earlier, head,
    opening head later opensHere, run.mono fun kept => ⟨kept.1, keeping kept.1 kept.2⟩⟩

section

variable {Record : Type w} (record : State → Option Record)
  (sets : Record → State → Label → State → Prop)

/-- Every step clears the record, sets it anew, or leaves it and keeps. -/
def Recorded (step keeps : State → Label → State → Prop) : Prop :=
  ∀ {first label last}, step first label last →
    record last = none ∨
      (∃ value, record last = some value ∧ sets value first label last) ∨
      (record last = record first ∧ keeps first label last)

/-- A record that a run ends with was there from the start, or some step set it and it
has stood since. -/
theorem Run.kept_or_since (recorded : Recorded record sets step keeps)
    (run : Run step first labels last) {value : Record} (holds : record last = some value) :
    (record first = some value ∧
        Run (fun state event next => step state event next ∧ keeps state event next)
          first labels last) ∨
      Since step (sets value) keeps first labels last := by
  induction run with
  | nil state => exact Or.inl ⟨holds, .nil state⟩
  | @cons first middle last label labels head tail inductionHypothesis =>
      rcases inductionHypothesis holds with ⟨carried, kept⟩ | since
      · rcases recorded head with cleared | ⟨set, isSet, setBy⟩ | ⟨same, keepsHere⟩
        · rw [cleared] at carried
          cases carried
        · rw [isSet] at carried
          cases carried
          exact Or.inr ⟨[], label, labels, first, middle, rfl, .nil first, head, setBy, kept⟩
        · exact Or.inl ⟨same ▸ carried, .cons ⟨head, keepsHere⟩ kept⟩
      · exact Or.inr (since.cons head)

/-- The record rule: a record that is not there at the start has been set by some step of
the run, and stood since. -/
theorem Run.since (recorded : Recorded record sets step keeps)
    (run : Run step first labels last) (blank : record first = none) {value : Record}
    (holds : record last = some value) : Since step (sets value) keeps first labels last := by
  rcases run.kept_or_since record sets recorded holds with ⟨carried, _⟩ | since
  · rw [blank] at carried
    cases carried
  · exact since

end

end MqEcn.Library.Transition
