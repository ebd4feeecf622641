import Mathlib.Tactic.Common
import Mathlib.Data.List.Basic

/-!
Contract: runs of a labelled transition relation.

Owns: finite runs with the list of labels they emit, runs all of whose states
satisfy a predicate, reachability from a set of initial states, the rule that
lifts what one step preserves to what a whole run preserves, the rules that
lift the simulation of one step to the simulation of a whole run, the comparison
of a run with one that repeats a part of it, and the replay of a list of labels
by an executable step.

Does not own: any particular system. A system supplies its state, its label and
its step relation; determinism, fairness and infinite runs are not needed here.
-/

set_option autoImplicit false

namespace MqEcn.Library.Transition

universe u v

variable {State : Type u} {Label : Type v}

/-- A finite run, with the labels of its steps in order. -/
inductive Run (step : State → Label → State → Prop) :
    State → List Label → State → Prop where
  | nil (state) : Run step state [] state
  | cons {first middle last : State} {label : Label} {labels : List Label}
      (head : step first label middle) (tail : Run step middle labels last) :
      Run step first (label :: labels) last

/-- The steps that start and end in states satisfying `good`. -/
def Within (good : State → Prop) (step : State → Label → State → Prop) :
    State → Label → State → Prop :=
  fun first label last => good first ∧ step first label last ∧ good last

/-- A run every state of which, the two end states included, satisfies `good`. -/
def RunWithin (good : State → Prop) (step : State → Label → State → Prop)
    (first : State) (labels : List Label) (last : State) : Prop :=
  good first ∧ Run (Within good step) first labels last

/-- The states some run reaches from an initial state. -/
def Reachable (initial : State → Prop) (step : State → Label → State → Prop)
    (state : State) : Prop :=
  ∃ start labels, initial start ∧ Run step start labels state

section

variable {step step' : State → Label → State → Prop}

theorem Run.append {first middle last : State} {left right : List Label}
    (leftRun : Run step first left middle) (rightRun : Run step middle right last) :
    Run step first (left ++ right) last := by
  induction leftRun with
  | nil => exact rightRun
  | cons head _ inductionHypothesis =>
      exact .cons head (inductionHypothesis rightRun)

theorem Run.single {first last : State} {label : Label}
    (head : step first label last) : Run step first [label] last :=
  .cons head (.nil last)

/-- A run of a relation is a run of every larger relation. -/
theorem Run.mono {first last : State} {labels : List Label}
    (run : Run step first labels last)
    (subset : ∀ {first label last}, step first label last → step' first label last) :
    Run step' first labels last := by
  induction run with
  | nil state => exact .nil state
  | cons head _ inductionHypothesis => exact .cons (subset head) inductionHypothesis

/-- A run whose labels satisfy `allowed` is a run of the steps so labelled. -/
theorem Run.restrict {first last : State} {labels : List Label} {allowed : Label → Prop}
    (run : Run step first labels last) (labelled : ∀ label ∈ labels, allowed label) :
    Run (fun first label last => step first label last ∧ allowed label)
      first labels last := by
  induction run with
  | nil state => exact .nil state
  | cons head _ inductionHypothesis =>
      apply Run.cons ⟨head, labelled _ List.mem_cons_self⟩
      apply inductionHypothesis
      intro label member
      exact labelled label (List.mem_cons_of_mem _ member)

/-- What every step guarantees of its label holds of every label of a run. -/
theorem Run.forall_label {first last : State} {labels : List Label} {allowed : Label → Prop}
    (run : Run step first labels last)
    (each : ∀ {first label last}, step first label last → allowed label) :
    ∀ label ∈ labels, allowed label := by
  induction run with
  | nil => simp
  | cons head _ inductionHypothesis =>
      intro label member
      rcases List.mem_cons.mp member with rfl | inside
      · exact each head
      · exact inductionHypothesis label inside

/-- The run lemma: what every step preserves, a whole run preserves. -/
theorem Run.preserves {first last : State} {labels : List Label}
    (run : Run step first labels last) (invariant : State → Prop)
    (preserved : ∀ {first label last},
      step first label last → invariant first → invariant last)
    (holds : invariant first) : invariant last := by
  induction run with
  | nil => exact holds
  | cons head _ inductionHypothesis => exact inductionHypothesis (preserved head holds)

/-- Two properties of steps that agree where an invariant holds agree on a whole run. -/
theorem Run.iff_of_invariant {first last : State} {labels : List Label}
    {one other : State → Label → State → Prop} (invariant : State → Prop)
    (preserved : ∀ {first label last},
      step first label last → invariant first → invariant last)
    (agree : ∀ {first label last}, step first label last → invariant last →
      (one first label last ↔ other first label last))
    (holds : invariant first) :
    Run (fun first label last => step first label last ∧ one first label last)
        first labels last ↔
      Run (fun first label last => step first label last ∧ other first label last)
        first labels last := by
  constructor
  · intro run
    induction run with
    | nil state => exact .nil state
    | cons head _ inductionHypothesis =>
        have next := preserved head.1 holds
        exact .cons ⟨head.1, (agree head.1 next).mp head.2⟩ (inductionHypothesis next)
  · intro run
    induction run with
    | nil state => exact .nil state
    | cons head _ inductionHypothesis =>
        have next := preserved head.1 holds
        exact .cons ⟨head.1, (agree head.1 next).mpr head.2⟩ (inductionHypothesis next)

/-- What holds initially and is preserved by every step holds in every
reachable state. -/
theorem Reachable.invariant {initial : State → Prop} {state : State}
    (reachable : Reachable initial step state) (invariant : State → Prop)
    (holds : ∀ {start}, initial start → invariant start)
    (preserved : ∀ {first label last},
      step first label last → invariant first → invariant last) :
    invariant state := by
  obtain ⟨start, labels, isInitial, run⟩ := reachable
  exact run.preserves invariant preserved (holds isInitial)

variable {good : State → Prop}

theorem RunWithin.run {first last : State} {labels : List Label}
    (within : RunWithin good step first labels last) : Run step first labels last :=
  within.2.mono fun inside => inside.2.1

/-- The last state of such a run is good. -/
theorem RunWithin.good_last {first last : State} {labels : List Label}
    (within : RunWithin good step first labels last) : good last := by
  obtain ⟨isGood, run⟩ := within
  induction run with
  | nil => exact isGood
  | cons head _ inductionHypothesis => exact inductionHypothesis head.2.2

/-- A run from a good state by steps that keep states good. -/
theorem RunWithin.of_preserved {first last : State} {labels : List Label}
    (run : Run step first labels last) (isGood : good first)
    (preserved : ∀ {first label last}, step first label last → good first → good last) :
    RunWithin good step first labels last := by
  induction run with
  | nil state => exact ⟨isGood, .nil state⟩
  | cons head _ inductionHypothesis =>
      have next := preserved head isGood
      exact ⟨isGood, .cons ⟨isGood, head, next⟩ (inductionHypothesis next).2⟩

/-- A run all of whose states are good has only states that are good in a weaker sense. -/
theorem RunWithin.mono {good' : State → Prop} {first last : State} {labels : List Label}
    (within : RunWithin good step first labels last)
    (weaker : ∀ state, good state → good' state) : RunWithin good' step first labels last := by
  constructor
  · exact weaker first within.1
  · apply within.2.mono
    intro first label last inside
    exact ⟨weaker first inside.1, inside.2.1, weaker last inside.2.2⟩

end

/-! ### Simulation -/

section

universe w x

variable {Abstract : Type w} {Move : Type x} {step : State → Label → State → Prop}

/-- The simulation rule. Every step between related states is answered by a run of the
abstract relation; `answers` says what such a run has to do with the labels, and
`cons` that this adds up. Then a whole run is answered by one abstract run. -/
theorem Run.simulate (abstractStep : Abstract → Move → Abstract → Prop)
    (relates : State → Abstract → Prop)
    (answers : State → List Label → State → List Move → Prop)
    (nil : ∀ state, answers state [] state [])
    (cons : ∀ {first middle last : State} {label : Label} {labels : List Label}
      {moves rest : List Move}, answers first [label] middle moves →
        answers middle labels last rest → answers first (label :: labels) last (moves ++ rest))
    {first last : State} {labels : List Label} {start : Abstract}
    (run : Run step first labels last) (related : relates first start)
    (simulated : ∀ {first last : State} {label : Label} {start : Abstract},
      step first label last → relates first start →
        ∃ moves finish, Run abstractStep start moves finish ∧ relates last finish ∧
          answers first [label] last moves) :
    ∃ moves finish, Run abstractStep start moves finish ∧ relates last finish ∧
      answers first labels last moves := by
  induction run generalizing start with
  | nil state => exact ⟨[], start, .nil start, related, nil state⟩
  | cons head _ inductionHypothesis =>
      obtain ⟨moves, between, headRun, headRelated, answer⟩ := simulated head related
      obtain ⟨rest, finish, tailRun, tailRelated, answerRest⟩ := inductionHypothesis headRelated
      exact ⟨moves ++ rest, finish, headRun.append tailRun, tailRelated, cons answer answerRest⟩

/-- The simulation rule where each label stands for one move. -/
theorem Run.refine {abstractStep : Abstract → Move → Abstract → Prop} {move : Label → Option Move}
    (relates : State → Abstract → Prop)
    (simulated : ∀ {first last : State} {label : Label} {start : Abstract} {answer : Move},
      step first label last → move label = some answer → relates first start →
        ∃ finish, abstractStep start answer finish ∧ relates last finish)
    {first last : State} {labels : List Label} {moves : List Move} {start : Abstract}
    (run : Run step first labels last) (answers : labels.map move = moves.map some)
    (related : relates first start) :
    ∃ finish, Run abstractStep start moves finish ∧ relates last finish := by
  induction run generalizing start moves with
  | nil state =>
      cases moves with
      | nil => exact ⟨start, .nil start, related⟩
      | cons => cases answers
  | cons head _ inductionHypothesis =>
      cases moves with
      | nil => cases answers
      | cons answer others =>
          rw [List.map_cons, List.map_cons, List.cons.injEq] at answers
          obtain ⟨between, first, relatedBetween⟩ := simulated head answers.1 related
          obtain ⟨finish, rest, relatedFinish⟩ := inductionHypothesis answers.2 relatedBetween
          exact ⟨finish, .cons first rest, relatedFinish⟩

/-- The simulation rule for a run between good states with allowed labels. -/
theorem RunWithin.simulate (abstractStep : Abstract → Move → Abstract → Prop)
    (relates : State → Abstract → Prop)
    (answers : State → List Label → State → List Move → Prop)
    (nil : ∀ state, answers state [] state [])
    (cons : ∀ {first middle last : State} {label : Label} {labels : List Label}
      {moves rest : List Move}, answers first [label] middle moves →
        answers middle labels last rest → answers first (label :: labels) last (moves ++ rest))
    {good : State → Prop} {allowed : Label → Prop} {first last : State} {labels : List Label}
    {start : Abstract} (within : RunWithin good step first labels last)
    (labelled : ∀ label ∈ labels, allowed label) (related : relates first start)
    (simulated : ∀ {first last : State} {label : Label} {start : Abstract}, good first →
      step first label last → good last → allowed label → relates first start →
        ∃ moves finish, Run abstractStep start moves finish ∧ relates last finish ∧
          answers first [label] last moves) :
    ∃ moves finish, Run abstractStep start moves finish ∧ relates last finish ∧
      answers first labels last moves := by
  apply Run.simulate abstractStep relates answers nil cons (within.2.restrict labelled) related
  intro first last label start step related
  obtain ⟨⟨goodFirst, inside, goodLast⟩, isAllowed⟩ := step
  exact simulated goodFirst inside goodLast isAllowed related

end

/-! ### Reruns -/

section

universe w x

variable {step step' : State → Label → State → Prop} {concerns : State → Label → Prop}
  {repeats : Label → Label → Prop}

/-- A run and a second one, from another state, that repeats in the same order the part of
the first that concerns an observer. -/
inductive Rerun (step step' : State → Label → State → Prop) (concerns : State → Label → Prop)
    (repeats : Label → Label → Prop) :
    State → State → List Label → List Label → State → State → Prop where
  | nil (state state') : Rerun step step' concerns repeats state state' [] [] state state'
  | both {first middle last first' middle' last' : State} {label label' : Label}
      {labels labels' : List Label} (head : step first label middle)
      (head' : step' first' label' middle') (kept : concerns first label)
      (again : repeats label label')
      (tail : Rerun step step' concerns repeats middle middle' labels labels' last last') :
      Rerun step step' concerns repeats first first' (label :: labels) (label' :: labels') last
        last'
  | skip {first middle last first' last' : State} {label : Label} {labels labels' : List Label}
      (head : step first label middle) (left : ¬concerns first label)
      (tail : Rerun step step' concerns repeats middle first' labels labels' last last') :
      Rerun step step' concerns repeats first first' (label :: labels) labels' last last'

variable {first first' last last' : State} {labels labels' : List Label}

/-- The rerun rule: a relation that every repeated pair of steps and every step that is left
out preserve, and under which the two emit related output, relates the whole outputs. What
it guarantees of a repeated label holds of all of them. -/
theorem Rerun.related {Output : Type w} {Output' : Type x} (relates : State → State → Prop)
    (output : Label → Option Output) (output' : Label → Option Output')
    (agree : Output → Output' → Prop) (sound : Label → Prop)
    (rerun : Rerun step step' concerns repeats first first' labels labels' last last')
    (related : relates first first')
    (repeated : ∀ {first middle first' middle' label label'}, step first label middle →
      step' first' label' middle' → concerns first label → repeats label label' →
      relates first first' →
        relates middle middle' ∧ Option.Rel agree (output label) (output' label') ∧ sound label')
    (skipped : ∀ {first middle first' label}, step first label middle → ¬concerns first label →
      relates first first' → relates middle first' ∧ output label = none) :
    relates last last' ∧
      List.Forall₂ agree (labels.filterMap output) (labels'.filterMap output') ∧
      ∀ label' ∈ labels', sound label' := by
  induction rerun with
  | nil => exact ⟨related, .nil, by simp⟩
  | @both _ _ _ _ _ _ label label' _ _ head head' kept again _ inductionHypothesis =>
      obtain ⟨between, same, isSound⟩ := repeated head head' kept again related
      obtain ⟨after, rest, allSound⟩ := inductionHypothesis between
      refine ⟨after, ?_, List.forall_mem_cons.mpr ⟨isSound, allSound⟩⟩
      rw [List.filterMap_cons, List.filterMap_cons]
      revert same
      generalize output label = emitted, output' label' = emitted'
      intro same
      cases same with
      | none => exact rest
      | some same => exact .cons same rest
  | skip head left _ inductionHypothesis =>
      obtain ⟨between, silent⟩ := skipped head left related
      rw [List.filterMap_cons, silent]
      exact inductionHypothesis between

end

/-! ### Replay -/

section

variable {step : State → Label → State → Prop} {next : State → Label → Option State}
  {good : State → Prop} [DecidablePred good]

/-- The state a list of labels leads to, where every state on the way is good. -/
def replay (next : State → Label → Option State) (good : State → Prop) [DecidablePred good] :
    State → List Label → Option State
  | state, [] => if good state then some state else none
  | state, label :: labels =>
      if good state then (next state label).bind fun after => replay next good after labels
      else none

/-- What an executable step replays is a run. -/
theorem RunWithin.of_replay
    (sound : ∀ {first last : State} {label : Label}, next first label = some last →
      step first label last)
    {first last : State} {labels : List Label}
    (replayed : replay next good first labels = some last) :
    RunWithin good step first labels last := by
  induction labels generalizing first with
  | nil =>
      simp only [replay, Option.ite_none_right_eq_some, Option.some.injEq] at replayed
      obtain ⟨holds, rfl⟩ := replayed
      exact ⟨holds, .nil first⟩
  | cons label labels inductionHypothesis =>
      simp only [replay, Option.ite_none_right_eq_some, Option.bind_eq_some_iff] at replayed
      obtain ⟨holds, middle, head, tail⟩ := replayed
      obtain ⟨holdsMiddle, run⟩ := inductionHypothesis tail
      exact ⟨holds, .cons ⟨holds, sound head, holdsMiddle⟩ run⟩

/-- The last state of a replay that succeeds. -/
theorem RunWithin.of_replay_isSome
    (sound : ∀ {first last : State} {label : Label}, next first label = some last →
      step first label last)
    {first : State} {labels : List Label}
    (replayed : (replay next good first labels).isSome = true) :
    RunWithin good step first labels ((replay next good first labels).get replayed) :=
  .of_replay sound (Option.some_get replayed).symm

end

end MqEcn.Library.Transition
