import Mathlib.Data.List.Forall2
import Mathlib.Logic.Relation
import Mathlib.Order.Basic
import MqEcn.Library.Transition

/-!
Contract: what passes through a first-in first-out buffer.

Owns: the relation between what a buffer holds before and after a step, what it was handed and
what it handed out, the items a list of labels contributes in a context the labels change,
and the rule that says of a whole run that what was handed in is, in order, what was handed
out and what is held, and that nothing leaves before it has arrived.

Does not own: what an item is, or what storing and handing out do to it.
-/

set_option autoImplicit false

namespace MqEcn.Library.FifoHistory

open MqEcn.Library.Transition

universe u v w x

variable {Arrival Stored Departure : Type u} {stores : Arrival → Stored → Prop}
  {leaves : Stored → Departure → Prop}

/-- The arrivals are stored behind what the buffer holds, and the departures are taken from
its front. -/
def Passes (stores : Arrival → Stored → Prop) (leaves : Stored → Departure → Prop)
    (before : List Stored) (arrivals : List Arrival) (departures : List Departure)
    (after : List Stored) : Prop :=
  ∃ stored taken, List.Forall₂ stores arrivals stored ∧ List.Forall₂ leaves taken departures ∧
    before ++ stored = taken ++ after

section

variable {before after : List Stored} {arrivals waiting : List Arrival}
  {departures : List Departure}

theorem Passes.stay (content : List Stored) : Passes stores leaves content [] [] content :=
  ⟨[], [], .nil, .nil, by simp⟩

theorem Passes.accept {arrival : Arrival} {item : Stored} (stored : stores arrival item)
    (content : List Stored) : Passes stores leaves content [arrival] [] (content ++ [item]) :=
  ⟨[item], [], .cons stored .nil, .nil, by simp⟩

theorem Passes.depart {item : Stored} {departure : Departure} (left : leaves item departure)
    (rest : List Stored) : Passes stores leaves (item :: rest) [] [departure] rest :=
  ⟨[], [item], .nil, .cons left .nil, by simp⟩

theorem Passes.mono {stores' : Arrival → Stored → Prop} {leaves' : Stored → Departure → Prop}
    (passes : Passes stores leaves before arrivals departures after)
    (storesWeaker : ∀ arrival item, stores arrival item → stores' arrival item)
    (leavesWeaker : ∀ item departure, leaves item departure → leaves' item departure) :
    Passes stores' leaves' before arrivals departures after := by
  obtain ⟨stored, taken, storing, leaving, exchange⟩ := passes
  exact ⟨stored, taken, storing.imp storesWeaker, leaving.imp leavesWeaker, exchange⟩

/-- What is stored pairwise and leaves pairwise is handed on pairwise. -/
theorem forall₂_comp {sent : List Arrival} {taken : List Stored}
    (storing : List.Forall₂ stores sent taken) {departures : List Departure}
    (leaving : List.Forall₂ leaves taken departures) :
    List.Forall₂ (Relation.Comp stores leaves) sent departures := by
  induction storing generalizing departures with
  | nil =>
      cases leaving
      exact .nil
  | cons stored _ inductionHypothesis =>
      cases leaving with
      | cons left rest => exact .cons ⟨_, stored, left⟩ (inductionHypothesis rest)

/-- What a buffer holds as stored and what arrives is, in order, what is handed on and what it
holds then. -/
theorem Passes.forward (passes : Passes stores leaves before arrivals departures after)
    (held : List.Forall₂ stores waiting before) :
    ∃ sent waiting', waiting ++ arrivals = sent ++ waiting' ∧
      List.Forall₂ (Relation.Comp stores leaves) sent departures ∧
      List.Forall₂ stores waiting' after := by
  obtain ⟨stored, taken, storing, leaving, exchange⟩ := passes
  have all : List.Forall₂ stores (waiting ++ arrivals) (before ++ stored) :=
    List.rel_append held storing
  rw [exchange] at all
  have first := List.forall₂_take_append _ taken after all
  have last := List.forall₂_drop_append _ taken after all
  exact ⟨_, _, (List.take_append_drop taken.length (waiting ++ arrivals)).symm,
    forall₂_comp first leaving, last⟩

end

/-- Pairs of two related lists whose members all agree agree in addition. -/
theorem forall₂_and {relation agrees : Arrival → Departure → Prop} {sent : List Arrival}
    {departures : List Departure} (related : List.Forall₂ relation sent departures)
    (each : ∀ arrival ∈ sent, ∀ departure ∈ departures, agrees arrival departure) :
    List.Forall₂ (fun arrival departure => relation arrival departure ∧ agrees arrival departure)
      sent departures := by
  induction related with
  | nil => exact .nil
  | cons head _ inductionHypothesis =>
      refine .cons ⟨head, each _ List.mem_cons_self _ List.mem_cons_self⟩
        (inductionHypothesis fun arrival sent departure left => ?_)
      exact each _ (List.mem_cons_of_mem _ sent) _ (List.mem_cons_of_mem _ left)

/-! ### Runs -/

/-- The items a list of labels contributes, each in the context the labels before it leave. -/
def gather {Label : Type v} {Context : Type w} {Item : Type x}
    (next : Context → Label → Context) (items : Context → Label → List Item) :
    Context → List Label → List Item
  | _, [] => []
  | context, label :: labels =>
      items context label ++ gather next items (next context label) labels

/-- In a context that no label changes, each label contributes on its own. -/
theorem gather_fixed {Label : Type v} {Context : Type w} {Item : Type x}
    (items : Context → Label → List Item) (context : Context) (labels : List Label) :
    gather (fun context _ => context) items context labels = labels.flatMap (items context) := by
  induction labels with
  | nil => rfl
  | cons label labels inductionHypothesis =>
      rw [gather, inductionHypothesis, List.flatMap_cons]

/-- A buffer in a system with a clock: what the labels hand in and out, in the context the
system is in, and when. -/
structure Buffer (State : Type v) (Label : Type w) (Context Time : Type x)
    (Arrival Stored Departure : Type u) where
  context : State → Context
  clock : State → Time
  content : State → List Stored
  next : Context → Label → Context
  arrive : Context → Label → List Arrival
  depart : Label → List Departure
  arrived : Arrival → Time
  departed : Departure → Time

section

variable {State : Type v} {Label : Type w} {Context Time : Type x} [Preorder Time]

/-- Every step takes its arrivals in and its departures out, and happens at one time. -/
structure Buffer.Keeps (buffer : Buffer State Label Context Time Arrival Stored Departure)
    (stores : Arrival → Stored → Prop) (leaves : Stored → Departure → Prop)
    (step : State → Label → State → Prop) : Prop where
  context : ∀ {first label last}, step first label last →
    buffer.context last = buffer.next (buffer.context first) label
  passes : ∀ {first label last}, step first label last →
    Passes stores leaves (buffer.content first) (buffer.arrive (buffer.context first) label)
      (buffer.depart label) (buffer.content last)
  clock : ∀ {first label last}, step first label last → buffer.clock first ≤ buffer.clock last
  arrived : ∀ {first label last}, step first label last →
    ∀ arrival ∈ buffer.arrive (buffer.context first) label,
      buffer.arrived arrival ≤ buffer.clock last
  departed : ∀ {first label last}, step first label last →
    ∀ departure ∈ buffer.depart label, buffer.clock last ≤ buffer.departed departure

variable {buffer : Buffer State Label Context Time Arrival Stored Departure}
  {step : State → Label → State → Prop}

/-- The run rule: what is held at the start and arrives in the run is, in order, what leaves in
the run and what is held at its end, and nothing leaves before it has arrived. -/
theorem Buffer.Keeps.of_run (keeps : buffer.Keeps stores leaves step) {first last : State}
    {labels : List Label} (run : Run step first labels last) {waiting : List Arrival}
    (held : List.Forall₂ stores waiting (buffer.content first))
    (arrived : ∀ arrival ∈ waiting, buffer.arrived arrival ≤ buffer.clock first) :
    ∃ sent waiting',
      waiting ++ gather buffer.next buffer.arrive (buffer.context first) labels =
        sent ++ waiting' ∧
      List.Forall₂
        (fun arrival departure => Relation.Comp stores leaves arrival departure ∧
          buffer.arrived arrival ≤ buffer.departed departure)
        sent (labels.flatMap buffer.depart) ∧
      List.Forall₂ stores waiting' (buffer.content last) := by
  induction run generalizing waiting with
  | nil state => exact ⟨[], waiting, by simp [gather], .nil, held⟩
  | @cons first middle last label labels head tail inductionHypothesis =>
      obtain ⟨sent, waiting', split, delivered, held'⟩ := (keeps.passes head).forward held
      have inTime : ∀ arrival ∈ waiting ++ buffer.arrive (buffer.context first) label,
          buffer.arrived arrival ≤ buffer.clock middle := fun arrival member => by
        rcases List.mem_append.mp member with early | new
        · exact (arrived arrival early).trans (keeps.clock head)
        · exact keeps.arrived head arrival new
      rw [split] at inTime
      obtain ⟨sent', waiting'', split', delivered', held''⟩ := inductionHypothesis held'
        fun arrival member => inTime arrival (List.mem_append_right _ member)
      have causal := forall₂_and delivered fun arrival member departure left =>
        (inTime arrival (List.mem_append_left _ member)).trans
          (keeps.departed head departure left)
      refine ⟨sent ++ sent', waiting'', ?_, List.rel_append causal delivered', held''⟩
      calc
        waiting ++ gather buffer.next buffer.arrive (buffer.context first) (label :: labels) =
            sent ++ (waiting' ++
              gather buffer.next buffer.arrive (buffer.context middle) labels) := by
          rw [gather, ← List.append_assoc, split, keeps.context head, List.append_assoc]
        _ = sent ++ sent' ++ waiting'' := by rw [split', List.append_assoc]

/-- From an empty buffer on, what has arrived is, in order, what has left and what is held. -/
theorem Buffer.Keeps.of_empty (keeps : buffer.Keeps stores leaves step) {first last : State}
    {labels : List Label} (run : Run step first labels last) (empty : buffer.content first = []) :
    ∃ sent waiting,
      gather buffer.next buffer.arrive (buffer.context first) labels = sent ++ waiting ∧
      List.Forall₂
        (fun arrival departure => Relation.Comp stores leaves arrival departure ∧
          buffer.arrived arrival ≤ buffer.departed departure)
        sent (labels.flatMap buffer.depart) ∧
      List.Forall₂ stores waiting (buffer.content last) := by
  have held : List.Forall₂ stores [] (buffer.content first) := by
    rw [empty]
    exact .nil
  exact keeps.of_run run held (by simp)

end

end MqEcn.Library.FifoHistory
