import Mathlib.Algebra.BigOperators.Group.List.Basic
import Mathlib.Algebra.GroupWithZero.Nat
import Mathlib.Data.Fin.Basic
import Mathlib.Logic.Function.Basic
import Mathlib.Logic.Relation
import MqEcn.Library.Transition

/-!
Contract: the schedule of deficit round robin with the packets it serves.

Owns: a port (the ring of backlogged flows with what each may send before its turn
ends, and the packet sizes of every flow), what an operation does to it, the
determinism of the schedule, its independence of the quanta of other flows, and the
measure that every turn lowers.

Does not own: any implementation. One that shows a port and steps as the port does
realises this schedule.
-/

set_option autoImplicit false

namespace MqEcn.Library.RingSchedule

open MqEcn.Library.Transition
open Relation (ReflTransGen)

variable {Flow : Type} [DecidableEq Flow]

/-- The backlogged flows, head first, each with what it may send before its turn ends,
and the sizes of the packets of every flow, oldest first. -/
@[ext]
structure Port (Flow : Type) where
  ring : List (Flow × Nat)
  fifo : Flow → List Nat

/-- What is asked of a port. -/
inductive Operation (Flow : Type) where
  | accept (flow : Flow) (size : Nat)
  | dequeue

/-- An operation with what it put out: a packet of some flow, or none. -/
inductive Action (Flow : Type) where
  | accept (flow : Flow) (size : Nat)
  | dequeue (output : Option (Flow × Nat))
deriving DecidableEq

/-- The operation of an action. -/
def Action.operation : Action Flow → Operation Flow
  | .accept flow size => .accept flow size
  | .dequeue _ => .dequeue

/-- A port that holds nothing. -/
def Port.empty : Port Flow := ⟨[], fun _ => []⟩

/-- A packet of `size` bytes is taken. Its flow joins the ring with its first packet. -/
def Port.accept (quantum : Flow → Nat) (flow : Flow) (size : Nat) (port : Port Flow) :
    Port Flow where
  ring := if port.fifo flow = [] then port.ring ++ [(flow, quantum flow)] else port.ring
  fifo := Function.update port.fifo flow (port.fifo flow ++ [size])

/-- The head may not send its packet and moves to the tail, with a quantum more. -/
inductive Turns (quantum : Flow → Nat) (port next : Port Flow) : Prop
  | intro {flow : Flow} {credit size : Nat} {ring : List (Flow × Nat)} {sizes : List Nat}
      (head : port.ring = (flow, credit) :: ring) (front : port.fifo flow = size :: sizes)
      (short : credit < size) (moves : next.ring = ring ++ [(flow, credit + quantum flow)])
      (keeps : next.fifo = port.fifo)

/-- The head sends its packet, and leaves the ring with its last one. -/
inductive Sends (port : Port Flow) : Option (Flow × Nat) → Port Flow → Prop
  | idle (empty : port.ring = []) : Sends port none port
  | packet {next : Port Flow} {flow : Flow} {credit size : Nat} {ring : List (Flow × Nat)}
      {sizes : List Nat} (head : port.ring = (flow, credit) :: ring)
      (front : port.fifo flow = size :: sizes) (enough : size ≤ credit)
      (moves : next.ring = if sizes = [] then ring else (flow, credit - size) :: ring)
      (keeps : next.fifo = Function.update port.fifo flow sizes) :
      Sends port (some (flow, size)) next

/-- One action of a port. -/
inductive Step (quantum : Flow → Nat) (port : Port Flow) : Action Flow → Port Flow → Prop
  | accept (flow : Flow) (size : Nat) :
      Step quantum port (.accept flow size) (port.accept quantum flow size)
  | dequeue {middle last : Port Flow} {output : Option (Flow × Nat)}
      (turns : ReflTransGen (Turns quantum) port middle) (sends : Sends middle output last) :
      Step quantum port (.dequeue output) last

/-! ### Determinism -/

section

variable {quantum : Flow → Nat} {port next next' : Port Flow}

omit [DecidableEq Flow] in
private theorem Turns.unique (turns : Turns quantum port next) (turns' : Turns quantum port next') :
    next = next' := by
  cases turns with
  | intro head front short moves keeps =>
      cases turns' with
      | intro head' front' short' moves' keeps' =>
          rw [head] at head'
          cases head'
          exact Port.ext (moves.trans moves'.symm) (keeps.trans keeps'.symm)

private theorem Turns.not_sends {output : Option (Flow × Nat)} (turns : Turns quantum port next)
    (sends : Sends port output next') : False := by
  cases turns with
  | intro head front short =>
      cases sends with
      | idle empty =>
          rw [head] at empty
          cases empty
      | packet head' front' enough =>
          rw [head] at head'
          cases head'
          rw [front] at front'
          cases front'
          omega

private theorem Sends.unique {output output' : Option (Flow × Nat)} (sends : Sends port output next)
    (sends' : Sends port output' next') : output = output' ∧ next = next' := by
  cases sends with
  | idle empty =>
      cases sends' with
      | idle => exact ⟨rfl, rfl⟩
      | packet head =>
          rw [empty] at head
          cases head
  | packet head front enough moves keeps =>
      cases sends' with
      | idle empty =>
          rw [head] at empty
          cases empty
      | packet head' front' enough' moves' keeps' =>
          rw [head] at head'
          cases head'
          rw [front] at front'
          cases front'
          exact ⟨rfl, Port.ext (moves.trans moves'.symm) (keeps.trans keeps'.symm)⟩

/-- The turns of a dequeue end where it sends, and nowhere else. -/
theorem turns_unique {middle middle' last last' : Port Flow} {output output' : Option (Flow × Nat)}
    (turns : ReflTransGen (Turns quantum) port middle) (sends : Sends middle output last)
    (turns' : ReflTransGen (Turns quantum) port middle') (sends' : Sends middle' output' last') :
    output = output' ∧ last = last' := by
  induction turns using ReflTransGen.head_induction_on with
  | refl =>
      cases ReflTransGen.cases_head turns' with
      | inl same =>
          subst same
          exact sends.unique sends'
      | inr turn =>
          rcases turn with ⟨next, first, _⟩
          exact (first.not_sends sends).elim
  | head first _ inductionHypothesis =>
      cases ReflTransGen.cases_head turns' with
      | inl same =>
          subst same
          exact (first.not_sends sends').elim
      | inr turn =>
          rcases turn with ⟨next, first', rest⟩
          rw [first'.unique first] at rest
          exact inductionHypothesis rest

private theorem Step.unique {action action' : Action Flow} (step : Step quantum port action next)
    (step' : Step quantum port action' next') (same : action.operation = action'.operation) :
    action = action' ∧ next = next' := by
  cases step with
  | accept flow size =>
      cases step' with
      | accept =>
          cases same
          exact ⟨rfl, rfl⟩
      | dequeue => cases same
  | dequeue turns sends =>
      cases step' with
      | accept => cases same
      | dequeue turns' sends' =>
          rcases turns_unique turns sends turns' sends' with ⟨outputs, ports⟩
          exact ⟨congrArg Action.dequeue outputs, ports⟩

/-- The operations determine what a port puts out and where it ends. -/
theorem run_unique {last last' : Port Flow} {actions actions' : List (Action Flow)}
    (run : Run (Step quantum) port actions last) (run' : Run (Step quantum) port actions' last')
    (same : actions.map Action.operation = actions'.map Action.operation) :
    actions = actions' ∧ last = last' := by
  induction run generalizing actions' with
  | nil =>
      cases run' with
      | nil => exact ⟨rfl, rfl⟩
      | cons => cases same
  | cons head _ inductionHypothesis =>
      cases run' with
      | nil => cases same
      | cons head' rest' =>
          rw [List.map_cons, List.map_cons, List.cons.injEq] at same
          rcases head.unique head' same.1 with ⟨rfl, rfl⟩
          rcases inductionHypothesis rest' same.2 with ⟨rfl, rfl⟩
          exact ⟨rfl, rfl⟩

end

/-! ### The quanta of other flows -/

section

variable {quantum quantum' : Flow → Nat} {served : Flow → Prop} {port next : Port Flow}

/-- The flows in the ring are among the served ones. -/
def Port.Within (served : Flow → Prop) (port : Port Flow) : Prop :=
  ∀ entry ∈ port.ring, served entry.1

/-- An operation on a served flow. -/
def Operation.Within (served : Flow → Prop) : Operation Flow → Prop
  | .accept flow _ => served flow
  | .dequeue => True

omit [DecidableEq Flow] in
private theorem Turns.congr (agree : ∀ flow, served flow → quantum flow = quantum' flow)
    (within : port.Within served) (turns : Turns quantum port next) :
    Turns quantum' port next ∧ next.Within served := by
  cases turns with
  | @intro flow credit size ring sizes head front short moves keeps =>
      have first : served flow := within (flow, credit) (by rw [head]; exact List.mem_cons_self)
      rw [agree flow first] at moves
      refine ⟨.intro head front short moves keeps, fun entry member => ?_⟩
      rw [moves] at member
      cases List.mem_append.mp member with
      | inl behind =>
          apply within entry
          rw [head]
          exact List.mem_cons_of_mem _ behind
      | inr moved =>
          rw [List.mem_singleton.mp moved]
          exact first

private theorem Sends.within {output : Option (Flow × Nat)} (within : port.Within served)
    (sends : Sends port output next) : next.Within served := by
  cases sends with
  | idle => exact within
  | @packet _ flow credit size ring sizes head front enough moves keeps =>
      intro entry member
      rw [moves] at member
      have listed : ∀ other ∈ ring, served other.1 := by
        intro other behind
        apply within other
        rw [head]
        exact List.mem_cons_of_mem _ behind
      split at member
      · exact listed entry member
      · cases List.mem_cons.mp member with
        | inl same =>
            rw [same]
            exact within (flow, credit) (by rw [head]; exact List.mem_cons_self)
        | inr behind => exact listed entry behind

private theorem Step.congr (agree : ∀ flow, served flow → quantum flow = quantum' flow)
    (within : port.Within served) {action : Action Flow}
    (asked : action.operation.Within served) (step : Step quantum port action next) :
    Step quantum' port action next ∧ next.Within served := by
  cases step with
  | accept flow size =>
      have inside : served flow := asked
      have same : port.accept quantum flow size = port.accept quantum' flow size := by
        unfold Port.accept
        rw [agree flow inside]
      rw [same]
      refine ⟨.accept flow size, fun entry member => ?_⟩
      unfold Port.accept at member
      simp only at member
      split at member
      · cases List.mem_append.mp member with
        | inl before => exact within entry before
        | inr joined =>
            rw [List.mem_singleton.mp joined]
            exact inside
      · exact within entry member
  | dequeue turns sends =>
      have turned : ∀ {middle}, ReflTransGen (Turns quantum) port middle →
          ReflTransGen (Turns quantum') port middle ∧ middle.Within served := by
        intro middle turns
        induction turns with
        | refl => exact ⟨.refl, within⟩
        | tail _ last inductionHypothesis =>
            rcases inductionHypothesis with ⟨before, inside⟩
            rcases last.congr agree inside with ⟨turn, after⟩
            exact ⟨before.tail turn, after⟩
      rcases turned turns with ⟨turns', inside⟩
      exact ⟨.dequeue turns' sends, sends.within inside⟩

/-- Only the quanta of the flows that are served matter. -/
theorem run_congr {last : Port Flow} {actions : List (Action Flow)}
    (agree : ∀ flow, served flow → quantum flow = quantum' flow) (within : port.Within served)
    (asked : ∀ action ∈ actions, action.operation.Within served)
    (run : Run (Step quantum) port actions last) : Run (Step quantum') port actions last := by
  induction run with
  | nil port => exact .nil port
  | cons head _ inductionHypothesis =>
      rcases head.congr agree within (asked _ List.mem_cons_self) with ⟨step, inside⟩
      exact .cons step (inductionHypothesis inside fun action member =>
        asked action (List.mem_cons_of_mem _ member))

end

/-! ### Turns end -/

/-- What the head packets of the ring lack to be sent. -/
def Port.shortfall (port : Port Flow) : Nat :=
  (port.ring.map fun entry => (port.fifo entry.1).headD 0 - entry.2).sum

omit [DecidableEq Flow] in
/-- Every turn lowers the shortfall. -/
theorem Turns.shortfall_lt {quantum : Flow → Nat} {port next : Port Flow}
    (positive : ∀ entry ∈ port.ring, 0 < quantum entry.1) (turns : Turns quantum port next) :
    next.shortfall < port.shortfall := by
  cases turns with
  | @intro flow credit size ring sizes head front short moves keeps =>
      have grant : 0 < quantum flow :=
        positive (flow, credit) (by rw [head]; exact List.mem_cons_self)
      unfold Port.shortfall
      rw [moves, keeps, head]
      simp only [List.map_append, List.map_cons, List.map_nil, List.sum_append, List.sum_cons,
        List.sum_nil, front, List.headD_cons]
      omega

/-! ### The range of the credits -/

/-- No flow in the ring may send `limit` bytes or more before its turn ends. -/
def Port.Below (limit : Nat) (port : Port Flow) : Prop := ∀ entry ∈ port.ring, entry.2 < limit

section

variable {quantum : Flow → Nat} {limit : Nat} {port next : Port Flow}

omit [DecidableEq Flow] in
/-- A turn grants little where packets and quanta are small. -/
theorem Turns.below (below : port.Below limit)
    (small : ∀ flow size sizes, port.fifo flow = size :: sizes → size + quantum flow ≤ limit)
    (turns : Turns quantum port next) : next.Below limit := by
  cases turns with
  | @intro flow credit size ring sizes head front short moves keeps =>
      intro entry member
      rw [moves] at member
      cases List.mem_append.mp member with
      | inl behind =>
          apply below entry
          rw [head]
          exact List.mem_cons_of_mem _ behind
      | inr moved =>
          have bound := small flow size sizes front
          rw [List.mem_singleton.mp moved]
          show credit + quantum flow < limit
          omega

theorem Sends.below {output : Option (Flow × Nat)} (below : port.Below limit)
    (sends : Sends port output next) : next.Below limit := by
  cases sends with
  | idle => exact below
  | @packet _ flow credit size ring sizes head front enough moves keeps =>
      intro entry member
      rw [moves] at member
      have listed : ∀ other ∈ ring, other.2 < limit := by
        intro other behind
        apply below other
        rw [head]
        exact List.mem_cons_of_mem _ behind
      split at member
      · exact listed entry member
      · cases List.mem_cons.mp member with
        | inl same =>
            have first : credit < limit := below (flow, credit) (by
              rw [head]
              exact List.mem_cons_self)
            rw [same]
            show credit - size < limit
            omega
        | inr behind => exact listed entry behind

theorem Port.Below.accept (below : port.Below limit) {flow : Flow} (size : Nat)
    (small : quantum flow < limit) : (port.accept quantum flow size).Below limit := by
  intro entry member
  unfold Port.accept at member
  simp only at member
  split at member
  · cases List.mem_append.mp member with
    | inl before => exact below entry before
    | inr joined =>
        rw [List.mem_singleton.mp joined]
        exact small
  · exact below entry member

end

/-! ### Numbered flows -/

/-- What `n` flows have, as a function of the number of a flow. -/
def spread {Value : Type} [Inhabited Value] {n : Nat} (f : Fin n → Value) (number : Nat) : Value :=
  if inside : number < n then f ⟨number, inside⟩ else default

section

variable {Value : Type} [Inhabited Value] {n : Nat}

@[simp] theorem spread_val (f : Fin n → Value) (i : Fin n) : spread f i = f i := by
  unfold spread
  rw [dif_pos i.isLt]

private theorem spread_update (f : Fin n → Value) (i : Fin n) (value : Value) :
    spread (Function.update f i value) = Function.update (spread f) i value := by
  funext number
  by_cases same : number = i
  · subst same
    rw [spread_val, Function.update_self, Function.update_self]
  · rw [Function.update_of_ne same]
    unfold spread
    by_cases inside : number < n
    · rw [dif_pos inside, dif_pos inside, Function.update_of_ne]
      intro equal
      exact same (congrArg Fin.val equal)
    · rw [dif_neg inside, dif_neg inside]

end

/-- The port of `n` flows whose backlogged ones are in `ring`. -/
def Port.numbered {n : Nat} (ring : List (Fin n)) (credit : Fin n → Nat)
    (sizes : Fin n → List Nat) : Port Nat where
  ring := ring.map fun i : Fin n => ((i : Nat), credit i)
  fifo := spread sizes

section

variable {n : Nat} {ring tail : List (Fin n)} {credit credit' quantum : Fin n → Nat}
  {sizes sizes' : Fin n → List Nat} {i : Fin n} {size : Nat} {rest : List Nat}

@[simp] theorem Port.numbered_fifo (ring : List (Fin n)) (credit : Fin n → Nat)
    (sizes : Fin n → List Nat) (i : Fin n) : (Port.numbered ring credit sizes).fifo i = sizes i :=
  spread_val sizes i

/-- Flows that hold nothing leave the port empty. -/
theorem Port.numbered_nil (credit : Fin n → Nat) (empty : ∀ i, sizes i = []) :
    Port.numbered [] credit sizes = Port.empty := by
  apply Port.ext
  · rfl
  · funext number
    show spread sizes number = []
    unfold spread
    split
    · exact empty _
    · rfl

/-- Flows whose credits stay are listed as before. -/
theorem map_numbered (others : ∀ k ∈ ring, credit' k = credit k) :
    ring.map (fun k : Fin n => ((k : Nat), credit' k)) =
      ring.map fun k : Fin n => ((k : Nat), credit k) := by
  apply List.map_congr_left
  intro k member
  rw [others k member]

/-- A turn of numbered flows. -/
theorem turns_numbered (fresh : i ∉ tail) (front : sizes i = size :: rest)
    (short : credit i < size) (others : ∀ k ≠ i, credit' k = credit k)
    (own : credit' i = credit i + quantum i) (keeps : ∀ k, sizes' k = sizes k) :
    Turns (spread quantum) (Port.numbered (i :: tail) credit sizes)
      (Port.numbered (tail ++ [i]) credit' sizes') := by
  have behind : ∀ k ∈ tail, credit' k = credit k := fun k member =>
    others k fun same => fresh (same ▸ member)
  refine .intro rfl ((Port.numbered_fifo _ _ _ i).trans front) short ?_ ?_
  · show (tail ++ [i]).map _ = _
    rw [List.map_append, map_numbered behind, List.map_cons, List.map_nil, own, spread_val]
  · show spread sizes' = spread sizes
    rw [funext keeps]

/-- A packet of numbered flows leaves. -/
theorem sends_numbered (fresh : i ∉ tail) (front : sizes i = size :: rest)
    (enough : size ≤ credit i) (others : ∀ k ≠ i, credit' k = credit k)
    (own : rest ≠ [] → credit' i = credit i - size)
    (leaves : ∀ k, sizes' k = Function.update sizes i rest k) :
    Sends (Port.numbered (i :: tail) credit sizes) (some ((i : Nat), size))
      (Port.numbered (if rest = [] then tail else i :: tail) credit' sizes') := by
  have behind : ∀ k ∈ tail, credit' k = credit k := fun k member =>
    others k fun same => fresh (same ▸ member)
  refine .packet rfl ((Port.numbered_fifo _ _ _ i).trans front) enough ?_ ?_
  · show List.map _ _ = _
    by_cases last : rest = []
    · rw [if_pos last, if_pos last]
      exact map_numbered behind
    · rw [if_neg last, if_neg last, List.map_cons, map_numbered behind, own last]
  · show spread sizes' = Function.update (spread sizes) i rest
    rw [funext leaves]
    exact spread_update sizes i rest

/-- Numbered flows take a packet. -/
theorem accept_numbered (fresh : sizes i = [] → i ∉ ring)
    (others : ∀ k ≠ i, credit' k = credit k)
    (own : credit' i = if sizes i = [] then quantum i else credit i)
    (joins : ∀ k, sizes' k = Function.update sizes i (sizes i ++ [size]) k) :
    Port.numbered (if sizes i = [] then ring ++ [i] else ring) credit' sizes' =
      (Port.numbered ring credit sizes).accept (spread quantum) i size := by
  apply Port.ext
  · unfold Port.accept
    rw [Port.numbered_fifo]
    show List.map _ _ = _
    by_cases idle : sizes i = []
    · rw [if_pos idle] at own
      have before : ∀ k ∈ ring, credit' k = credit k := fun k member =>
        others k fun same => fresh idle (same ▸ member)
      simp only [if_pos idle]
      rw [List.map_append, map_numbered before, List.map_cons, List.map_nil, own, spread_val]
      rfl
    · rw [if_neg idle] at own
      simp only [if_neg idle]
      apply map_numbered
      intro k _
      by_cases same : k = i
      · rw [same, own]
      · exact others k same
  · show spread sizes' = Function.update (spread sizes) i (spread sizes i ++ [size])
    rw [funext joins, spread_val]
    exact spread_update sizes i _

end

/-- Ports of numbered flows that are the same go through the flows of the same numbers, with
the same credits and packets. -/
theorem numbered_castLE {n m : Nat} (le : n ≤ m) {ring : List (Fin m)} {ring' : List (Fin n)}
    {credit : Fin m → Nat} {credit' : Fin n → Nat} {sizes : Fin m → List Nat}
    {sizes' : Fin n → List Nat}
    (same : Port.numbered ring credit sizes = Port.numbered ring' credit' sizes') :
    ring = ring'.map (Fin.castLE le) ∧ (∀ i ∈ ring', credit (i.castLE le) = credit' i) ∧
      ∀ i : Fin n, sizes (i.castLE le) = sizes' i := by
  have rings : ring.map (fun i : Fin m => ((i : Nat), credit i)) =
      ring'.map fun i : Fin n => ((i : Nat), credit' i) := congrArg Port.ring same
  have numbers : ring = ring'.map (Fin.castLE le) := by
    apply List.map_injective_iff.mpr Fin.val_injective
    have firsts := congrArg (List.map Prod.fst) rings
    rw [List.map_map, List.map_map] at firsts
    rw [List.map_map]
    exact firsts
  refine ⟨numbers, fun i member => ?_, fun i => ?_⟩
  · rw [numbers, List.map_map, List.map_inj_left] at rings
    exact (Prod.mk.inj (rings i member)).2
  · have value : (Port.numbered ring credit sizes).fifo (i.castLE le : Fin m) =
        (Port.numbered ring' credit' sizes').fifo i := by
      rw [same]
      rfl
    rwa [Port.numbered_fifo, Port.numbered_fifo] at value

end MqEcn.Library.RingSchedule
