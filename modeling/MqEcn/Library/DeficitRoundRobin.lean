import Mathlib.Algebra.Order.Field.Rat
import Mathlib.Algebra.BigOperators.Group.List.Basic
import Mathlib.Data.List.Nodup
import Mathlib.Tactic.FieldSimp
import Mathlib.Tactic.Linarith
import Mathlib.Tactic.Positivity
import MqEcn.Library.Transition

/-!
Contract: deficit round robin over an arbitrary set of flows.

Owns: the abstract scheduler (a ring of backlogged flows and one deficit a
flow), its moves, the alternation law of the turns of two flows that stay in the
ring, the range of the deficits, and the weighted fairness that follows from the
two.

Does not own: packets, clocks, or why a move is taken. Flows that join and leave
between the turns of the two observed flows are unrestricted.
-/

set_option autoImplicit false

namespace MqEcn.Library.DeficitRoundRobin

open MqEcn.Library.Transition

variable {Flow : Type} [DecidableEq Flow]

/-- The ring of backlogged flows, head first, and the deficit of each flow. -/
structure State (Flow : Type) where
  ring : List Flow
  deficit : Flow → Nat

/-- What the scheduler can do. -/
inductive Move (Flow : Type) where
  /-- A flow becomes backlogged and joins at the tail. -/
  | join (flow : Flow)
  /-- The head cannot afford its packet and moves to the tail. -/
  | turn (flow : Flow)
  /-- The head sends `size` bytes. -/
  | serve (flow : Flow) (size : Nat)
  /-- The head has nothing left to send. -/
  | leave (flow : Flow)
deriving DecidableEq

/-- One move. `quantum` is granted when a flow joins and at every turn; `limit`
bounds the packet a turning head could not afford. -/
inductive Step (quantum : Flow → Nat) (limit : Nat) : State Flow → Move Flow → State Flow → Prop
  | join {ring : List Flow} {deficit : Flow → Nat} {flow : Flow} (fresh : flow ∉ ring) :
      Step quantum limit ⟨ring, deficit⟩ (.join flow)
        ⟨ring ++ [flow], Function.update deficit flow (quantum flow)⟩
  | turn {ring : List Flow} {deficit : Flow → Nat} {flow : Flow}
      (blocked : deficit flow < limit) :
      Step quantum limit ⟨flow :: ring, deficit⟩ (.turn flow)
        ⟨ring ++ [flow], Function.update deficit flow (deficit flow + quantum flow)⟩
  | serve {ring : List Flow} {deficit : Flow → Nat} {flow : Flow} {size : Nat}
      (affordable : size ≤ deficit flow) :
      Step quantum limit ⟨flow :: ring, deficit⟩ (.serve flow size)
        ⟨flow :: ring, Function.update deficit flow (deficit flow - size)⟩
  | leave {ring : List Flow} {deficit : Flow → Nat} {flow : Flow} :
      Step quantum limit ⟨flow :: ring, deficit⟩ (.leave flow) ⟨ring, deficit⟩

/-- Bytes a list of moves sends from one flow. -/
def sent (flow : Flow) : List (Move Flow) → Nat
  | [] => 0
  | .serve served size :: rest => (if served = flow then size else 0) + sent flow rest
  | _ :: rest => sent flow rest

/-- Turns a list of moves gives one flow. -/
def turns (flow : Flow) (moves : List (Move Flow)) : Nat :=
  moves.count (.turn flow)

@[simp] theorem sent_append (flow : Flow) (left right : List (Move Flow)) :
    sent flow (left ++ right) = sent flow left + sent flow right := by
  induction left with
  | nil => simp [sent]
  | cons head tail inductionHypothesis =>
      cases head <;> simp [sent, inductionHypothesis, Nat.add_assoc]

variable {quantum : Flow → Nat} {limit : Nat}

/-! ### Turns alternate -/

/-- `1` when `left` stands before `right` in the ring, else `0`. -/
def precedes (ring : List Flow) (left right : Flow) : Nat :=
  if ring.idxOf left < ring.idxOf right then 1 else 0

private theorem precedes_le_one (ring : List Flow) (left right : Flow) :
    precedes ring left right ≤ 1 := by
  unfold precedes
  split <;> omega

private theorem precedes_append {ring : List Flow} {left right : Flow} (extra : List Flow)
    (leftMember : left ∈ ring) (rightMember : right ∈ ring) :
    precedes (ring ++ extra) left right = precedes ring left right := by
  unfold precedes
  rw [List.idxOf_append_of_mem leftMember, List.idxOf_append_of_mem rightMember]

private theorem precedes_cons {ring : List Flow} {head left right : Flow}
    (notLeft : head ≠ left) (notRight : head ≠ right) :
    precedes (head :: ring) left right = precedes ring left right := by
  unfold precedes
  rw [List.idxOf_cons_ne _ notLeft, List.idxOf_cons_ne _ notRight]
  simp only [Nat.succ_lt_succ_iff]

private theorem precedes_head {ring : List Flow} {left right : Flow} (different : left ≠ right) :
    precedes (left :: ring) left right = 1 := by
  unfold precedes
  rw [List.idxOf_cons_self, List.idxOf_cons_ne _ different]
  simp

private theorem precedes_tail {ring : List Flow} {left right : Flow} (fresh : left ∉ ring)
    (member : right ∈ ring) :
    precedes (ring ++ [left]) left right = 0 ∧ precedes (ring ++ [left]) right left = 1 := by
  have leftIndex : (ring ++ [left]).idxOf left = ring.length := by
    rw [List.idxOf_append_of_notMem fresh]
    simp
  have rightIndex : (ring ++ [left]).idxOf right < ring.length := by
    rw [List.idxOf_append_of_mem member]
    exact List.idxOf_lt_length_of_mem member
  unfold precedes
  rw [leftIndex]
  constructor
  · rw [if_neg (by omega)]
  · rw [if_pos rightIndex]

private theorem precedes_swap {ring : List Flow} {left right : Flow} (member : left ∈ ring)
    (different : left ≠ right) :
    precedes ring left right + precedes ring right left = 1 := by
  have distinct : ring.idxOf left ≠ ring.idxOf right := fun equal =>
    different ((List.idxOf_inj member).mp equal)
  unfold precedes
  split <;> split <;> omega

private theorem nodup_step {first last : State Flow} {move : Move Flow}
    (step : Step quantum limit first move last) (nodup : first.ring.Nodup) :
    last.ring.Nodup := by
  have fresh_append : ∀ {ring : List Flow} {flow : Flow}, ring.Nodup → flow ∉ ring →
      (ring ++ [flow]).Nodup := by
    intro ring flow nodup fresh
    simp only [List.nodup_append, List.nodup_singleton, List.mem_singleton]
    refine ⟨nodup, trivial, ?_⟩
    rintro other member _ rfl equal
    exact fresh (equal ▸ member)
  cases step with
  | join fresh => exact fresh_append nodup fresh
  | turn =>
      simp only [List.nodup_cons] at nodup
      exact fresh_append nodup.2 nodup.1
  | serve => exact nodup
  | leave => exact (List.nodup_cons.mp nodup).2

/-- A flow leaves the ring only by leaving. -/
theorem mem_step {first last : State Flow} {move : Move Flow} {flow : Flow}
    (step : Step quantum limit first move last) (member : flow ∈ first.ring)
    (stays : move ≠ .leave flow) : flow ∈ last.ring := by
  cases step with
  | join => exact List.mem_append_left _ member
  | turn =>
      simp only [List.mem_cons, List.mem_append] at member ⊢
      tauto
  | serve => exact member
  | leave =>
      simp only [List.mem_cons] at member
      rcases member with rfl | member
      · exact absurd rfl stays
      · exact member

theorem mem_run {first last : State Flow} {moves : List (Move Flow)} {flow : Flow}
    (run : Run (Step quantum limit) first moves last) (member : flow ∈ first.ring)
    (stays : .leave flow ∉ moves) : flow ∈ last.ring := by
  induction run with
  | nil => exact member
  | cons head _ inductionHypothesis =>
      simp only [List.mem_cons, not_or] at stays
      exact inductionHypothesis (mem_step head member (Ne.symm stays.1)) stays.2

private theorem turns_step {first last : State Flow} {move : Move Flow} {left right : Flow}
    (step : Step quantum limit first move last) (nodup : first.ring.Nodup)
    (different : left ≠ right) (leftMember : left ∈ first.ring)
    (rightMember : right ∈ first.ring)
    (leftStays : Move.leave left ≠ move) (rightStays : Move.leave right ≠ move) :
    turns left [move] + precedes last.ring left right =
      turns right [move] + precedes first.ring left right := by
  cases step with
  | join => simp [turns, precedes_append _ leftMember rightMember]
  | @turn ring deficit flow blocked =>
      simp only [List.nodup_cons] at nodup
      simp only [List.mem_cons] at leftMember rightMember
      by_cases isLeft : flow = left
      · subst isLeft
        have member : right ∈ ring := rightMember.resolve_left (Ne.symm different)
        simp [turns, different, precedes_head different, (precedes_tail nodup.1 member).1]
      · by_cases isRight : flow = right
        · subst isRight
          have member : left ∈ ring := leftMember.resolve_left different
          have before : precedes (flow :: ring) left flow + precedes (flow :: ring) flow left = 1 :=
            precedes_swap (by simp [member]) different
          rw [precedes_head (Ne.symm different)] at before
          simp [turns, (precedes_tail nodup.1 member).2, Ne.symm different]
          omega
        · have leftRest : left ∈ ring := leftMember.resolve_left (Ne.symm isLeft)
          have rightRest : right ∈ ring := rightMember.resolve_left (Ne.symm isRight)
          simp [turns, isLeft, isRight, precedes_cons isLeft isRight,
            precedes_append _ leftRest rightRest]
  | serve => simp [turns]
  | @leave ring deficit flow =>
      have notLeft : flow ≠ left := fun equal => leftStays (by rw [equal])
      have notRight : flow ≠ right := fun equal => rightStays (by rw [equal])
      simp [turns, precedes_cons notLeft notRight]

/-- **Turns alternate.** While two flows stay in the ring, what one has turned
more than the other is what their order in the ring has changed. -/
theorem turns_alternate {first last : State Flow} {moves : List (Move Flow)}
    {left right : Flow} (run : Run (Step quantum limit) first moves last)
    (nodup : first.ring.Nodup) (different : left ≠ right)
    (leftMember : left ∈ first.ring) (rightMember : right ∈ first.ring)
    (leftStays : .leave left ∉ moves) (rightStays : .leave right ∉ moves) :
    turns left moves + precedes last.ring left right =
      turns right moves + precedes first.ring left right := by
  induction run with
  | nil => simp [turns]
  | @cons first middle last move moves head tail inductionHypothesis =>
      simp only [List.mem_cons, not_or] at leftStays rightStays
      have after := inductionHypothesis (nodup_step head nodup)
        (mem_step head leftMember (Ne.symm leftStays.1))
        (mem_step head rightMember (Ne.symm rightStays.1)) leftStays.2 rightStays.2
      simp only [turns, List.count_cons] at after ⊢
      have exchange := turns_step head nodup different leftMember rightMember
        leftStays.1 rightStays.1
      simp only [turns, List.count_cons, List.count_nil] at exchange
      omega

/-! ### The range of the deficits -/

/-- No flow is in the ring twice, and no deficit reaches a quantum above the
limit. -/
structure Sound (quantum : Flow → Nat) (limit : Nat) (state : State Flow) : Prop where
  nodup : state.ring.Nodup
  range : ∀ flow ∈ state.ring, state.deficit flow < quantum flow + limit

theorem Sound.step (positive : 0 < limit) {first last : State Flow} {move : Move Flow}
    (step : Step quantum limit first move last) (sound : Sound quantum limit first) :
    Sound quantum limit last := by
  refine ⟨nodup_step step sound.nodup, fun other member => ?_⟩
  cases step with
  | @join ring deficit flow fresh =>
      by_cases same : other = flow
      · subst same
        simp only [Function.update_self]
        omega
      · have member' : other ∈ ring := by simpa [same] using member
        simpa [Function.update_of_ne same] using sound.range other member'
  | @turn ring deficit flow blocked =>
      by_cases same : other = flow
      · subst same
        simp only [Function.update_self]
        omega
      · have member' : other ∈ ring := by simpa [same] using member
        simpa [Function.update_of_ne same] using
          sound.range other (List.mem_cons_of_mem _ member')
  | @serve ring deficit flow size affordable =>
      have before := sound.range other member
      by_cases same : other = flow
      · subst same
        simp only [Function.update_self] at before ⊢
        omega
      · simpa [Function.update_of_ne same] using before
  | leave => exact sound.range other (List.mem_cons_of_mem _ member)

/-! ### Weighted fairness -/

private theorem ledger_step {first last : State Flow} {move : Move Flow} {flow : Flow}
    (step : Step quantum limit first move last) (member : flow ∈ first.ring) :
    sent flow [move] + last.deficit flow =
      first.deficit flow + turns flow [move] * quantum flow := by
  cases step with
  | @join ring deficit joining fresh =>
      have other : flow ≠ joining := fun equal => fresh (equal ▸ member)
      simp [sent, turns, Function.update_of_ne other]
  | @turn ring deficit turning blocked =>
      by_cases same : turning = flow
      · subst same
        simp [sent, turns]
      · simp [sent, turns, same, Function.update_of_ne (Ne.symm same)]
  | @serve ring deficit served size affordable =>
      by_cases same : served = flow
      · subst same
        simp only [sent, if_pos, turns, Function.update_self]
        simp
        omega
      · simp [sent, turns, same, Function.update_of_ne (Ne.symm same)]
  | leave => simp [sent, turns]

/-- While a flow stays in the ring, its deficit is what it had, plus a quantum a
turn, less what it sent. -/
theorem sent_add_deficit {first last : State Flow} {moves : List (Move Flow)} {flow : Flow}
    (run : Run (Step quantum limit) first moves last) (member : flow ∈ first.ring)
    (stays : .leave flow ∉ moves) :
    sent flow moves + last.deficit flow =
      first.deficit flow + turns flow moves * quantum flow := by
  induction run with
  | nil => simp [sent, turns]
  | @cons first middle last move moves head tail inductionHypothesis =>
      simp only [List.mem_cons, not_or] at stays
      have after := inductionHypothesis (mem_step head member (Ne.symm stays.1)) stays.2
      have ledger := ledger_step head member
      simp only [turns, List.count_cons, Nat.add_mul] at after ⊢
      have split : sent flow (move :: moves) = sent flow [move] + sent flow moves :=
        sent_append flow [move] moves
      rw [split]
      simp only [turns, List.count_cons, List.count_nil, Nat.add_mul] at ledger
      omega

/-- The bytes a flow sent, counted in quanta, are its turns up to the range of
its deficit. -/
theorem abs_sent_sub_turns_le {first last : State Flow} {moves : List (Move Flow)}
    {flow : Flow} (run : Run (Step quantum limit) first moves last)
    (before : Sound quantum limit first) (after : Sound quantum limit last)
    (positive : 0 < quantum flow) (member : flow ∈ first.ring) (member' : flow ∈ last.ring)
    (stays : .leave flow ∉ moves) :
    |(sent flow moves : ℚ) / quantum flow - turns flow moves| ≤
      1 + (limit : ℚ) / quantum flow := by
  have quantumPos : (0 : ℚ) < quantum flow := by exact_mod_cast positive
  have ledger : (sent flow moves : ℚ) + last.deficit flow =
      first.deficit flow + turns flow moves * quantum flow := by
    exact_mod_cast sent_add_deficit run member stays
  have range : (first.deficit flow : ℚ) ≤ quantum flow + limit := by
    exact_mod_cast (before.range flow member).le
  have range' : (last.deficit flow : ℚ) ≤ quantum flow + limit := by
    exact_mod_cast (after.range flow member').le
  have nonneg : (0 : ℚ) ≤ first.deficit flow := Nat.cast_nonneg _
  have nonneg' : (0 : ℚ) ≤ last.deficit flow := Nat.cast_nonneg _
  have scaled : (sent flow moves : ℚ) / quantum flow - turns flow moves =
      (first.deficit flow - last.deficit flow) / quantum flow := by
    rw [eq_div_iff quantumPos.ne', sub_mul, div_mul_cancel₀ _ quantumPos.ne']
    linarith
  have room : 1 + (limit : ℚ) / quantum flow = (quantum flow + limit) / quantum flow := by
    rw [add_div, div_self quantumPos.ne']
  rw [scaled, room, abs_div, abs_of_pos quantumPos]
  refine div_le_div_of_nonneg_right ?_ quantumPos.le
  rw [abs_le]
  constructor <;> linarith

/-- While two flows stay in the ring, the bytes they send, each counted in its own quanta,
differ by a constant, however long the run. -/
theorem abs_sent_div_sub_le {first last : State Flow} {moves : List (Move Flow)}
    {left right : Flow} (run : Run (Step quantum limit) first moves last)
    (before : Sound quantum limit first) (after : Sound quantum limit last)
    (different : left ≠ right) (leftPositive : 0 < quantum left)
    (rightPositive : 0 < quantum right)
    (leftMember : left ∈ first.ring) (leftMember' : left ∈ last.ring)
    (rightMember : right ∈ first.ring) (rightMember' : right ∈ last.ring)
    (leftStays : .leave left ∉ moves) (rightStays : .leave right ∉ moves) :
    |(sent left moves : ℚ) / quantum left - (sent right moves : ℚ) / quantum right| ≤
      3 + (limit : ℚ) / quantum left + (limit : ℚ) / quantum right := by
  have alternate := turns_alternate run before.nodup different leftMember rightMember
    leftStays rightStays
  have start := precedes_le_one first.ring left right
  have finish := precedes_le_one last.ring left right
  have turnsLe : (turns left moves : ℚ) ≤ turns right moves + 1 := by
    exact_mod_cast (by omega : turns left moves ≤ turns right moves + 1)
  have turnsGe : (turns right moves : ℚ) ≤ turns left moves + 1 := by
    exact_mod_cast (by omega : turns right moves ≤ turns left moves + 1)
  have leftShare := abs_sent_sub_turns_le run before after leftPositive
    leftMember leftMember' leftStays
  have rightShare := abs_sent_sub_turns_le run before after rightPositive
    rightMember rightMember' rightStays
  rw [abs_le] at leftShare rightShare ⊢
  constructor <;> linarith [leftShare.1, leftShare.2, rightShare.1, rightShare.2]

/-- **Weighted fairness.** The same where every flow has a positive quantum. -/
theorem weighted_fairness {first last : State Flow} {moves : List (Move Flow)}
    {left right : Flow} (run : Run (Step quantum limit) first moves last)
    (before : Sound quantum limit first) (after : Sound quantum limit last)
    (different : left ≠ right) (positive : ∀ flow, 0 < quantum flow)
    (leftMember : left ∈ first.ring) (leftMember' : left ∈ last.ring)
    (rightMember : right ∈ first.ring) (rightMember' : right ∈ last.ring)
    (leftStays : .leave left ∉ moves) (rightStays : .leave right ∉ moves) :
    |(sent left moves : ℚ) / quantum left - (sent right moves : ℚ) / quantum right| ≤
      3 + (limit : ℚ) / quantum left + (limit : ℚ) / quantum right :=
  abs_sent_div_sub_le run before after different (positive left) (positive right) leftMember
    leftMember' rightMember rightMember' leftStays rightStays

end MqEcn.Library.DeficitRoundRobin
