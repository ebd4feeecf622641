import Mathlib.Data.List.Nodup
import Mathlib.Logic.Function.Basic

/-!
Contract: intrusive singly linked lists.

Owns: the links of a list with a head and one `next` pointer a node, insertion at the
tail by a walk over the pointers, removal of the head, the nodes a chain of pointers goes
through, and what the two operations do to them.

The walk runs on fuel: `none` means that it has not come to the end.

Does not own: what the nodes carry besides the pointer.
-/

set_option autoImplicit false

namespace MqEcn.Library.LinkedList

universe u

variable {Node : Type u}

/-- The pointer of the list head and those of the nodes. -/
structure Links (Node : Type u) where
  first : Option Node
  next : Node → Option Node

/-- Following `next` from `start` goes through `nodes` and ends. -/
inductive Chain (next : Node → Option Node) : Option Node → List Node → Prop
  | nil : Chain next none []
  | cons {node : Node} {nodes : List Node} (tail : Chain next (next node) nodes) :
      Chain next (some node) (node :: nodes)

namespace Links

/-- The pointer of a place: of the list head for `none`. -/
def after (links : Links Node) : Option Node → Option Node
  | none => links.first
  | some node => links.next node

variable [DecidableEq Node]

def setAfter (links : Links Node) (place target : Option Node) : Links Node :=
  match place with
  | none => { links with first := target }
  | some node => { links with next := Function.update links.next node target }

/-- The walk from `place` to the end of the list, where `node` is appended. -/
def insertTail (links : Links Node) (node : Node) : Nat → Option Node → Option (Links Node)
  | 0, _ => none
  | fuel + 1, place =>
      match links.after place with
      | none => some ((links.setAfter place (some node)).setAfter (some node) none)
      | some behind => insertTail links node fuel (some behind)

/-- The head, and the list without it. The pointer of the head stays as it is. -/
def removeHead (links : Links Node) : Option (Node × Links Node) :=
  links.first.map fun head => (head, { links with first := links.next head })

end Links

namespace Chain

variable {next : Node → Option Node} {start : Option Node} {nodes : List Node}

private theorem eq_none (chain : Chain next start []) : start = none := by
  cases chain
  rfl

theorem eq_some {node : Node} (chain : Chain next start (node :: nodes)) :
    start = some node ∧ Chain next (next node) nodes := by
  cases chain with
  | cons tail => exact ⟨rfl, tail⟩

/-- A chain goes one way only. -/
theorem unique {others : List Node} (chain : Chain next start nodes)
    (other : Chain next start others) : nodes = others := by
  induction chain generalizing others with
  | nil =>
      cases other
      rfl
  | cons _ inductionHypothesis =>
      cases other with
      | cons tail => rw [inductionHypothesis tail]

/-- The chain from a node it goes through. -/
theorem suffix {before after : List Node} {node : Node}
    (chain : Chain next start (before ++ node :: after)) :
    Chain next (some node) (node :: after) := by
  induction before generalizing start with
  | nil =>
      cases chain with
      | cons tail => exact .cons tail
  | cons head before inductionHypothesis =>
      cases chain with
      | cons tail => exact inductionHypothesis tail

/-- A chain that ends is acyclic. -/
theorem nodup (chain : Chain next start nodes) : nodes.Nodup := by
  induction chain with
  | nil => exact List.nodup_nil
  | @cons node nodes tail inductionHypothesis =>
      refine List.nodup_cons.mpr ⟨fun again => ?_, inductionHypothesis⟩
      rcases List.append_of_mem again with ⟨before, after, rfl⟩
      have loop := tail.suffix.unique (.cons tail)
      have lengths := congrArg List.length loop
      simp only [List.length_cons, List.length_append] at lengths
      omega

end Chain

namespace Links

variable [DecidableEq Node] {links : Links Node} {node : Node}

private theorem after_setAfter (links : Links Node) (place target other : Option Node) :
    (links.setAfter place target).after other =
      if other = place then target else links.after other := by
  cases place with
  | none =>
      cases other with
      | none => rfl
      | some node => rfl
  | some node =>
      cases other with
      | none => rfl
      | some other => simp [setAfter, after, Function.update_apply]

/-- A walk over a chain ends, appends the node, and changes no pointer but that of the last
place and that of the node. -/
theorem insertTail_of_chain {nodes : List Node} {place : Option Node} {fuel : Nat}
    (chain : Chain links.next (links.after place) nodes) (fresh : node ∉ nodes)
    (apart : place ≠ some node) (ahead : ∀ other ∈ nodes, place ≠ some other)
    (enough : nodes.length < fuel) :
    ∃ links', links.insertTail node fuel place = some links' ∧
      Chain links'.next (links'.after place) (nodes ++ [node]) ∧
      ∀ other, other ≠ place → other ∉ nodes.map some → other ≠ some node →
        links'.after other = links.after other := by
  induction nodes generalizing place fuel with
  | nil =>
      rcases Nat.exists_eq_succ_of_ne_zero (Nat.ne_of_gt enough) with ⟨fuel, rfl⟩
      refine ⟨(links.setAfter place (some node)).setAfter (some node) none, ?_, ?_, ?_⟩
      · rw [insertTail, chain.eq_none]
      · have ends : ((links.setAfter place (some node)).setAfter (some node) none).after
            (some node) = none := by
          rw [after_setAfter, if_pos rfl]
        rw [after_setAfter, if_neg apart, after_setAfter, if_pos rfl]
        apply Chain.cons
        show Chain _ (((links.setAfter place (some node)).setAfter (some node) none).after
          (some node)) []
        rw [ends]
        exact .nil
      · intro other notPlace _ notNode
        rw [after_setAfter, if_neg notNode, after_setAfter, if_neg notPlace]
  | cons behind rest inductionHypothesis =>
      obtain ⟨fuel, rfl⟩ := Nat.exists_eq_succ_of_ne_zero (Nat.ne_of_gt (Nat.zero_lt_of_lt enough))
      have here := chain.eq_some.1
      have tail : Chain links.next (links.after (some behind)) rest := chain.eq_some.2
      rcases not_or.mp (mt List.mem_cons.mpr fresh) with ⟨freshHere, freshRest⟩
      have once := (List.nodup_cons.mp chain.nodup).1
      obtain ⟨links', walks, chain', frame⟩ := inductionHypothesis tail freshRest
        (fun same => freshHere (Option.some.inj same).symm)
        (fun other member same => once (Option.some.inj same ▸ member))
        (Nat.lt_of_succ_lt_succ enough)
      have kept : links'.after place = some behind := by
        rw [frame place (ahead behind List.mem_cons_self) _ apart, here]
        intro inside
        rcases List.mem_map.mp inside with ⟨other, member, same⟩
        exact ahead other (List.mem_cons_of_mem _ member) same.symm
      refine ⟨links', ?_, ?_, ?_⟩
      · rw [insertTail, here]
        exact walks
      · rw [kept]
        exact .cons chain'
      · intro other notPlace notNodes notNode
        rw [List.map_cons, List.mem_cons, not_or] at notNodes
        exact frame other notNodes.1 notNodes.2 notNode

/-- Insertion at the tail of a list. -/
theorem insertTail_head {nodes : List Node} {fuel : Nat}
    (chain : Chain links.next links.first nodes) (fresh : node ∉ nodes)
    (enough : nodes.length < fuel) :
    ∃ links', links.insertTail node fuel none = some links' ∧
      Chain links'.next links'.first (nodes ++ [node]) := by
  have walk : Chain links.next (links.after none) nodes := chain
  obtain ⟨links', walks, chain', _⟩ :=
    insertTail_of_chain walk fresh nofun (fun _ _ => nofun) enough
  exact ⟨links', walks, chain'⟩

omit [DecidableEq Node] in
/-- Removal of the head of a list. -/
theorem removeHead_of_chain {nodes : List Node}
    (chain : Chain links.next links.first (node :: nodes)) :
    links.removeHead = some (node, { links with first := links.next node }) ∧
      Chain links.next (links.next node) nodes := by
  rcases chain.eq_some with ⟨here, tail⟩
  unfold removeHead
  rw [here]
  exact ⟨rfl, tail⟩

end Links

end MqEcn.Library.LinkedList
