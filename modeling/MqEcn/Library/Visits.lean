import Mathlib.Algebra.BigOperators.Group.List.Basic
import Mathlib.Algebra.Order.Ring.Int
import Mathlib.Tactic.Common

/-!
Contract: traces of a cursor that stays on one queue at a time.

Owns: the sends and the moves of such a cursor, the stays between its moves, the bytes a stay
sends, and the rule that a cursor with an allowance for each stay sends no more than that in
a stay, and leaves less of it than the packet it could not send.

Does not own: what an allowance is, or where the cursor moves.
-/

set_option autoImplicit false

namespace MqEcn.Library.Visits

universe u

/-- What a cursor does: it sends a packet of the queue it is on, or it leaves that queue, which
has the size of a head packet left or none. -/
inductive Visit (Queue : Type u) where
  | send (queue : Queue) (size : Nat)
  | move (queue : Queue) (left : Option Nat)
deriving DecidableEq

namespace Visit

variable {Queue : Type u}

/-- The queue the cursor was on. -/
def queue : Visit Queue → Queue
  | send queue _ => queue
  | move queue _ => queue

/-- Bytes sent. -/
def bytes : Visit Queue → Nat
  | send _ size => size
  | move _ _ => 0

def isMove : Visit Queue → Bool
  | send _ _ => false
  | move _ _ => true

end Visit

variable {Queue : Type u}

/-- Bytes sent over a trace. -/
def bytesOf (trace : List (Visit Queue)) : Nat := (trace.map Visit.bytes).sum

/-- Moves of a trace. -/
def movesOf (trace : List (Visit Queue)) : Nat := trace.countP Visit.isMove

/-- A stay that ends with the cursor leaving `queue`: the part of the trace from its start, or
from the move before, to that move. -/
def IsStay (trace stay : List (Visit Queue)) (queue : Queue) (left : Option Nat) : Prop :=
  ∃ before after, trace = before ++ (stay ++ .move queue left :: after) ∧
    (before = [] ∨ ∃ earlier previous size, before = earlier ++ [.move previous size]) ∧
    ∀ visit ∈ stay, visit.isMove = false

/-- The traces of a cursor that is on `queue` and has sent `sent` bytes in this stay, up to
another queue and another number of bytes. -/
inductive Follows (allowance : Queue → Int) :
    Queue → Nat → List (Visit Queue) → Queue → Nat → Prop
  | nil (queue : Queue) (sent : Nat) : Follows allowance queue sent [] queue sent
  | send {queue last : Queue} {sent size total : Nat} {rest : List (Visit Queue)}
      (covered : (sent + size : Nat) ≤ allowance queue)
      (tail : Follows allowance queue (sent + size) rest last total) :
      Follows allowance queue sent (.send queue size :: rest) last total
  | move {queue next last : Queue} {sent total : Nat} {left : Option Nat}
      {rest : List (Visit Queue)} (exhausted : ∀ size ∈ left, allowance queue < sent + size)
      (tail : Follows allowance next 0 rest last total) :
      Follows allowance queue sent (.move queue left :: rest) last total

namespace Follows

variable {allowance : Queue → Int} {queue middle last : Queue} {sent among total : Nat}
  {trace rest : List (Visit Queue)}

theorem append (first : Follows allowance queue sent trace middle among)
    (second : Follows allowance middle among rest last total) :
    Follows allowance queue sent (trace ++ rest) last total := by
  induction first with
  | nil => exact second
  | send covered _ inductionHypothesis => exact .send covered (inductionHypothesis second)
  | move exhausted _ inductionHypothesis => exact .move exhausted (inductionHypothesis second)

private theorem split (follows : Follows allowance queue sent (trace ++ rest) last total) :
    ∃ middle among, Follows allowance queue sent trace middle among ∧
      Follows allowance middle among rest last total := by
  induction trace generalizing queue sent with
  | nil => exact ⟨queue, sent, .nil queue sent, follows⟩
  | cons visit trace inductionHypothesis =>
      cases follows with
      | send covered tail =>
          obtain ⟨middle, among, first, second⟩ := inductionHypothesis tail
          exact ⟨middle, among, .send covered first, second⟩
      | move exhausted tail =>
          obtain ⟨middle, among, first, second⟩ := inductionHypothesis tail
          exact ⟨middle, among, .move exhausted first, second⟩

/-- Without a move the cursor stays where it is. -/
theorem of_no_move (follows : Follows allowance queue sent trace last total)
    (stays : ∀ visit ∈ trace, visit.isMove = false) (covered : (sent : Int) ≤ allowance queue) :
    last = queue ∧ total = sent + bytesOf trace ∧ (total : Int) ≤ allowance queue ∧
      ∀ visit ∈ trace, visit.queue = queue := by
  induction follows with
  | nil queue sent => exact ⟨rfl, rfl, covered, fun visit member => nomatch member⟩
  | @send queue last sent size total rest enough tail inductionHypothesis =>
      obtain ⟨same, sum, below, each⟩ := inductionHypothesis
        (fun visit member => stays visit (List.mem_cons_of_mem _ member)) enough
      refine ⟨same, ?_, below, fun visit member => ?_⟩
      · rw [sum, Nat.add_assoc]
        rfl
      · rcases List.mem_cons.mp member with rfl | inside
        · rfl
        · exact each visit inside
  | move exhausted tail => exact absurd (stays _ List.mem_cons_self) (by simp [Visit.isMove])

/-- After a move nothing has been sent. -/
theorem total_eq_zero {previous : Queue} {size : Option Nat}
    (follows : Follows allowance queue sent (trace ++ [.move previous size]) last total) :
    total = 0 := by
  obtain ⟨middle, among, _, second⟩ := follows.split
  cases second with
  | move exhausted tail =>
      cases tail with
      | nil => rfl

/-- **Stays.** All that a stay sends is sent from one queue, within its allowance, and what it
leaves of the allowance is less than a packet it leaves behind. -/
theorem stay {stay : List (Visit Queue)} {stayed : Queue} {left : Option Nat}
    (follows : Follows allowance queue 0 trace last total) (nonneg : ∀ queue, 0 ≤ allowance queue)
    (isStay : IsStay trace stay stayed left) :
    (∀ visit ∈ stay, visit.queue = stayed) ∧ (bytesOf stay : Int) ≤ allowance stayed ∧
      ∀ size ∈ left, allowance stayed - size < bytesOf stay := by
  obtain ⟨before, after, rfl, first, stays⟩ := isStay
  obtain ⟨start, carried, arrives, within⟩ := follows.split
  obtain ⟨finish, sum, sends, leaves⟩ := within.split
  have fresh : carried = 0 := by
    rcases first with rfl | ⟨earlier, previous, size, rfl⟩
    · cases arrives with
      | nil => rfl
    · exact arrives.total_eq_zero
  subst fresh
  obtain ⟨rfl, sumEq, below, each⟩ := sends.of_no_move stays (by exact_mod_cast nonneg start)
  rw [Nat.zero_add] at sumEq
  subst sumEq
  cases leaves with
  | move exhausted tail =>
      refine ⟨each, below, fun size member => ?_⟩
      have short := exhausted size member
      omega

end Follows

end MqEcn.Library.Visits
