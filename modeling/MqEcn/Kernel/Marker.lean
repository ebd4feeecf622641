import MqEcn.Kernel.Codel
import MqEcn.Library.InverseSqrt
import MqEcn.Library.Transition

/-!
Contract: the fixed-point arithmetic of the CoDel marker of a class.

Owns: the Newton step over unbounded integers, the condition under which the code computes
it, what one call of `codel_marking` does to `count`, `lastcount` and `rec_inv_sqrt`, and the
range they keep over every sequence of calls.

Does not own: the iteration itself, or when the marker is called.
-/

set_option autoImplicit false

namespace MqEcn.Kernel

open MqEcn.Library
open MqEcn.Library.Transition
open MqEcn.Library.Word

/-! ### The Newton step over unbounded integers -/

namespace Codel

/-- `invsqrt` of `codel_Newton_step`. -/
def invsqrt (codel : Codel) : Nat := codel.recInvSqrt <<< 16

/-- `invsqrt2`. -/
def invsqrt2 (codel : Codel) : Nat := (codel.invsqrt * codel.invsqrt) >>> 32

/-- `val` before the multiplication. -/
def val (codel : Codel) : Nat := ((3 <<< 32) - codel.count * codel.invsqrt2) >>> 2

/-- What is stored to `rec_inv_sqrt`. -/
def nextRecInvSqrt (codel : Codel) : Nat :=
  ((codel.val * codel.invsqrt) >>> (32 - 2 + 1)) >>> 16

end Codel

/-- No operation of `codel_Newton_step` on these fields leaves the range of its type: the two
32-bit values are not cut, the subtraction does not wrap, the 64-bit product does not overflow,
and the result is a `u16`. -/
structure NewtonFits (codel : Codel) : Prop where
  invsqrt : codel.invsqrt < 2 ^ 32
  invsqrt2 : codel.invsqrt2 < 2 ^ 32
  subtraction : codel.count * codel.invsqrt2 ≤ 3 <<< 32
  product : codel.val * codel.invsqrt < 2 ^ 64
  result : codel.nextRecInvSqrt < 2 ^ 16

/-- Then the code computes the step over unbounded integers. -/
theorem NewtonFits.exact {codel : Codel} (fits : NewtonFits codel) :
    codelNewtonStep codel = { codel with recInvSqrt := codel.nextRecInvSqrt } := by
  have three : (3 <<< 32 : Nat) < 2 ^ 64 := by decide
  have invsqrt : u32 (codel.recInvSqrt <<< 16) = codel.invsqrt := u32_of_lt fits.invsqrt
  have square : u64 (codel.invsqrt * codel.invsqrt) = codel.invsqrt * codel.invsqrt := by
    apply u64_of_lt
    calc codel.invsqrt * codel.invsqrt < 2 ^ 32 * 2 ^ 32 :=
          Nat.mul_lt_mul'' fits.invsqrt fits.invsqrt
      _ = 2 ^ 64 := rfl
  have invsqrt2 : u32 ((codel.invsqrt * codel.invsqrt) >>> 32) = codel.invsqrt2 :=
    u32_of_lt fits.invsqrt2
  have counted : u64 (codel.count * codel.invsqrt2) = codel.count * codel.invsqrt2 :=
    u64_of_lt (lt_of_le_of_lt fits.subtraction three)
  have difference : u64Sub (3 <<< 32) (codel.count * codel.invsqrt2) =
      (3 <<< 32) - codel.count * codel.invsqrt2 := u64Sub_of_le three fits.subtraction
  have val : ((3 <<< 32) - codel.count * codel.invsqrt2) >>> 2 = codel.val := rfl
  have product : u64 (codel.val * codel.invsqrt) = codel.val * codel.invsqrt :=
    u64_of_lt fits.product
  unfold codelNewtonStep
  simp only [invsqrt, square, invsqrt2, counted, difference, val, product]
  have result : u16 ((codel.val * codel.invsqrt) >>> (32 - 2 + 1) >>> 16) =
      codel.nextRecInvSqrt := Nat.mod_eq_of_lt fits.result
  rw [result]

private theorem invsqrt2_eq (codel : Codel) : codel.invsqrt2 = codel.recInvSqrt ^ 2 := by
  unfold Codel.invsqrt2 Codel.invsqrt
  rw [Nat.shiftLeft_eq, Nat.shiftRight_eq_div_pow]
  have scaled : codel.recInvSqrt * 2 ^ 16 * (codel.recInvSqrt * 2 ^ 16) =
      codel.recInvSqrt ^ 2 * 2 ^ 32 := by ring
  rw [scaled, Nat.mul_div_cancel _ (by decide)]

/-- The step is that of Newton's iteration, with one at `2 ^ 32`. -/
theorem nextRecInvSqrt_eq (codel : Codel) :
    codel.nextRecInvSqrt = InverseSqrt.newton (2 ^ 30) codel.count codel.recInvSqrt := by
  unfold Codel.nextRecInvSqrt Codel.val InverseSqrt.newton
  rw [invsqrt2_eq]
  unfold Codel.invsqrt
  rw [Nat.shiftLeft_eq codel.recInvSqrt, ← Nat.shiftRight_add, Nat.shiftRight_eq_div_pow,
    Nat.shiftRight_eq_div_pow, ← Nat.mul_assoc]
  exact Nat.mul_div_mul_right _ (2 ^ 31) (Nat.two_pow_pos 16)

/-- Fields from which the step stays in range: a count from two on, and a `rec_inv_sqrt` whose
square is at most twice the reciprocal of the count. -/
structure NewtonReady (codel : Codel) : Prop where
  two_le : 2 ≤ codel.count
  count_le : codel.count ≤ 2 ^ 32
  root_pos : 0 < codel.recInvSqrt
  root_lt : codel.recInvSqrt < 2 ^ 16
  near : codel.count * codel.recInvSqrt ^ 2 ≤ 2 * 2 ^ 32

namespace NewtonReady

variable {codel : Codel}

/-- The next `rec_inv_sqrt` is not zero, and not above the reciprocal of the root. -/
theorem next (ready : NewtonReady codel) :
    0 < codel.nextRecInvSqrt ∧ codel.nextRecInvSqrt < 2 ^ 16 ∧
      codel.count * codel.nextRecInvSqrt ^ 2 ≤ 2 ^ 32 := by
  rw [nextRecInvSqrt_eq]
  have below : codel.count * InverseSqrt.newton (2 ^ 30) codel.count codel.recInvSqrt ^ 2 ≤
      4 * 2 ^ 30 := InverseSqrt.newton_below (by decide)
  refine ⟨?_, InverseSqrt.lt_of_below rfl (by decide) ready.two_le below, below⟩
  exact InverseSqrt.newton_pos (by decide) ready.root_pos ready.count_le ready.near

private theorem fits (ready : NewtonReady codel) : NewtonFits codel := by
  have invsqrt : codel.invsqrt < 2 ^ 32 := by
    unfold Codel.invsqrt
    rw [Nat.shiftLeft_eq]
    exact Nat.mul_lt_mul_of_pos_right ready.root_lt (by decide)
  refine ⟨invsqrt, ?_, ?_, ?_, ready.next.2.1⟩
  · rw [invsqrt2_eq]
    exact Nat.pow_lt_pow_left ready.root_lt two_ne_zero
  · rw [invsqrt2_eq]
    exact ready.near.trans (by decide)
  · have val : codel.val ≤ 3 * 2 ^ 30 := by
      unfold Codel.val
      rw [Nat.shiftRight_eq_div_pow]
      exact (Nat.div_le_div_right (Nat.sub_le _ _)).trans (by decide)
    calc codel.val * codel.invsqrt ≤ 3 * 2 ^ 30 * 2 ^ 32 := Nat.mul_le_mul val invsqrt.le
      _ < 2 ^ 64 := by decide

end NewtonReady

/-! ### Calls -/

/-- What a call of `codel_marking` reads besides the fields of the class. -/
structure CodelCall where
  target : Int
  interval : Int
  lenBytes : Nat
  skb : Skb
  nowNs : Int

namespace CodelCall

def run (call : CodelCall) (codel : Codel) : Skb × Codel :=
  codelMarking call.target call.interval call.lenBytes call.skb call.nowNs codel

def shouldMark (call : CodelCall) (codel : Codel) : Bool × Codel :=
  codelShouldMark call.target call.interval call.lenBytes call.skb call.nowNs codel

/-- Whether the call reaches `INET_ECN_set_ce`. -/
def marks (call : CodelCall) (codel : Codel) : Bool :=
  (call.shouldMark codel).1 &&
    (!codel.marking || codelTimeAfterEq (nsToCodelTime call.nowNs) codel.markNext)

/-- The fields at the call of `codel_Newton_step`, where there is one. -/
def newtonArgument (call : CodelCall) (codel : Codel) : Option Codel :=
  let now := nsToCodelTime call.nowNs
  let (mark, codel) := call.shouldMark codel
  if codel.marking then
    if mark && codelTimeAfterEq now codel.markNext then
      some { codel with count := u32 (codel.count + 1) }
    else none
  else if mark then
    let delta := u32Sub codel.count codel.lastcount
    if decide (1 < delta) &&
        codelTimeBefore (u32Sub now codel.markNext) (u32 (u32OfInt call.interval * 16)) then
      some { codel with marking := true, count := delta }
    else none
  else none

end CodelCall

/-- What a call does to the three counters, with whether it marks its packet and with the fields
it calls `codel_Newton_step` on. -/
inductive Effect (codel : Codel) : Bool → Option Codel → Codel → Prop
  | waits {codel' : Codel} (count : codel'.count = codel.count)
      (lastcount : codel'.lastcount = codel.lastcount)
      (root : codel'.recInvSqrt = codel.recInvSqrt)
      (calm : codel'.marking = true → codel.marking = true) : Effect codel false none codel'
  | advances {argument codel' : Codel} (marking : codel.marking = true)
      (counted : argument.count = u32 (codel.count + 1))
      (root : argument.recInvSqrt = codel.recInvSqrt) (count : codel'.count = argument.count)
      (lastcount : codel'.lastcount = codel.lastcount)
      (newton : codel'.recInvSqrt = (codelNewtonStep argument).recInvSqrt) :
      Effect codel true (some argument) codel'
  | resumes {argument codel' : Codel} (more : 1 < u32Sub codel.count codel.lastcount)
      (delta : argument.count = u32Sub codel.count codel.lastcount)
      (root : argument.recInvSqrt = codel.recInvSqrt) (count : codel'.count = argument.count)
      (lastcount : codel'.lastcount = argument.count)
      (newton : codel'.recInvSqrt = (codelNewtonStep argument).recInvSqrt) :
      Effect codel true (some argument) codel'
  | restarts {codel' : Codel} (count : codel'.count = 1) (lastcount : codel'.lastcount = 1)
      (root : codel'.recInvSqrt = 0xFFFF) : Effect codel true none codel'

/-- `codel_should_mark` leaves all fields but two alone. -/
theorem codelShouldMark_eq (target interval : Int) (lenBytes : Nat) (skb : Skb) (nowNs : Int)
    (codel : Codel) :
    ∃ ldelay firstAboveTime,
      (codelShouldMark target interval lenBytes skb nowNs codel).2 =
        { codel with ldelay, firstAboveTime } := by
  unfold codelShouldMark
  simp only
  split
  · exact ⟨_, _, rfl⟩
  · split
    · exact ⟨_, _, rfl⟩
    · exact ⟨_, codel.firstAboveTime, rfl⟩

/-- What a call can do, said once. -/
theorem CodelCall.effect (call : CodelCall) (codel : Codel) :
    Effect codel (call.marks codel) (call.newtonArgument codel) (call.run codel).2 ∧
      (call.run codel).1 = if call.marks codel then inetEcnSetCe call.skb else call.skb := by
  obtain ⟨ldelay, firstAboveTime, same⟩ := codelShouldMark_eq call.target call.interval
    call.lenBytes call.skb call.nowNs codel
  unfold run codelMarking marks newtonArgument shouldMark
  generalize codelShouldMark call.target call.interval call.lenBytes call.skb call.nowNs codel =
    answer at same ⊢
  obtain ⟨mark, updated⟩ := answer
  obtain rfl : updated = _ := same
  simp only
  cases marking : codel.marking with
  | true =>
      cases mark with
      | false => exact ⟨.waits rfl rfl rfl fun _ => marking, rfl⟩
      | true =>
          cases late : codelTimeAfterEq (nsToCodelTime call.nowNs) codel.markNext with
          | false => exact ⟨.waits rfl rfl rfl fun _ => marking, rfl⟩
          | true => exact ⟨.advances marking rfl rfl rfl rfl rfl, rfl⟩
  | false =>
      cases mark with
      | false => exact ⟨.waits rfl rfl rfl (fun absurd => by cases absurd), rfl⟩
      | true =>
          cases recent : decide (1 < u32Sub codel.count codel.lastcount) &&
              codelTimeBefore (u32Sub (nsToCodelTime call.nowNs) codel.markNext)
                (u32 (u32OfInt call.interval * 16)) with
          | false => exact ⟨.restarts rfl rfl rfl, rfl⟩
          | true =>
              have more := of_decide_eq_true (Bool.and_eq_true_iff.mp recent).1
              exact ⟨.resumes more rfl rfl rfl rfl rfl, rfl⟩

/-- The call stores what its Newton step computes. -/
theorem CodelCall.newtonArgument_recInvSqrt (call : CodelCall) {codel argument : Codel}
    (called : argument ∈ call.newtonArgument codel) :
    (call.run codel).2.recInvSqrt = (codelNewtonStep argument).recInvSqrt := by
  obtain ⟨effect, _⟩ := call.effect codel
  rw [Option.mem_def.mp called] at effect
  generalize call.marks codel = marks at effect
  cases effect with
  | advances _ _ _ _ _ newton => exact newton
  | resumes _ _ _ _ _ newton => exact newton

/-! ### Sequences of calls -/

/-- The fields of a class, and how many packets it has marked. -/
structure Marker where
  codel : Codel
  marks : Nat

namespace Marker

/-- A class just created. -/
def initial : Marker := ⟨Codel.initial, 0⟩

def next (m : Marker) (call : CodelCall) : Marker :=
  ⟨(call.run m.codel).2, m.marks + if call.marks m.codel then 1 else 0⟩

/-- One call. -/
def Step (m : Marker) (call : CodelCall) (m' : Marker) : Prop := m' = m.next call

end Marker

/-- The range of the counters of a class that has been marking. -/
structure InRange (codel : Codel) : Prop where
  lastcount_pos : 1 ≤ codel.lastcount
  lastcount_le : codel.lastcount ≤ codel.count
  root_pos : 1 ≤ codel.recInvSqrt
  root_le : codel.count * codel.recInvSqrt ^ 2 ≤ 2 ^ 32

/-- The counters are in range, `rec_inv_sqrt` is a `u16`, and the count is at most the marks. -/
structure Counted (m : Marker) : Prop where
  inRange : InRange m.codel
  root_lt : m.codel.recInvSqrt < 2 ^ 16
  count_le : m.codel.count ≤ m.marks

/-- The class has not marked yet. -/
structure Unmarked (codel : Codel) : Prop where
  count : codel.count = 0
  lastcount : codel.lastcount = 0
  calm : codel.marking = false

namespace Counted

variable {m m' : Marker} {argument : Codel}

/-- Counters that stay as they are. -/
theorem keep (counted : Counted m) (count : m'.codel.count = m.codel.count)
    (lastcount : m'.codel.lastcount = m.codel.lastcount)
    (root : m'.codel.recInvSqrt = m.codel.recInvSqrt) (marks : m.marks ≤ m'.marks) :
    Counted m' := by
  obtain ⟨inRange, root_lt, count_le⟩ := counted
  refine ⟨⟨?_, ?_, ?_, ?_⟩, ?_, ?_⟩
  · rw [lastcount]
    exact inRange.lastcount_pos
  · rw [lastcount, count]
    exact inRange.lastcount_le
  · rw [root]
    exact inRange.root_pos
  · rw [count, root]
    exact inRange.root_le
  · rw [root]
    exact root_lt
  · rw [count]
    exact count_le.trans marks

/-- A count that goes on. -/
theorem advance (counted : Counted m) (few : m.marks + 1 < 2 ^ 32 - 1)
    (isNext : argument.count = u32 (m.codel.count + 1))
    (root : argument.recInvSqrt = m.codel.recInvSqrt) :
    NewtonReady argument ∧ argument.count = m.codel.count + 1 := by
  have positive : 1 ≤ m.codel.count := counted.inRange.lastcount_pos.trans
    counted.inRange.lastcount_le
  have count := counted.count_le
  have grown : argument.count = m.codel.count + 1 := isNext.trans (u32_of_lt (by omega))
  refine ⟨⟨by omega, by omega, ?_, ?_, ?_⟩, grown⟩
  · rw [root]
    exact counted.inRange.root_pos
  · rw [root]
    exact counted.root_lt
  · rw [grown, root]
    exact @InverseSqrt.succ_mul_le (2 ^ 30) _ _ positive counted.inRange.root_le

/-- A count that resumes from the difference to the last one. -/
theorem resume (counted : Counted m) (few : m.marks < 2 ^ 32 - 1)
    (more : 1 < u32Sub m.codel.count m.codel.lastcount)
    (delta : argument.count = u32Sub m.codel.count m.codel.lastcount)
    (root : argument.recInvSqrt = m.codel.recInvSqrt) :
    NewtonReady argument ∧ argument.count ≤ m.codel.count := by
  have count := counted.count_le
  have dropped : argument.count = m.codel.count - m.codel.lastcount :=
    delta.trans (u32Sub_of_le (by omega) counted.inRange.lastcount_le)
  have le : argument.count ≤ m.codel.count := by omega
  refine ⟨⟨by omega, by omega, ?_, ?_, ?_⟩, le⟩
  · rw [root]
    exact counted.inRange.root_pos
  · rw [root]
    exact counted.root_lt
  · rw [root]
    exact (Nat.mul_le_mul_right _ le).trans (counted.inRange.root_le.trans (by decide))

/-- The fields a Newton step leaves, with a last count that is not above the count. -/
theorem of_newton (ready : NewtonReady argument) (count : m'.codel.count = argument.count)
    (newton : m'.codel.recInvSqrt = (codelNewtonStep argument).recInvSqrt)
    (lastcount : 1 ≤ m'.codel.lastcount) (le : m'.codel.lastcount ≤ argument.count)
    (marks : argument.count ≤ m'.marks) : Counted m' := by
  rw [ready.fits.exact] at newton
  obtain ⟨positive, narrow, below⟩ := ready.next
  refine ⟨⟨lastcount, count ▸ le, ?_, ?_⟩, ?_, count ▸ marks⟩
  · rw [newton]
    exact positive
  · rw [newton, count]
    exact below
  · rw [newton]
    exact narrow

/-- The fields the marker starts with when it does not resume. -/
theorem of_restart (count : m'.codel.count = 1) (lastcount : m'.codel.lastcount = 1)
    (root : m'.codel.recInvSqrt = 0xFFFF) (marks : 1 ≤ m'.marks) : Counted m' := by
  refine ⟨⟨lastcount.ge, ?_, ?_, ?_⟩, ?_, ?_⟩
  · rw [lastcount, count]
  · rw [root]
    decide
  · rw [count, root]
    decide
  · rw [root]
    decide
  · rw [count]
    exact marks

end Counted

/-- The step lemma: a call keeps the counters in range, and the fields it calls the Newton step
on are ready for it. -/
theorem Counted.step {m : Marker} (counted : Counted m) (call : CodelCall)
    (few : (m.next call).marks < 2 ^ 32 - 1) :
    Counted (m.next call) ∧ ∀ argument ∈ call.newtonArgument m.codel, NewtonReady argument := by
  obtain ⟨effect, _⟩ := call.effect m.codel
  unfold Marker.next at few ⊢
  generalize (call.run m.codel).2 = codel' at effect few ⊢
  generalize call.newtonArgument m.codel = called at effect ⊢
  generalize call.marks m.codel = marks at effect few ⊢
  have inRange := counted.inRange
  have marked := counted.count_le
  cases effect with
  | waits count lastcount root =>
      exact ⟨counted.keep count lastcount root (Nat.le_add_right _ _), by simp⟩
  | @advances argument _ marking isNext root count lastcount newton =>
      rw [if_pos rfl] at few ⊢
      obtain ⟨ready, grown⟩ := counted.advance few isNext root
      have last := inRange.lastcount_le
      refine ⟨.of_newton ready count newton ?_ ?_ ?_, by simpa using ready⟩
      · rw [lastcount]
        exact inRange.lastcount_pos
      · rw [lastcount]
        omega
      · rw [grown]
        exact Nat.succ_le_succ marked
  | @resumes argument _ more delta root count lastcount newton =>
      rw [if_pos rfl] at few ⊢
      obtain ⟨ready, le⟩ := counted.resume (Nat.lt_of_succ_lt few) more delta root
      have two := ready.two_le
      refine ⟨.of_newton ready count newton ?_ lastcount.le ?_, by simpa using ready⟩
      · rw [lastcount]
        omega
      · exact (le.trans marked).trans (Nat.le_succ _)
  | restarts count lastcount root =>
      refine ⟨.of_restart count lastcount root ?_, by simp⟩
      rw [if_pos rfl]
      exact Nat.le_add_left 1 _

/-- Before the first mark a call leaves the counters as they are, or makes the first mark. -/
theorem Unmarked.step {m : Marker} (unmarked : Unmarked m.codel) (call : CodelCall) :
    (Unmarked (m.next call).codel ∨ Counted (m.next call)) ∧
      call.newtonArgument m.codel = none := by
  obtain ⟨effect, _⟩ := call.effect m.codel
  unfold Marker.next
  generalize (call.run m.codel).2 = codel' at effect ⊢
  generalize call.newtonArgument m.codel = called at effect ⊢
  generalize call.marks m.codel = marks at effect ⊢
  cases effect with
  | waits count lastcount _ calm =>
      refine ⟨.inl ⟨count.trans unmarked.count, lastcount.trans unmarked.lastcount, ?_⟩, rfl⟩
      cases marking : codel'.marking with
      | false => rfl
      | true => exact (calm marking).symm.trans unmarked.calm
  | advances marking => cases marking.symm.trans unmarked.calm
  | resumes more =>
      rw [unmarked.count, unmarked.lastcount] at more
      exact absurd more (by decide)
  | restarts count lastcount root =>
      refine ⟨.inr (.of_restart count lastcount root ?_), rfl⟩
      rw [if_pos rfl]
      exact Nat.le_add_left 1 _

/-- Where a class can be: before its first mark, or with counters in range. -/
def Tracked (m : Marker) : Prop := Unmarked m.codel ∨ Counted m

namespace Tracked

variable {m : Marker}

private theorem initial : Tracked .initial := Or.inl ⟨rfl, rfl, rfl⟩

private theorem step (tracked : Tracked m) (call : CodelCall)
    (few : (m.next call).marks < 2 ^ 32 - 1) :
    Tracked (m.next call) ∧ ∀ argument ∈ call.newtonArgument m.codel, NewtonReady argument := by
  cases tracked with
  | inl unmarked =>
      obtain ⟨kept, none⟩ := unmarked.step call
      rw [none]
      exact ⟨kept, by simp⟩
  | inr counted =>
      obtain ⟨kept, ready⟩ := counted.step call few
      exact ⟨Or.inr kept, ready⟩

theorem of_marking (tracked : Tracked m) (marking : m.codel.marking = true) : Counted m := by
  cases tracked with
  | inl unmarked => cases marking.symm.trans unmarked.calm
  | inr counted => exact counted

end Tracked

section

variable {m last : Marker} {calls : List CodelCall}

/-- The run lemma, for runs of fewer than `2 ^ 32 - 1` marks. -/
theorem Marker.run_preserves (run : Run Marker.Step m calls last) (invariant : Marker → Prop)
    (preserved : ∀ {m call}, invariant m → (m.next call).marks < 2 ^ 32 - 1 →
      invariant (m.next call))
    (holds : invariant m) (few : last.marks < 2 ^ 32 - 1) : invariant last := by
  refine run.preserves (fun m => m.marks < 2 ^ 32 - 1 → invariant m) ?_ (fun _ => holds) few
  intro first call middle step inductionHypothesis few
  obtain rfl : middle = first.next call := step
  have fewer : first.marks < 2 ^ 32 - 1 := lt_of_le_of_lt (Nat.le_add_right _ _) few
  exact preserved (inductionHypothesis fewer) few

theorem Tracked.of_run (run : Run Marker.Step .initial calls m) (few : m.marks < 2 ^ 32 - 1) :
    Tracked m :=
  Marker.run_preserves run Tracked (fun tracked few => (tracked.step _ few).1) .initial few

theorem Counted.of_run (run : Run Marker.Step m calls last) (counted : Counted m)
    (few : last.marks < 2 ^ 32 - 1) : Counted last :=
  Marker.run_preserves run Counted (fun counted few => (counted.step _ few).1) counted few

theorem Marker.marks_le (run : Run Marker.Step m calls last) : m.marks ≤ last.marks := by
  refine run.preserves (fun state => m.marks ≤ state.marks) ?_ le_rfl
  intro first call middle step inductionHypothesis
  obtain rfl : middle = first.next call := step
  exact inductionHypothesis.trans (Nat.le_add_right _ _)

theorem Marker.marks_le_add_length (run : Run Marker.Step m calls last) :
    last.marks ≤ m.marks + calls.length := by
  induction run with
  | nil => exact le_rfl
  | @cons first middle last call calls head _ inductionHypothesis =>
      obtain rfl : middle = first.next call := head
      have marks : (first.next call).marks ≤ first.marks + 1 := by
        unfold Marker.next
        dsimp only
        split
        · exact le_rfl
        · exact Nat.le_succ _
      rw [List.length_cons]
      omega

/-- **The CoDel marker stays in range.** From a class just created, with any clock readings,
time stamps, queue lengths, targets and intervals, and with fewer than `2 ^ 32 - 1` marks: once
the class has been marking, the counters are in range after every call; and no operation of a
Newton step, in any call, leaves the range of its type, so that the code stores what the step
over unbounded integers says. -/
theorem codelMarking_in_range (run : Run Marker.Step .initial calls m) :
    (m.codel.marking = true → ∀ {more : List CodelCall} {last : Marker},
      Run Marker.Step m more last → last.marks < 2 ^ 32 - 1 → InRange last.codel) ∧
    ∀ call : CodelCall, (m.next call).marks < 2 ^ 32 - 1 →
      ∀ argument ∈ call.newtonArgument m.codel, NewtonFits argument ∧
        (m.next call).codel.recInvSqrt = argument.nextRecInvSqrt := by
  constructor
  · intro marking more last rest few
    have tracked := Tracked.of_run run (lt_of_le_of_lt (Marker.marks_le rest) few)
    exact (Counted.of_run rest (tracked.of_marking marking) few).inRange
  · intro call few argument called
    have fewer : m.marks < 2 ^ 32 - 1 := lt_of_le_of_lt (Nat.le_add_right _ _) few
    have ready := ((Tracked.of_run run fewer).step call few).2 argument called
    refine ⟨ready.fits, ?_⟩
    have stored := congrArg Codel.recInvSqrt ready.fits.exact
    exact (call.newtonArgument_recInvSqrt called).trans stored

end

/-- A call for a packet of time stamp 0 with 3000 bytes behind it, under a target of 0 and an
interval of 1. -/
def sampleCall (units : Int) : CodelCall :=
  ⟨0, 1, 3000, ⟨1500, some 0, 0, .ect0, by decide, by decide⟩, units * 1024⟩

/-- The second of these calls enters marking. -/
def sampleMarker : Marker := (Marker.initial.next (sampleCall 0)).next (sampleCall 2)

/-- The third one makes a Newton step. -/
theorem codelMarking_in_range_sample :
    InRange (sampleMarker.next (sampleCall 3)).codel ∧
      ∃ argument ∈ (sampleCall 3).newtonArgument sampleMarker.codel, NewtonFits argument ∧
        (sampleMarker.next (sampleCall 3)).codel.recInvSqrt = argument.nextRecInvSqrt := by
  have run : Run Marker.Step .initial [sampleCall 0, sampleCall 2] sampleMarker :=
    .cons rfl (.single rfl)
  have inRange := codelMarking_in_range run
  constructor
  · exact inRange.1 (by decide) (.single rfl) (by decide)
  · have called : ⟨2, 1, true, 0xFFFF, 1, 2, 3⟩ ∈
        (sampleCall 3).newtonArgument sampleMarker.codel := by decide
    exact ⟨_, called, inRange.2 (sampleCall 3) (by decide) _ called⟩

end MqEcn.Kernel
