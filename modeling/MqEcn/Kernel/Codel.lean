import MqEcn.Kernel.Qdisc

/-!
Contract: the per-queue CoDel and TCN markers of `sch_dwrr/main.c` and
`sch_wfq/main.c`, which are the same text over different class structures.

Owns: the 32-bit CoDel clock, its wrapping comparisons, the seven CoDel fields of
a class, the Newton step, the control law, and the two marking functions.

Does not own: which marker a module runs, or the parameters it reads.
-/

set_option autoImplicit false

namespace MqEcn.Kernel

open MqEcn.Library.Word

/-- The CoDel fields of `struct dwrr_class` and `struct wfq_class`. -/
structure Codel where
  count : Nat
  lastcount : Nat
  marking : Bool
  recInvSqrt : Nat
  firstAboveTime : Nat
  markNext : Nat
  ldelay : Nat
deriving DecidableEq

/-- The values the init functions give the CoDel fields. -/
def Codel.initial : Codel := ⟨0, 0, false, 0, 0, 0, 0⟩

/-- `ns_to_codel_time`: nanoseconds to the 1024 ns clock, truncated to `u32`. -/
def nsToCodelTime (ns : Int) : Nat := u32OfInt (ns >>> (10 : Nat))

/-- `codel_time_after`. -/
def codelTimeAfter (left right : Nat) : Bool := decide (0 < s32 ((left : Int) - right))

/-- `codel_time_before`. -/
def codelTimeBefore (left right : Nat) : Bool := codelTimeAfter right left

/-- `codel_time_after_eq`. -/
def codelTimeAfterEq (left right : Nat) : Bool := decide (0 ≤ s32 ((left : Int) - right))

/-- `tcn_marking`. -/
def tcnMarking (thresh : Int) (skb : Skb) (now : Int) : Skb :=
  if codelTimeAfter (nsToCodelTime (now - skb.tstamp)) (u32OfInt thresh) then inetEcnSetCe skb
  else skb

/-- `codel_should_mark`: the verdict and the updated fields. -/
def codelShouldMark (target interval : Int) (lenBytes : Nat) (skb : Skb) (nowNs : Int)
    (codel : Codel) : Bool × Codel :=
  let now := nsToCodelTime nowNs
  let ldelay := nsToCodelTime (nowNs - skb.tstamp)
  if codelTimeBefore ldelay (u32OfInt target) || decide (lenBytes ≤ maxPktBytes) then
    (false, { codel with ldelay, firstAboveTime := 0 })
  else if codel.firstAboveTime = 0 then
    (false, { codel with ldelay, firstAboveTime := u32 (now + u32OfInt interval) })
  else
    (codelTimeAfter now codel.firstAboveTime, { codel with ldelay })

/-- `codel_Newton_step`. -/
def codelNewtonStep (codel : Codel) : Codel :=
  let invsqrt := u32 (codel.recInvSqrt <<< 16)
  let invsqrt2 := u32 (u64 (invsqrt * invsqrt) >>> 32)
  let val := u64Sub (3 <<< 32) (u64 (codel.count * invsqrt2))
  let val := val >>> 2
  let val := u64 (val * invsqrt) >>> (32 - 2 + 1)
  { codel with recInvSqrt := u16 (val >>> 16) }

/-- `reciprocal_scale` of `linux/kernel.h`. -/
def reciprocalScale (val epRo : Nat) : Nat := u32 (u64 (val * epRo) >>> 32)

/-- `codel_control_law`. -/
def codelControlLaw (time interval recInvSqrt : Nat) : Nat :=
  u32 (time + reciprocalScale interval (u32 (recInvSqrt <<< 16)))

/-- `codel_marking`: the packet and the fields after the call. -/
def codelMarking (target interval : Int) (lenBytes : Nat) (skb : Skb) (nowNs : Int)
    (codel : Codel) : Skb × Codel :=
  let now := nsToCodelTime nowNs
  let (mark, codel) := codelShouldMark target interval lenBytes skb nowNs codel
  if codel.marking then
    if !mark then
      (skb, { codel with marking := false })
    else if codelTimeAfterEq now codel.markNext then
      let codel := codelNewtonStep { codel with count := u32 (codel.count + 1) }
      (inetEcnSetCe skb,
        { codel with
          markNext := codelControlLaw codel.markNext (u32OfInt interval) codel.recInvSqrt })
    else
      (skb, codel)
  else if mark then
    let delta := u32Sub codel.count codel.lastcount
    let codel := { codel with marking := true }
    let codel :=
      if decide (1 < delta) &&
          codelTimeBefore (u32Sub now codel.markNext) (u32 (u32OfInt interval * 16)) then
        codelNewtonStep { codel with count := delta }
      else
        { codel with count := 1, recInvSqrt := 0xFFFF }
    (inetEcnSetCe skb,
      { codel with
        lastcount := codel.count
        markNext := codelControlLaw now (u32OfInt interval) codel.recInvSqrt })
  else
    (skb, codel)

theorem tcnMarking_markedFrom (thresh : Int) (skb : Skb) (now : Int) :
    MarkedFrom skb (tcnMarking thresh skb now) :=
  markedFrom_ite

theorem codelMarking_markedFrom (target interval : Int) (lenBytes : Nat) (skb : Skb)
    (nowNs : Int) (codel : Codel) :
    MarkedFrom skb (codelMarking target interval lenBytes skb nowNs codel).1 := by
  unfold codelMarking MarkedFrom
  simp only
  split
  · split
    · exact Or.inl rfl
    · split
      · exact Or.inr rfl
      · exact Or.inl rfl
  · split
    · exact Or.inr rfl
    · exact Or.inl rfl

/-! ### The interval above target -/

/-- What `codel_should_mark` asks of a packet to start the interval or to let it run on:
its delay is not before the target, and more than one packet stays behind it. -/
def CodelAbove (target : Int) (lenBytes : Nat) (codel : Codel) : Prop :=
  codelTimeBefore codel.ldelay (u32OfInt target) = false ∧ maxPktBytes < lenBytes

/-- The three ways through `codel_should_mark`: below, above for the first time, above as
before. -/
theorem codelShouldMark_cases {target interval nowNs : Int} {lenBytes : Nat} {skb : Skb}
    {codel codel' : Codel} {mark : Bool}
    (returns : codelShouldMark target interval lenBytes skb nowNs codel = (mark, codel')) :
    (codel'.firstAboveTime = 0 ∧ mark = false) ∨
      (CodelAbove target lenBytes codel' ∧ mark = false ∧
        codel'.firstAboveTime = u32 (nsToCodelTime nowNs + u32OfInt interval)) ∨
      (CodelAbove target lenBytes codel' ∧ codel.firstAboveTime ≠ 0 ∧
        codel'.firstAboveTime = codel.firstAboveTime ∧
        mark = codelTimeAfter (nsToCodelTime nowNs) codel.firstAboveTime) := by
  unfold codelShouldMark at returns
  simp only at returns
  split at returns
  next below =>
    cases returns
    exact Or.inl ⟨rfl, rfl⟩
  next above =>
    rw [Bool.or_eq_true, not_or, Bool.not_eq_true, decide_eq_true_eq, not_le] at above
    split at returns
    next unset =>
      cases returns
      exact Or.inr (Or.inl ⟨above, rfl, rfl⟩)
    next set =>
      cases returns
      exact Or.inr (Or.inr ⟨above, set, rfl, rfl⟩)

/-- `codel_marking` leaves the class in the state `codel_should_mark` says, with the delay
and the start of the interval it has stored. -/
theorem codelMarking_fields (target interval : Int) (lenBytes : Nat) (skb : Skb) (nowNs : Int)
    (codel : Codel) :
    (codelMarking target interval lenBytes skb nowNs codel).2.marking =
        (codelShouldMark target interval lenBytes skb nowNs codel).1 ∧
      (codelMarking target interval lenBytes skb nowNs codel).2.ldelay =
        (codelShouldMark target interval lenBytes skb nowNs codel).2.ldelay ∧
      (codelMarking target interval lenBytes skb nowNs codel).2.firstAboveTime =
        (codelShouldMark target interval lenBytes skb nowNs codel).2.firstAboveTime := by
  unfold codelMarking
  generalize codelShouldMark target interval lenBytes skb nowNs codel = answer
  obtain ⟨mark, updated⟩ := answer
  simp only
  split
  next marking =>
    cases mark with
    | false => exact ⟨rfl, rfl, rfl⟩
    | true =>
        rw [Bool.not_true, if_neg Bool.false_ne_true]
        split
        · exact ⟨marking, rfl, rfl⟩
        · exact ⟨marking, rfl, rfl⟩
  next calm =>
    cases mark with
    | false => exact ⟨Bool.not_eq_true _ ▸ calm, rfl, rfl⟩
    | true =>
        rw [if_pos rfl]
        split
        · exact ⟨rfl, rfl, rfl⟩
        · exact ⟨rfl, rfl, rfl⟩

/-- The three ways through `codel_marking`. -/
theorem codelMarking_cases {target interval nowNs : Int} {lenBytes : Nat} {skb : Skb}
    {codel codel' : Codel}
    (returns : (codelMarking target interval lenBytes skb nowNs codel).2 = codel') :
    (codel'.firstAboveTime = 0 ∧ codel'.marking = false) ∨
      (CodelAbove target lenBytes codel' ∧ codel'.marking = false ∧
        codel'.firstAboveTime = u32 (nsToCodelTime nowNs + u32OfInt interval)) ∨
      (CodelAbove target lenBytes codel' ∧ codel.firstAboveTime ≠ 0 ∧
        codel'.firstAboveTime = codel.firstAboveTime ∧
        codel'.marking = codelTimeAfter (nsToCodelTime nowNs) codel.firstAboveTime) := by
  subst returns
  obtain ⟨marking, ldelay, firstAboveTime⟩ :=
    codelMarking_fields target interval lenBytes skb nowNs codel
  rw [marking, firstAboveTime]
  unfold CodelAbove
  rw [ldelay]
  exact codelShouldMark_cases rfl

/-- The interval has run out where its end reads as past: on the clock that wraps, and on
the one that does not, whatever the distance. -/
theorem interval_elapsed {interval start now : Int} (ordered : start ≤ now)
    (positive : 0 < interval) (half : interval < 2 ^ 31)
    (after : codelTimeAfter (nsToCodelTime now)
      (u32 (nsToCodelTime start + u32OfInt interval)) = true) :
    (start >>> (10 : Nat)) + interval < now >>> (10 : Nat) ∧
      interval < u32Sub (nsToCodelTime now) (nsToCodelTime start) := by
  have ticks : start >>> (10 : Nat) ≤ now >>> (10 : Nat) := by
    rw [Int.shiftRight_eq_div_pow, Int.shiftRight_eq_div_pow]
    exact Int.ediv_le_ediv (by decide) ordered
  unfold codelTimeAfter nsToCodelTime at after
  rw [decide_eq_true_eq, u32_add_u32OfInt, s32_sub_u32OfInt, ← Int.sub_sub] at after
  obtain ⟨unwrapped, wrapped⟩ := lt_of_s32_pos (Int.sub_nonneg_of_le ticks) positive half after
  unfold nsToCodelTime
  rw [u32Sub_u32OfInt]
  exact ⟨by omega, wrapped⟩

end MqEcn.Kernel
