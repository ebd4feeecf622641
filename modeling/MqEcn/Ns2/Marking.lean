import MqEcn.Library.Smoothing
import MqEcn.Ns2.PacketQueue
import MqEcn.Ns2.Pow

/-!
Contract: what `MQ_MARKING_GENER` makes of an arrival, in any of the NS2 disciplines.

Owns: the two lengths between which a queue starts to mark, the decay of an estimate by a rest
of the port, and what the marker does with a threshold.

Does not own: the sums the estimates follow.
-/

set_option autoImplicit false

namespace MqEcn.Ns2

open Set (Icc)
open MqEcn.Library.Smoothing

/-- A packet that makes its queue `bytes` long is stored as it came up to the length `low`, and
with CE, where it can carry it, beyond the length `high`. -/
structure MarkedBetween (low high : ℚ) (bytes : Nat) (p marked : Packet) : Prop where
  below : (bytes : ℚ) ≤ low → marked = p
  beyond : high < bytes → marked = if p.ect then { p with ce := true } else p

/-- A queue takes a packet and marks it between two lengths. -/
def TakesBetween (low high : ℚ) (before after : List Packet) (p : Packet) : Prop :=
  ∃ marked, after = before ++ [marked] ∧ MarkedBetween low high (byteLength after) p marked

/-- A queue starts to mark between the part that its `share` has in `limit`, and the whole, of
the port threshold. -/
def SharesOut (limit share portThresh : ℚ) (meanPktsize : Int) : List Packet → List Packet →
    Packet → Prop :=
  TakesBetween (share / limit * portThresh * meanPktsize) (portThresh * meanPktsize)

section

variable {limit share estimate portThresh : ℚ} {meanPktsize : Int}

/-- The marker with a threshold in between. -/
theorem markedBetween_of_thresh {low high thresh : ℚ} {bytes : Nat} (p : Packet)
    (above : low ≤ thresh) (below : thresh ≤ high) :
    MarkedBetween low high bytes p
      (if decide (thresh < bytes) = true ∧ p.ect then { p with ce := true } else p) := by
  constructor
  · intro short
    have within : ¬thresh < bytes := not_lt.mpr (short.trans above)
    rw [decide_eq_false within, if_neg (fun both => Bool.noConfusion both.1)]
  · intro long
    rw [decide_eq_true (below.trans_lt long)]
    simp only [true_and]

/-- The threshold of `MQ_MARKING_GENER` is one in between. -/
theorem sharesOut_of_portion {before : List Packet} {p : Packet} {bytes : Nat}
    (thresh : 0 ≤ portThresh) (size : 0 ≤ meanPktsize) (own : 0 ≤ share) (within : share ≤ limit)
    (below : estimate ≤ limit) (long : byteLength (before ++ [p]) = bytes) :
    ∀ marked,
      (if decide (portion (1 / 1000000000) share estimate portThresh * meanPktsize < bytes) = true ∧
        p.ect then { p with ce := true } else p) = marked →
      SharesOut limit share portThresh meanPktsize before (before ++ [marked]) p := by
  rintro marked rfl
  have sizes : (0 : ℚ) ≤ meanPktsize := Int.cast_nonneg size
  have least : share / limit * portThresh ≤ portion (1 / 1000000000) share estimate portThresh :=
    le_portion thresh (by norm_num) own within below
  have most : portion (1 / 1000000000) share estimate portThresh ≤ portThresh := portion_le thresh
  refine ⟨_, rfl, ?_⟩
  have same : ∀ stored : Packet, stored.size = p.size →
      byteLength (before ++ [stored]) = bytes := by
    intro stored sameSize
    rw [← long, byteLength_append, byteLength_append]
    simp only [byteLength_cons, byteLength_nil, sameSize]
  rw [same _ (by split <;> rfl)]
  exact markedBetween_of_thresh p (mul_le_mul_of_nonneg_right least sizes)
    (mul_le_mul_of_nonneg_right most sizes)

end

/-- The decay by a rest of the port, in slots of the length `slot` where there is one. -/
theorem moves_of_rest {pow : ℚ → ℚ → ℚ} {alpha now slot : ℚ} {before after : Estimate ℚ}
    {positive : Prop} [Decidable positive] (weakening : Weakening pow) (factor : alpha ∈ Icc 0 1)
    (idle : before.idleSince ≤ now) (worth : positive → 0 ≤ slot)
    (value : after.value =
      if positive then before.value * pow alpha ((now - before.idleSince) / slot) else 0)
    (since : after.idleSince = before.idleSince) : Moves alpha now before after := by
  split at value
  next ticks =>
    exact .decay (weakening alpha factor _ (div_nonneg (sub_nonneg.mpr idle) (worth ticks))) value
      since
  next =>
    have nothing : (0 : ℚ) ∈ Icc (0 : ℚ) 1 := ⟨le_rfl, zero_le_one⟩
    exact .decay nothing (value.trans (mul_zero _).symm) since

end MqEcn.Ns2
