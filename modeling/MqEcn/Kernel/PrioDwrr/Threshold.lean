import MqEcn.Kernel.PrioDwrr.Idle

/-!
Contract: the threshold of the branch `PRIO_DWRR_QDISC_MQ_ECN_GENER`.

Owns: the formula it computes over unbounded integers, the exact condition under which its
32-bit product does no harm, and the updates of `quantum_sum_estimate`, which are exact in
every reachable state.

Does not own: the range of the estimate.
-/

set_option autoImplicit false

namespace MqEcn.Kernel.PrioDwrr

open MqEcn.Kernel
open MqEcn.Library.Transition
open MqEcn.Library.Word

/-- The share of the port threshold a class is due, over unbounded integers. -/
def generFormula (quantum portThresh quantumSumEstimate : Nat) : Nat :=
  min (quantum * portThresh / quantumSumEstimate) portThresh

/-- The product fits 32 bits, or what 32 bits keep of it still buys the whole threshold. -/
def ProductFits (quantum portThresh quantumSumEstimate : Nat) : Prop :=
  quantum * portThresh < 2 ^ 32 ∨
    portThresh * quantumSumEstimate ≤ quantum * portThresh % 2 ^ 32

instance (quantum portThresh quantumSumEstimate : Nat) :
    Decidable (ProductFits quantum portThresh quantumSumEstimate) := by
  unfold ProductFits
  infer_instance

/-! ### The product -/

section

variable {quantum portThresh quantumSumEstimate : Nat}

/-- A product cut to 32 bits falls short of the quotient by at least one. -/
theorem cut_div_lt {product divisor : Nat} (positive : 0 < divisor) (small : divisor ≤ 2 ^ 32)
    (long : 2 ^ 32 ≤ product) : product % 2 ^ 32 / divisor < product / divisor := by
  calc product % 2 ^ 32 / divisor
      < product % 2 ^ 32 / divisor + 1 := Nat.lt_succ_self _
    _ = (product % 2 ^ 32 + divisor) / divisor := (Nat.add_div_right _ positive).symm
    _ ≤ product / divisor := Nat.div_le_div_right (by omega)

private theorem min_cut_eq_iff_fits (positive : 0 < quantumSumEstimate)
    (small : quantumSumEstimate ≤ 2 ^ 32) :
    min (quantum * portThresh % 2 ^ 32 / quantumSumEstimate) portThresh =
        generFormula quantum portThresh quantumSumEstimate ↔
      ProductFits quantum portThresh quantumSumEstimate := by
  unfold generFormula ProductFits
  rcases lt_or_ge (quantum * portThresh) (2 ^ 32) with fits | long
  · rw [Nat.mod_eq_of_lt fits]
    exact iff_of_true rfl (Or.inl fits)
  · have lower := cut_div_lt positive small long
    rw [or_iff_right (not_lt.mpr long), ← Nat.le_div_iff_mul_le positive]
    constructor
    · intro same
      by_contra short
      rw [min_eq_left (not_le.mp short).le] at same
      have above := lt_min lower (not_le.mp short)
      exact absurd same above.ne
    · intro whole
      rw [min_eq_right whole, min_eq_right (whole.trans lower.le)]

/-- At a port threshold of 31 bits, only the product is cut. -/
theorem mqEcnGenerThresh_eq {params : Params} {q : PrioDwrrSchedData} {cl : DwrrClass}
    (nonneg : 0 ≤ params.value .portThreshBytes)
    (small : params.value .portThreshBytes ≤ 2000000) (positive : 0 < q.quantumSumEstimate) :
    mqEcnGenerThresh params q cl =
      min (cl.quantum * (params.value .portThreshBytes).toNat % 2 ^ 32 / q.quantumSumEstimate)
        (params.value .portThreshBytes).toNat := by
  have narrow : u32OfInt (params.value .portThreshBytes) =
      (params.value .portThreshBytes).toNat := by
    unfold u32OfInt
    omega
  have wide : u64OfInt (params.value .portThreshBytes) =
      (params.value .portThreshBytes).toNat := by
    unfold u64OfInt
    omega
  unfold mqEcnGenerThresh
  simp only [if_pos positive, narrow, wide]
  rfl

end

/-! ### The estimate -/

/-- One interval of decay over unbounded integers. -/
def decayedSum (params : Params) (quantumSumEstimate : Nat) : Nat :=
  quantumSumEstimate * quantumAlpha params / 1000

/-- No interval of an idle period overflows either. -/
theorem iterate_decayQuantumSum_eq (params : Params) {quantumSumEstimate : Nat}
    (estimate : quantumSumEstimate ≤ quantumTotal) (intervals : Nat) :
    (decayQuantumSum params)^[intervals] quantumSumEstimate =
      (decayedSum params)^[intervals] quantumSumEstimate := by
  induction intervals generalizing quantumSumEstimate with
  | zero => rfl
  | succ intervals inductionHypothesis =>
      have range := params.alpha_range.1
      have once : decayQuantumSum params quantumSumEstimate =
          decayedSum params quantumSumEstimate := by
        have exact := decayQuantumSum_eq params estimate
        unfold decayedSum quantumAlpha
        zify
        rw [exact, Int.toNat_of_nonneg range.1]
      rw [Function.iterate_succ_apply, Function.iterate_succ_apply, ← once]
      exact inductionHypothesis ((decayQuantumSum_le params estimate).trans estimate)

/-- A packet of a DWRR queue updates the estimate once, from the quanta that stay active. -/
theorem quantumSumEstimate_of_packet {bfifo : Bfifo} {s s' : Sys} {now : Int} {i : Fin 7}
    {skb : Skb} (step : Step bfifo s (.dequeue now (.packet (dwrrId i) skb)) s') :
    s'.q.quantumSumEstimate =
      smoothQuantumSum s.params s.q.quantumSumEstimate s'.q.quantumSum := by
  generalize sent : Dequeued.packet (dwrrId i) skb = outcome at step
  cases step with
  | @dequeue _ fuel q' _ later returns =>
      cases qdiscDequeue_cases returns with
      | prio busy ends =>
          cases ends with
          | null | throttled => cases sent
          | packet found front enough marker =>
              exact absurd (Dequeued.packet.inj sent).1 (dwrrId_ne_prioId i _)
      | @dwrr middle idle active rotations exit =>
          cases exit with
          | fault | null | throttled => cases sent
          | @packet k ring head marked rest isHead front affordable enough marker =>
              have sample := (transmit_idle s.params now (refilled s.params now middle) k head rest
                middle).2
              rw [(lastIdleTimeNs_of_rotations rotations).2] at sample
              exact sample
      | idle idle inactive stays nothing =>
          rw [nothing] at sent
          cases sent

/-! ### The threshold -/

/-- **MQ-ECN threshold.** In every reachable state with a positive estimate, the threshold is
the share of the port threshold that is due if and only if the 32-bit product fits. The
estimate is at most the quanta of all queues, and none of its updates overflows 32 bits. -/
theorem mqEcnGenerThresh_exact_iff {bfifo : Bfifo} (bounded : bfifo.Bounded) {s : Sys}
    (reachable : Reachable bfifo s) :
    (∀ params cl, 0 ≤ params.value .portThreshBytes → params.value .portThreshBytes ≤ 2000000 →
      0 < s.q.quantumSumEstimate →
      (mqEcnGenerThresh params s.q cl =
          generFormula cl.quantum (params.value .portThreshBytes).toNat s.q.quantumSumEstimate ↔
        ProductFits cl.quantum (params.value .portThreshBytes).toNat s.q.quantumSumEstimate)) ∧
    s.q.quantumSumEstimate ≤ 7 * 204800 ∧
    (∀ now i skb s', Step bfifo s (.dequeue now (.packet (dwrrId i) skb)) s' →
      quantumAlpha s.params * s.q.quantumSumEstimate +
          (1000 - quantumAlpha s.params) * s'.q.quantumSum < 2 ^ 32 ∧
        s'.q.quantumSumEstimate =
          (quantumAlpha s.params * s.q.quantumSumEstimate +
            (1000 - quantumAlpha s.params) * s'.q.quantumSum) / 1000) ∧
    ∀ intervals, (decayQuantumSum s.params)^[intervals] s.q.quantumSumEstimate =
      (decayedSum s.params)^[intervals] s.q.quantumSumEstimate := by
  have sound := sound_of_reachable bounded reachable
  have total : quantumTotal = 7 * 204800 := rfl
  have estimate := sound.estimate_le
  refine ⟨fun params cl nonneg small positive => ?_, total ▸ estimate,
    fun now i skb s' step => ?_, iterate_decayQuantumSum_eq s.params estimate⟩
  · rw [mqEcnGenerThresh_eq nonneg small positive]
    exact min_cut_eq_iff_fits positive (by omega)
  · rw [quantumSumEstimate_of_packet step]
    exact smoothQuantumSum_eq s.params estimate (sound.scheduled.step step).quantumSum_le

/-- A queue with the largest quantum has sent two of its three frames. -/
def generousHistory : List (Event Param) :=
  [.sysctl .ecnScheme 3, .sysctl (.queueQuantum 0) 204800, .enqueue 0 (fullFrame 4) .success,
    .enqueue 0 (fullFrame 4) .success, .enqueue 0 (fullFrame 4) .success,
    .dequeue 20000 (.packet 1 (fullFrame 4)), .dequeue 40000 (.packet 1 (fullFrame 4))]

private theorem generousHistory_replays :
    (replay (Sys.next byteLimit 1) (fun _ => True) idle generousHistory).isSome = true := by
  decide

def generous : Sys :=
  (replay (Sys.next byteLimit 1) (fun _ => True) idle generousHistory).get
    generousHistory_replays

private theorem generous_reachable : Reachable byteLimit generous :=
  ⟨idle, generousHistory, ⟨_, rfl⟩,
    (RunWithin.of_replay_isSome Sys.next_sound generousHistory_replays).run⟩

/-- Its product is cut, and its threshold is 20636 bytes where 30000 are due. -/
theorem generous_threshold :
    Reachable byteLimit generous ∧ 0 < generous.q.quantumSumEstimate ∧
      (generous.q.dwrrQueues 0).quantum = 204800 ∧
      mqEcnGenerThresh generous.params generous.q (generous.q.dwrrQueues 0) = 20636 ∧
      generFormula (generous.q.dwrrQueues 0).quantum
        (generous.params.value .portThreshBytes).toNat generous.q.quantumSumEstimate = 30000 :=
  ⟨generous_reachable, by decide, by decide, by decide,
    by decide⟩

/-- With the smallest quantum its product fits. -/
def modest : DwrrClass := { generous.q.dwrrQueues 0 with quantum := 1538 }

theorem modest_threshold :
    mqEcnGenerThresh generous.params generous.q modest =
      generFormula 1538 (generous.params.value .portThreshBytes).toNat
        generous.q.quantumSumEstimate :=
  ((mqEcnGenerThresh_exact_iff byteLimit_bounded generous_reachable).1 generous.params modest
    (by decide) (by decide) (by decide)).mpr
    (Or.inl (by decide))

end MqEcn.Kernel.PrioDwrr
