import MqEcn.Ns2.Marking
import MqEcn.Ns2.Sums
import MqEcn.Ns2.Wfq.Fairness

/-!
Contract: the threshold of `MQ_MARKING_GENER` in the WFQ discipline.

Owns: what every operation does to `weight_sum_estimate`, the range that whole runs keep it in,
and the lengths between which a queue starts to mark.

Does not own: the sum of weights, and the other schemes.
-/

set_option autoImplicit false

namespace MqEcn.Ns2.Wfq

open Finset
open Set (Icc)
open MqEcn.Library.Smoothing
open MqEcn.Library.Transition

/-- `weight_sum_estimate` with what it follows. -/
def estimate (q : WfqQueue) : Estimate ℚ := ⟨q.weightSumEstimate, q.weightSum, q.lastIdleTime⟩

/-- The settings under which `MQ_MARKING_GENER` shares out the port threshold. -/
structure Sharing (config : Config) : Prop where
  scheme : config.markingScheme = mqMarkingGener
  alpha : config.estimateWeightAlpha ∈ Icc (0 : ℚ) 1
  thresh : 0 ≤ config.portThresh
  size : 0 ≤ config.meanPktsize

/-- An operation that changes the weight of no queue that holds packets. -/
def Keeping (pow : ℚ → ℚ → ℚ) (s : Sys) (event : Event Command) (s' : Sys) : Prop :=
  Step pow s event s' ∧ KeepsShares s event

/-- The weights of the queues in use. -/
def totalWeight (config : Config) (q : WfqQueue) : ℚ := ∑ k ∈ inUse config, (q.queues k).weight

/-- What estimation reads of the past is left as it is. -/
structure SameEstimate (q q' : WfqQueue) : Prop where
  value : q'.weightSumEstimate = q.weightSumEstimate
  idle : q'.lastIdleTime = q.lastIdleTime

/-! ### Operations -/

section

variable {pow : ℚ → ℚ → ℚ} {config : Config} {now limit : ℚ} {q q' : WfqQueue} {i : Fin 64}
  {p : Packet}

theorem sameEstimate_startTimer (config : Config) (q : WfqQueue) :
    SameEstimate q (startTimer config q) := by
  unfold startTimer
  split <;> exact ⟨rfl, rfl⟩

/-- The stamp of a packet that may have found its queue empty. -/
theorem sameEstimate_stamp {stamped : WfqQueue}
    (stamps : (if (q.queues i).packets = [] then activate i p.size q else some q) =
      some stamped) :
    SameEstimate q stamped ∧ (stamped.queues i).packets = (q.queues i).packets ∧
      (stamped.queues i).weight = (q.queues i).weight := by
  split at stamps
  · unfold activate at stamps
    simp only [Option.ite_none_right_eq_some, Option.some.injEq] at stamps
    obtain ⟨_, rfl⟩ := stamps
    simp only [Function.update_self, and_self, and_true]
    exact ⟨rfl, rfl⟩
  · cases stamps
    exact ⟨⟨rfl, rfl⟩, rfl, rfl⟩

theorem sameEstimate_advance {advanced : WfqQueue} (advances : advance i q = some advanced) :
    SameEstimate q advanced := by
  unfold advance at advances
  simp only at advances
  split at advances
  · cases advances
    exact ⟨rfl, rfl⟩
  · simp only [Option.ite_none_right_eq_some, Option.some.injEq] at advances
    obtain ⟨_, rfl⟩ := advances
    exact ⟨rfl, rfl⟩

/-- The queues as an arrival finds them, after the decay. -/
def settled (pow : ℚ → ℚ → ℚ) (config : Config) (now : ℚ) (q : WfqQueue) : WfqQueue :=
  decayEstimate pow config now (startTimer config q)

private theorem sameSchedule_settled (pow : ℚ → ℚ → ℚ) (config : Config) (now : ℚ) (q : WfqQueue) :
    SameSchedule q (settled pow config now q) :=
  (sameSchedule_startTimer config q).trans
    (sameSchedule_decayEstimate pow config now (startTimer config q))

/-- The decay is one by the rest of the port. -/
theorem settled_estimate (pow : ℚ → ℚ → ℚ) (config : Config) (now : ℚ) (q : WfqQueue) :
    (settled pow config now q).lastIdleTime = q.lastIdleTime ∧
      ((settled pow config now q).weightSumEstimate = q.weightSumEstimate ∨
        (settled pow config now q).weightSumEstimate =
          if 0 < config.estimateWeightIntervalBytes ∧ 0 < config.linkCapacity then
            q.weightSumEstimate * pow config.estimateWeightAlpha
              ((now - q.lastIdleTime) /
                (config.estimateWeightIntervalBytes * 8 / config.linkCapacity))
          else 0) := by
  obtain ⟨value, since⟩ := sameEstimate_startTimer config q
  unfold settled decayEstimate
  split
  · simp only [value, since]
    exact ⟨trivial, Or.inr trivial⟩
  · exact ⟨since, Or.inl value⟩

/-- What such a decay does to the estimate. -/
theorem moves_of_decayed (weakening : Weakening pow)
    (factor : config.estimateWeightAlpha ∈ Icc (0 : ℚ) 1) (idle : q.lastIdleTime ≤ now)
    (since : q'.lastIdleTime = q.lastIdleTime)
    (value : q'.weightSumEstimate = q.weightSumEstimate ∨
      q'.weightSumEstimate =
        if 0 < config.estimateWeightIntervalBytes ∧ 0 < config.linkCapacity then
          q.weightSumEstimate * pow config.estimateWeightAlpha
            ((now - q.lastIdleTime) /
              (config.estimateWeightIntervalBytes * 8 / config.linkCapacity))
        else 0) :
    Moves config.estimateWeightAlpha now (estimate q) (estimate q') := by
  have slot : 0 < config.estimateWeightIntervalBytes ∧ 0 < config.linkCapacity →
      0 ≤ config.estimateWeightIntervalBytes * 8 / config.linkCapacity := by
    rintro ⟨interval, capacity⟩
    positivity
  rcases value with kept | decayed
  · exact .keep kept (Or.inl since)
  · exact moves_of_rest weakening factor idle slot decayed since

private theorem moves_settled (weakening : Weakening pow)
    (factor : config.estimateWeightAlpha ∈ Icc (0 : ℚ) 1) (idle : q.lastIdleTime ≤ now)
    (same : SameEstimate (settled pow config now q) q') :
    Moves config.estimateWeightAlpha now (estimate q) (estimate q') := by
  obtain ⟨since, value⟩ := settled_estimate pow config now q
  exact moves_of_decayed weakening factor idle (same.idle.trans since)
    (value.imp same.value.trans same.value.trans)

/-- The sampling follows the sum that the deque leaves behind. -/
theorem moves_sampleEstimate (config : Config) (now : ℚ) (same : SameEstimate q q') :
    Moves config.estimateWeightAlpha now (estimate q)
      (estimate (sampleEstimate config now q')) := by
  obtain ⟨value, since⟩ := same
  have sampled : smoothWeightSum config q' = (estimate q).value * config.estimateWeightAlpha +
      q'.weightSum * (1 - config.estimateWeightAlpha) := by
    unfold smoothWeightSum
    rw [value]
    rfl
  unfold sampleEstimate
  simp only
  split_ifs
  · exact .sample sampled (Or.inr rfl)
  · exact .sample sampled (Or.inl since)
  · exact .keep value (Or.inr rfl)
  · exact .keep value (Or.inl since)
  · exact .keep value (Or.inl since)

/-- A packet that is taken is stored behind the others, as the marker leaves it. -/
theorem admission_marks (returns : admission config now p q = some q') :
    SameEstimate q q' ∧ ∃ stamped marked, SameEstimate q stamped ∧
      (stamped.queues (classify config p)).packets = (q.queues (classify config p)).packets ∧
      (stamped.queues (classify config p)).weight = (q.queues (classify config p)).weight ∧
      enqueMarking config now (classify config p) p (push (classify config p) p stamped) =
        some marked ∧
      (q'.queues (classify config p)).packets =
        (q.queues (classify config p)).packets ++ [marked] := by
  simp only [admission, Option.bind_eq_some_iff, Option.map_eq_some_iff] at returns
  obtain ⟨stamped, stamps, marked, marks, rfl⟩ := returns
  obtain ⟨same, packets, weight⟩ := sameEstimate_stamp stamps
  refine ⟨⟨same.value, same.idle⟩, stamped, marked, same, packets, weight, marks, ?_⟩
  simp only [push, Function.update_self, packets]

private theorem enque_settles {taken : Bool}
    (returns : enque pow config now p q = some (q', taken)) :
    SameEstimate (settled pow config now q) q' := by
  unfold enque at returns
  simp only at returns
  split at returns
  · cases returns
    exact ⟨rfl, rfl⟩
  · simp only [Option.map_eq_some_iff, Prod.mk.injEq] at returns
    obtain ⟨last, admitted, rfl, _⟩ := returns
    exact (admission_marks admitted).1

private theorem deque_samples {answer : Option (Fin 64 × Packet)}
    (returns : deque config now q = some (q', answer)) :
    ∃ popped, SameEstimate q popped ∧ q' = sampleEstimate config now popped := by
  unfold deque at returns
  split at returns
  · split at returns
    · cases returns
    · split at returns
      · cases returns
      · simp only [Option.map_eq_some_iff, Prod.mk.injEq] at returns
        obtain ⟨advanced, advances, rfl, _⟩ := returns
        have same := sameEstimate_advance advances
        exact ⟨advanced, ⟨same.value, same.idle⟩, rfl⟩
  · cases returns
    exact ⟨q, ⟨rfl, rfl⟩, rfl⟩

/-! ### The sum of weights -/

private theorem share_range (sound : Sound config q) (k : Fin 64) :
    0 ≤ (q.queues k).share ∧ (q.queues k).share ≤ (q.queues k).weight := by
  have positive := sound.weights k
  unfold PacketWfq.share
  split
  · exact ⟨le_rfl, positive.le⟩
  · exact ⟨positive.le, le_rfl⟩

/-- The sum is one over queues in use. -/
theorem weightSum_range (sound : Sound config q) (exact : WeightSumExact q) :
    0 ≤ q.weightSum ∧ q.weightSum ≤ totalWeight config q := by
  unfold WeightSumExact at exact
  rw [exact]
  refine ⟨sum_nonneg fun k _ => (share_range sound k).1, ?_⟩
  unfold totalWeight inUse
  rw [sum_filter]
  apply sum_le_sum
  intro k _
  split
  next => exact (share_range sound k).2
  next beyond =>
    unfold PacketWfq.share
    rw [if_pos (sound.outside k (not_lt.mp beyond))]

/-- A queue is replaced by one with the same share. -/
theorem weightSumExact_of_share {cl : PacketWfq} (exact : WeightSumExact q)
    (queues : q'.queues = Function.update q.queues i cl) (sum : q'.weightSum = q.weightSum)
    (share : cl.share = (q.queues i).share) : WeightSumExact q' := by
  unfold WeightSumExact
  rw [sum_share_update queues, share, sub_self, add_zero, sum]
  exact exact

theorem weight_le_totalWeight (sound : Sound config q) (inside : (i : Nat) < config.queueNum) :
    (q.queues i).weight ≤ totalWeight config q := by
  have member : i ∈ inUse config := mem_filter.mpr ⟨mem_univ i, inside⟩
  have nonneg : ∀ k ∈ inUse config, 0 ≤ (q.queues k).weight := fun k _ => (sound.weights k).le
  exact single_le_sum nonneg member

/-- The marker of a queue under `MQ_MARKING_GENER`. -/
theorem enqueMarking_gener {marked : Packet} (sharing : Sharing config)
    (inside : (i : Nat) < config.queueNum)
    (marks : enqueMarking config now i p q = some marked) :
    (if decide (portion (1 / 1000000000) (q.queues i).weight q.weightSumEstimate
        config.portThresh * config.meanPktsize < (byteLength (q.queues i).packets : ℚ)) = true ∧
      p.ect then { p with ce := true } else p) = marked := by
  unfold enqueMarking markingEcn at marks
  simp only [sharing.scheme, if_neg (not_le.mpr inside)] at marks
  exact Option.some.inj marks

/-- A queue that takes a packet marks it between its share of the port threshold and the whole,
while the estimate is within the limit. -/
theorem enque_sharesOut (sharing : Sharing config) (sound : Sound config q)
    (within : totalWeight config q ≤ limit)
    (below : (settled pow config now q).weightSumEstimate ≤ limit)
    (returns : enque pow config now p q = some (q', true)) :
    SharesOut limit (q.queues (classify config p)).weight config.portThresh config.meanPktsize
      (q.queues (classify config p)).packets (q'.queues (classify config p)).packets p := by
  have queues := (sameSchedule_settled pow config now q).queues
  have inside := classify_lt config p
  have own := (weight_le_totalWeight sound inside).trans within
  unfold enque at returns
  simp only at returns
  split at returns
  · cases returns
  · simp only [Option.map_eq_some_iff, Prod.mk.injEq, and_true] at returns
    obtain ⟨last, admitted, rfl⟩ := returns
    obtain ⟨_, stamped, marked, same, packets, weight, marks, after⟩ := admission_marks admitted
    rw [show decayEstimate pow config now (startTimer config q) = settled pow config now q
      from rfl] at same packets weight after
    rw [queues] at packets weight after
    rw [after]
    apply sharesOut_of_portion sharing.thresh sharing.size (sound.weights _).le own below rfl
    have gener := enqueMarking_gener sharing inside marks
    simp only [push, Function.update_self, weight, packets, same.value] at gener
    exact gener

end

/-! ### Runs -/

/-- Within a limit: the estimate at some state that operations reach which keep the shares of busy
queues, and the weights in use ever since. -/
def WithinLimit (pow : ℚ → ℚ → ℚ) (limit : ℚ) (s : Sys) : Prop :=
  ∃ first events,
    MqEcn.Library.Transition.Reachable (fun s => Initial s ∧ 0 ≤ s.clock) (Keeping pow) first ∧
    first.q.weightSumEstimate ≤ limit ∧
    RunWithin (fun s => totalWeight s.config s.q ≤ limit) (Keeping pow) first events s

section

variable {pow : ℚ → ℚ → ℚ} {config : Config} {limit : ℚ} {s s' : Sys}

theorem config_of_run {events : List (Event Command)} (run : Run (Keeping pow) s events s') :
    s'.config = s.config :=
  run.preserves (fun last => last.config = s.config)
    (fun step same => by cases step.1 <;> exact same) rfl

/-- The operations as steps of an estimate. -/
theorem estimating (weakening : Weakening pow) (sharing : Sharing config) :
    Estimating (Keeping pow) (fun s => estimate s.q) Discipline.clock config.estimateWeightAlpha
      (fun s => s.config = config ∧ Sound s.config s.q ∧ WeightSumExact s.q) where
  kept := by
    rintro s event s' ⟨step, keeps⟩ ⟨same, sound, exact⟩
    refine ⟨?_, sound.step step, weightSumExact_step step keeps exact⟩
    cases step <;> exact same
  later := by
    rintro s event s' ⟨step, _⟩
    cases step with
    | enque later | deque later | timeout later => exact later
    | command => exact le_rfl
  moves := by
    rintro s event s' ⟨step, _⟩ ⟨rfl, _⟩ idle
    cases step with
    | enque later returns =>
        exact moves_settled weakening sharing.alpha (idle.trans later) (enque_settles returns)
    | deque later returns =>
        obtain ⟨popped, same, rfl⟩ := deque_samples returns
        exact moves_sampleEstimate s.config _ same
    | @command request q' returns =>
        cases request with
        | setWeight queueId weight =>
            obtain ⟨i, _, _, _, rfl⟩ := setWeight_cases returns
            exact .keep rfl (Or.inl rfl)
        | setThresh queueId thresh =>
            obtain ⟨i, _, rfl⟩ := setThresh_cases returns
            exact .keep rfl (Or.inl rfl)
    | timeout later pending => exact .sample rfl (Or.inl rfl)
  nonneg := fun isSound => (weightSum_range isSound.2.1 isSound.2.2).1

/-- The estimate is within the limit in every such state. -/
theorem inRange_of_withinLimit (weakening : Weakening pow) (sharing : Sharing s.config)
    (within : WithinLimit pow limit s) :
    Sound s.config s.q ∧ totalWeight s.config s.q ≤ limit ∧ s.q.weightSum ∈ Icc 0 limit ∧
      InRange limit s.clock (estimate s.q) := by
  obtain ⟨first, events, ⟨start, history, ⟨fresh, begins⟩, before⟩, below, during⟩ := within
  have sameConfig : start.config = s.config :=
    ((config_of_run during.run).trans (config_of_run before)).symm
  have soundStart : start.config = s.config ∧ Sound start.config start.q ∧
      WeightSumExact start.q := by
    rw [fresh]
    refine ⟨sameConfig, sound_construct start.config, ?_⟩
    show (0 : ℚ) = ∑ _, 0
    rw [sum_const_zero]
  have rangeStart : InRange 0 start.clock (estimate start.q) := by
    rw [fresh]
    exact ⟨⟨le_rfl, le_rfl⟩, begins⟩
  obtain ⟨soundLast, inRange⟩ := (estimating weakening sharing).inRange_since sharing.alpha before
    during soundStart rangeStart below
    fun s' isSound total => (weightSum_range isSound.2.1 isSound.2.2).2.trans total
  have sum := weightSum_range soundLast.2.1 soundLast.2.2
  exact ⟨soundLast.2.1, during.good_last, ⟨sum.1, sum.2.trans during.good_last⟩, inRange⟩

/-- What an arrival finds. -/
theorem sharesOut_of_withinLimit {now : ℚ} {p : Packet} {q' : WfqQueue} (weakening : Weakening pow)
    (within : WithinLimit pow limit s) (sharing : Sharing s.config) (later : s.clock ≤ now)
    (returns : enque pow s.config now p s.q = some (q', true)) :
    SharesOut limit (s.q.queues (classify s.config p)).weight s.config.portThresh
      s.config.meanPktsize (s.q.queues (classify s.config p)).packets
      (q'.queues (classify s.config p)).packets p := by
  obtain ⟨sound, total, sum, range⟩ := inRange_of_withinLimit weakening sharing within
  have decayed : Moves s.config.estimateWeightAlpha now (estimate s.q)
      (estimate (settled pow s.config now s.q)) :=
    moves_settled weakening sharing.alpha (range.idle.trans later) ⟨rfl, rfl⟩
  rw [← (sameSchedule_settled pow s.config now s.q).weightSum] at sum
  exact enque_sharesOut sharing sound total (decayed.value_mem sharing.alpha sum range.value).2
    returns

end

end MqEcn.Ns2.Wfq
