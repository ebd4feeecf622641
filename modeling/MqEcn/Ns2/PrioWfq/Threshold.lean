import MqEcn.Ns2.PrioWfq.Schedule
import MqEcn.Ns2.Wfq.Threshold

/-!
Contract: the threshold of `MQ_MARKING_GENER` below the priority queues of PRIO_WFQ.

Owns: the sum of weights and its estimate in every run that leaves the weights of busy queues
alone, and the lengths between which a WFQ queue starts to mark.

Does not own: the marking of the priority queues.
-/

set_option autoImplicit false

namespace MqEcn.Ns2.PrioWfq

open Set (Icc)
open MqEcn.Library.Smoothing
open MqEcn.Library.Transition
open MqEcn.Ns2.StrictPriority (QueueId)
open MqEcn.Ns2.Wfq (estimate Sharing SameEstimate totalWeight WeightSumExact weightSum_range
  weightSumExact_of_same weightSumExact_of_share weightSumExact_enque weightSumExact_deque
  sameEstimate_startTimer sameEstimate_stamp sameEstimate_advance moves_of_decayed
  smoothWeightSum)

/-- A command that changes the weight of no WFQ queue that holds packets. -/
def KeepsShares (s : Sys) : Event → Prop
  | .command (.setWeight queueId weight) =>
      ∀ i : Fin 64, (i : Int) = queueId - s.config.prioQueueNum →
        (s.q.wfq.queues i).packets = [] ∨ (weight : ℚ) = (s.q.wfq.queues i).weight
  | _ => True

/-- An operation that changes the weight of no queue that holds packets. -/
def Keeping (pow : ℚ → ℚ → ℚ) (s : Sys) (event : Event) (s' : Sys) : Prop :=
  Step pow s event s' ∧ KeepsShares s event

/-! ### Operations -/

section

variable {pow : ℚ → ℚ → ℚ} {config : Config} {now limit : ℚ} {q q' : PrioWfqQueue} {i : Fin 64}
  {p : Packet}

private theorem settle_estimate (pow : ℚ → ℚ → ℚ) (config : Config) (now : ℚ) (q : PrioWfqQueue) :
    (settle pow config now q).wfq.lastIdleTime = q.wfq.lastIdleTime ∧
      ((settle pow config now q).wfq.weightSumEstimate = q.wfq.weightSumEstimate ∨
        (settle pow config now q).wfq.weightSumEstimate =
          if 0 < config.estimateWeightIntervalBytes ∧ 0 < config.linkCapacity then
            q.wfq.weightSumEstimate * pow config.estimateWeightAlpha
              ((now - q.wfq.lastIdleTime) /
                (config.estimateWeightIntervalBytes * 8 / config.linkCapacity))
          else 0) := by
  obtain ⟨value, since⟩ := sameEstimate_startTimer config.toConfig q.wfq
  unfold settle decayEstimate
  split
  · simp only [value, since]
    exact ⟨trivial, Or.inr trivial⟩
  · exact ⟨since, Or.inl value⟩

private theorem moves_settle (weakening : Weakening pow)
    (factor : config.estimateWeightAlpha ∈ Icc (0 : ℚ) 1) (idle : q.wfq.lastIdleTime ≤ now)
    (same : SameEstimate (settle pow config now q).wfq q'.wfq) :
    Moves config.estimateWeightAlpha now (estimate q.wfq) (estimate q'.wfq) := by
  obtain ⟨since, value⟩ := settle_estimate pow config now q
  exact moves_of_decayed weakening factor idle (same.idle.trans since)
    (value.imp same.value.trans same.value.trans)

/-- The sampling follows the sum that the deque leaves behind. -/
theorem moves_sampleEstimate (config : Config) (now : ℚ) (same : SameEstimate q.wfq q'.wfq) :
    Moves config.estimateWeightAlpha now (estimate q.wfq)
      (estimate (sampleEstimate config now q').wfq) := by
  obtain ⟨value, since⟩ := same
  have sampled : smoothWeightSum config.toConfig q'.wfq =
      (estimate q.wfq).value * config.estimateWeightAlpha +
        q'.wfq.weightSum * (1 - config.estimateWeightAlpha) := by
    unfold smoothWeightSum
    rw [value]
    rfl
  unfold sampleEstimate
  simp only
  split_ifs
  · exact .sample sampled (Or.inr rfl)
  · exact .keep value (Or.inr rfl)
  · exact .sample sampled (Or.inl since)
  · exact .keep value (Or.inl since)
  · exact .keep value (Or.inl since)

/-- A packet of a WFQ queue is stored behind the others, as the marker leaves it. -/
theorem admission_marks (returns : admission config now p q = some q') :
    SameEstimate q.wfq q'.wfq ∧
      ∀ i, queueOf config (queueIndex config p) = some (.inr i) → ∃ stamped marked,
        SameEstimate q.wfq stamped ∧
        (stamped.queues i).packets = (q.wfq.queues i).packets ∧
        (stamped.queues i).weight = (q.wfq.queues i).weight ∧
        enqueMarking config now (queueIndex config p) p (pushWfq i p { q with wfq := stamped }) =
          some marked ∧
        (q'.wfq.queues i).packets = (q.wfq.queues i).packets ++ [marked] := by
  unfold admission at returns
  simp only at returns
  split at returns
  · cases returns
  next k target =>
    obtain ⟨marked, _, rfl⟩ := Option.map_eq_some_iff.mp returns
    refine ⟨⟨rfl, rfl⟩, fun i here => ?_⟩
    rw [target] at here
    cases here
  next k target =>
    obtain ⟨stamped, stamps, marks⟩ := Option.bind_eq_some_iff.mp returns
    obtain ⟨marked, isMarked, rfl⟩ := Option.map_eq_some_iff.mp marks
    obtain ⟨same, packets, weight⟩ := sameEstimate_stamp stamps
    refine ⟨⟨same.value, same.idle⟩, fun i here => ?_⟩
    rw [target] at here
    cases here
    refine ⟨stamped, marked, same, packets, weight, isMarked, ?_⟩
    simp only [pushWfq, Wfq.push, Function.update_self, packets]

private theorem enque_settles {taken : Bool}
    (returns : enque pow config now p q = some (q', taken)) :
    SameEstimate (settle pow config now q).wfq q'.wfq := by
  unfold enque at returns
  simp only at returns
  generalize settle pow config now q = settled at returns ⊢
  split at returns
  · cases returns
    exact ⟨rfl, rfl⟩
  · simp only [Option.map_eq_some_iff, Prod.mk.injEq] at returns
    obtain ⟨last, admitted, rfl, _⟩ := returns
    exact (admission_marks admitted).1

private theorem deque_moves {answer : Option (QueueId × Packet)}
    (returns : deque config now q = some (q', answer)) :
    Moves config.estimateWeightAlpha now (estimate q.wfq) (estimate q'.wfq) := by
  unfold deque at returns
  split at returns
  · unfold dequePrio at returns
    split at returns <;> cases returns <;> exact .keep rfl (Or.inl rfl)
  · split at returns
    · obtain ⟨⟨wfq, sent⟩, serves, same⟩ := Option.map_eq_some_iff.mp returns
      cases same
      unfold dequeWfq at serves
      split at serves
      · cases serves
      · split at serves
        · cases serves
        · obtain ⟨advanced, advances, same⟩ := Option.map_eq_some_iff.mp serves
          cases same
          have kept := sameEstimate_advance advances
          exact moves_sampleEstimate config now ⟨kept.value, kept.idle⟩
    · cases returns
      exact moves_sampleEstimate config now ⟨rfl, rfl⟩

/-- The marker of a WFQ queue under `MQ_MARKING_GENER`. -/
theorem enqueMarking_gener {index : Nat} {marked : Packet} (sharing : Sharing config.toConfig)
    (target : queueOf config index = some (.inr i))
    (marks : enqueMarking config now index p q = some marked) :
    (if decide (portion (1 / 1000000000) (q.wfq.queues i).weight q.wfq.weightSumEstimate
        config.portThresh * config.meanPktsize <
          (byteLength (q.wfq.queues i).packets : ℚ)) = true ∧
      p.ect then { p with ce := true } else p) = marked := by
  unfold enqueMarking markingEcn at marks
  simp only [sharing.scheme, target] at marks
  exact Option.some.inj marks

/-- A WFQ queue that takes a packet marks it between its share of the port threshold and the
whole, while the estimate is within the limit. -/
theorem enque_sharesOut (sharing : Sharing config.toConfig) (valid : Valid config q)
    (within : totalWeight config.toConfig q.wfq ≤ limit)
    (below : (estimate (settle pow config now q).wfq).value ≤ limit)
    (target : queueOf config (queueIndex config p) = some (.inr i))
    (returns : enque pow config now p q = some (q', true)) :
    SharesOut limit (q.wfq.queues i).weight config.portThresh config.meanPktsize
      (q.wfq.queues i).packets (q'.wfq.queues i).packets p := by
  have queues := (sameSchedule_settle pow config now q).queues
  have own := (Wfq.weight_le_totalWeight valid.sound (queueOf_eq_inr target)).trans within
  unfold enque at returns
  simp only at returns
  generalize settle pow config now q = settled at returns queues below
  split at returns
  · cases returns
  · simp only [Option.map_eq_some_iff, Prod.mk.injEq, and_true] at returns
    obtain ⟨last, admitted, rfl⟩ := returns
    obtain ⟨stamped, marked, same, packets, weight, marks, after⟩ :=
      (admission_marks admitted).2 i target
    rw [queues] at packets weight after
    rw [after]
    apply sharesOut_of_portion sharing.thresh sharing.size (valid.sound.weights i).le own below rfl
    have gener := enqueMarking_gener sharing target marks
    simp only [pushWfq, Wfq.push, Function.update_self, weight, packets, same.value] at gener
    exact gener

private theorem weightSumExact_command {request : Command} {clock : ℚ}
    (exact : WeightSumExact q.wfq) (keeps : KeepsShares ⟨config, q, clock⟩ (.command request))
    (returns : command config q request = some q') :
    WeightSumExact q'.wfq ∧ SameEstimate q.wfq q'.wfq := by
  cases request with
  | setWeight queueId weight =>
      simp only [command, setWeight, Option.dite_none_right_eq_some,
        Option.ite_none_right_eq_some, Option.some.injEq] at returns
      obtain ⟨inside, positive, rfl⟩ := returns
      have unchanged := keeps ⟨_, config.wfq_lt inside.2⟩ (Int.toNat_of_nonneg inside.1)
      refine ⟨weightSumExact_of_share exact rfl rfl ?_, rfl, rfl⟩
      unfold Wfq.PacketWfq.share
      simp only
      split
      next => rfl
      next busy => exact unchanged.resolve_left busy
  | setThresh queueId thresh =>
      simp only [command, setThresh, Option.ite_none_right_eq_some,
        Option.map_eq_some_iff] at returns
      obtain ⟨_, queue, _, rfl⟩ := returns
      cases queue with
      | inl k => exact ⟨exact, rfl, rfl⟩
      | inr k => exact ⟨weightSumExact_of_share exact rfl rfl rfl, rfl, rfl⟩

end

/-! ### Runs -/

/-- Within a limit: the estimate at some state that operations reach which keep the shares of busy
queues, and the weights in use ever since. -/
def WithinLimit (pow : ℚ → ℚ → ℚ) (limit : ℚ) (s : Sys) : Prop :=
  ∃ first events,
    MqEcn.Library.Transition.Reachable (fun s => Initial s ∧ 0 ≤ s.clock) (Keeping pow) first ∧
    first.q.wfq.weightSumEstimate ≤ limit ∧
    RunWithin (fun s => totalWeight s.config.toConfig s.q.wfq ≤ limit) (Keeping pow) first events s

section

variable {pow : ℚ → ℚ → ℚ} {config : Config} {limit : ℚ} {s s' : Sys} {event : Event}

theorem config_of_run {events : List Event} (run : Run (Keeping pow) s events s') :
    s'.config = s.config :=
  run.preserves (fun last => last.config = s.config)
    (fun step same => by cases step.1 <;> exact same) rfl

private theorem weightSumExact_step (step : Keeping pow s event s') (valid : Valid s.config s.q)
    (exact : WeightSumExact s.q.wfq) : WeightSumExact s'.q.wfq := by
  obtain ⟨step, keeps⟩ := step
  cases step with
  | enque later returns =>
      cases valid.enque_cases returns with
      | drop wfq | prio _ _ wfq => exact weightSumExact_of_same wfq exact
      | wfq _ _ _ _ wfq => exact weightSumExact_enque exact wfq
  | deque later returns =>
      cases valid.deque_cases returns with
      | prio found after => exact after ▸ exact
      | wfq idle wfq => exact weightSumExact_deque exact wfq
      | idle empty wfq => exact weightSumExact_of_same wfq exact
  | command returns => exact (weightSumExact_command exact keeps returns).1
  | timeout later pending => exact exact

/-- The operations as steps of an estimate. -/
theorem estimating (weakening : Weakening pow) (sharing : Sharing config.toConfig) :
    Estimating (Keeping pow) (fun s => estimate s.q.wfq) Discipline.clock config.estimateWeightAlpha
      (fun s => s.config = config ∧ Valid s.config s.q ∧ WeightSumExact s.q.wfq) where
  kept := by
    rintro s event s' step ⟨same, valid, exact⟩
    refine ⟨?_, valid.step step.1, weightSumExact_step step valid exact⟩
    cases step.1 <;> exact same
  later := by
    rintro s event s' ⟨step, _⟩
    cases step with
    | enque later | deque later | timeout later => exact later
    | command => exact le_rfl
  moves := by
    rintro s event s' ⟨step, keeps⟩ ⟨rfl, _, exact⟩ idle
    cases step with
    | enque later returns =>
        exact moves_settle weakening sharing.alpha (idle.trans later) (enque_settles returns)
    | deque later returns => exact deque_moves returns
    | command returns =>
        have same := (weightSumExact_command exact keeps returns).2
        exact .keep same.value (Or.inl same.idle)
    | timeout later pending => exact .sample rfl (Or.inl rfl)
  nonneg := fun isSound => (weightSum_range isSound.2.1.sound isSound.2.2).1

/-- The estimate is within the limit in every such state. -/
theorem inRange_of_withinLimit (weakening : Weakening pow) (sharing : Sharing s.config.toConfig)
    (within : WithinLimit pow limit s) :
    Valid s.config s.q ∧ totalWeight s.config.toConfig s.q.wfq ≤ limit ∧
      s.q.wfq.weightSum ∈ Icc 0 limit ∧ InRange limit s.clock (estimate s.q.wfq) := by
  obtain ⟨first, events, ⟨start, history, ⟨fresh, begins⟩, before⟩, below, during⟩ := within
  have sameConfig : start.config = s.config :=
    ((config_of_run during.run).trans (config_of_run before)).symm
  have soundStart : start.config = s.config ∧ Valid start.config start.q ∧
      WeightSumExact start.q.wfq := by
    rw [fresh]
    refine ⟨sameConfig, valid_construct start.config, ?_⟩
    show (0 : ℚ) = ∑ _, 0
    rw [Finset.sum_const_zero]
  have rangeStart : InRange 0 start.clock (estimate start.q.wfq) := by
    rw [fresh]
    exact ⟨⟨le_rfl, le_rfl⟩, begins⟩
  obtain ⟨soundLast, inRange⟩ := (estimating weakening sharing).inRange_since sharing.alpha before
    during soundStart rangeStart below
    fun s' isSound total => (weightSum_range isSound.2.1.sound isSound.2.2).2.trans total
  have sum := weightSum_range soundLast.2.1.sound soundLast.2.2
  exact ⟨soundLast.2.1, during.good_last, ⟨sum.1, sum.2.trans during.good_last⟩, inRange⟩

/-- What an arrival finds. -/
theorem sharesOut_of_withinLimit {now : ℚ} {p : Packet} {q' : PrioWfqQueue} {i : Fin 64}
    (weakening : Weakening pow) (within : WithinLimit pow limit s)
    (sharing : Sharing s.config.toConfig) (later : s.clock ≤ now)
    (target : queueOf s.config (queueIndex s.config p) = some (.inr i))
    (returns : enque pow s.config now p s.q = some (q', true)) :
    SharesOut limit (s.q.wfq.queues i).weight s.config.portThresh s.config.meanPktsize
      (s.q.wfq.queues i).packets (q'.wfq.queues i).packets p := by
  obtain ⟨valid, total, sum, range⟩ := inRange_of_withinLimit weakening sharing within
  have decayed : Moves s.config.estimateWeightAlpha now (estimate s.q.wfq)
      (estimate (settle pow s.config now s.q).wfq) :=
    moves_settle weakening sharing.alpha (range.idle.trans later) ⟨rfl, rfl⟩
  have quantity : (estimate (settle pow s.config now s.q).wfq).quantity ∈ Icc 0 limit := by
    simp only [estimate, (sameSchedule_settle pow s.config now s.q).weightSum]
    exact sum
  exact enque_sharesOut sharing valid total
    (decayed.value_mem sharing.alpha quantity range.value).2 target returns

end

end MqEcn.Ns2.PrioWfq
