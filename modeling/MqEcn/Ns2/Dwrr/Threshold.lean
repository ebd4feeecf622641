import MqEcn.Ns2.Marking
import MqEcn.Ns2.Sums

/-!
Contract: the threshold of `MQ_MARKING_GENER` in the DWRR discipline.

Owns: what every operation does to `quantum_sum_estimate`, the range that whole runs keep it in,
and the lengths between which a queue starts to mark.

Does not own: the sum of quanta, the other schemes, and the marking of packets that leave.
-/

set_option autoImplicit false

namespace MqEcn.Ns2.Dwrr

open Finset
open Set (Icc)
open MqEcn.Library
open MqEcn.Library.Smoothing
open MqEcn.Library.Transition

/-- `quantum_sum_estimate` with what it follows. -/
def estimate (q : DwrrQueue) : Estimate ℚ := ⟨q.quantumSumEstimate, q.quantumSum, q.lastIdleTime⟩

/-- The settings under which `MQ_MARKING_GENER` shares out the port threshold. -/
structure Sharing (tuning : Tuning) : Prop where
  scheme : tuning.markingScheme = mqMarkingGener
  alpha : tuning.estimateQuantumAlpha ∈ Icc (0 : ℚ) 1
  thresh : 0 ≤ tuning.portThresh
  size : 0 ≤ tuning.meanPktsize

/-- An operation that changes the quantum of no queue that holds packets. -/
def Keeping (pow : ℚ → ℚ → ℚ) (s : Sys) (event : Event Command) (s' : Sys) : Prop :=
  Step pow s event s' ∧ KeepsShares s event

/-- The quanta of the first `queueNum` queues. -/
def totalQuantum (queueNum : Nat) (q : DwrrQueue) : Int :=
  ∑ k ∈ univ.filter fun k : Fin 64 => (k : Nat) < queueNum, (slots q k).quantum

/-- What estimation reads of the past is left as it is. -/
structure SameSample (q q' : DwrrQueue) : Prop where
  value : q'.quantumSumEstimate = q.quantumSumEstimate
  idle : q'.lastIdleTime = q.lastIdleTime

/-! ### Operations -/

section

variable {pow : ℚ → ℚ → ℚ} {tuning : Tuning} {now : ℚ} {q q' : DwrrQueue} {i : Fin 64}
  {p : Packet} {choice : Choice}

theorem SameSample.trans {q'' : DwrrQueue} (first : SameSample q q')
    (second : SameSample q' q'') : SameSample q q'' :=
  ⟨second.value.trans first.value, second.idle.trans first.idle⟩

private theorem sameSample_startTimer (tuning : Tuning) (q : DwrrQueue) :
    SameSample q (startTimer tuning q) := by
  unfold startTimer
  split <;> exact ⟨rfl, rfl⟩

/-- The queue of an arrival keeps its packets and its quantum while it joins the list. -/
theorem sameSample_activate {activated : DwrrQueue}
    (activates : activate now i q = some activated) :
    SameSample q activated ∧ (activated.queues i).packets = (q.queues i).packets ∧
      (activated.queues i).quantum = (q.queues i).quantum := by
  unfold activate at activates
  simp only at activates
  split at activates
  · cases activates
    exact ⟨⟨rfl, rfl⟩, rfl, rfl⟩
  · unfold insertTailList at activates
    simp only [Option.map_map, Option.map_eq_some_iff] at activates
    obtain ⟨links, _, rfl⟩ := activates
    simp only [Function.comp_apply, relink, Function.update_self, and_self, and_true]
    exact ⟨rfl, rfl⟩

private theorem sameSample_refresh (i : Fin 64) (q : DwrrQueue) : SameSample q (refresh i q) := by
  unfold refresh
  simp only
  split <;> exact ⟨rfl, rfl⟩

private theorem sameSample_rotate (rotates : rotate tuning now q = some q') : SameSample q q' := by
  unfold rotate removeHeadList insertTailList at rotates
  simp only [Option.bind_eq_some_iff, Option.map_eq_some_iff] at rotates
  obtain ⟨_, ⟨_, _, rfl⟩, _, _, rfl⟩ := rotates
  exact ⟨rfl, rfl⟩

theorem sameSample_select {fuel : Nat} (returns : select tuning now fuel q = some (q', choice)) :
    SameSample q q' := by
  induction fuel generalizing q with
  | zero => cases returns
  | succ fuel inductionHypothesis =>
      unfold select at returns
      split at returns
      · cases returns
      next i _ =>
        split at returns
        · exact inductionHypothesis returns
        · have refreshed := sameSample_refresh i q
          simp only at returns
          generalize refresh i q = visited at returns refreshed
          split at returns
          · cases returns
            exact refreshed
          · obtain ⟨next, rotates, continues⟩ := Option.bind_eq_some_iff.mp returns
            exact (refreshed.trans (sameSample_rotate rotates)).trans
              (inductionHypothesis continues)

theorem sameSample_retire
    (retires : retire tuning now choice (measure tuning now choice (pop choice q)) = some q') :
    SameSample q q' := by
  unfold retire removeHeadList at retires
  simp only at retires
  split at retires
  · simp only [Option.map_map, Option.map_eq_some_iff] at retires
    obtain ⟨_, _, rfl⟩ := retires
    exact ⟨rfl, rfl⟩
  · cases retires
    exact ⟨rfl, rfl⟩

/-- The decay is one by the rest of the port. -/
theorem decayIdle_estimate (pow : ℚ → ℚ → ℚ) (tuning : Tuning) (now : ℚ) (idle : Bool)
    (q : DwrrQueue) :
    (decayIdle pow tuning now idle (startTimer tuning q)).lastIdleTime = q.lastIdleTime ∧
      ((decayIdle pow tuning now idle (startTimer tuning q)).quantumSumEstimate =
          q.quantumSumEstimate ∨
        (decayIdle pow tuning now idle (startTimer tuning q)).quantumSumEstimate =
          if 0 < tuning.estimateQuantumIntervalBytes ∧ 0 < tuning.linkCapacity then
            q.quantumSumEstimate * pow tuning.estimateQuantumAlpha
              ((now - q.lastIdleTime) /
                (tuning.estimateQuantumIntervalBytes * 8 / tuning.linkCapacity))
          else 0) := by
  obtain ⟨value, since⟩ := sameSample_startTimer tuning q
  unfold decayIdle
  simp only
  split
  · simp only [value, since]
    exact ⟨trivial, Or.inr trivial⟩
  · split <;> exact ⟨since, Or.inl value⟩

theorem moves_decayIdle {idle : Bool} (weakening : Weakening pow)
    (factor : tuning.estimateQuantumAlpha ∈ Icc (0 : ℚ) 1) (before : q.lastIdleTime ≤ now)
    (same : SameSample (decayIdle pow tuning now idle (startTimer tuning q)) q') :
    Moves tuning.estimateQuantumAlpha now (estimate q) (estimate q') := by
  have slot : 0 < tuning.estimateQuantumIntervalBytes ∧ 0 < tuning.linkCapacity →
      (0 : ℚ) ≤ tuning.estimateQuantumIntervalBytes * 8 / tuning.linkCapacity := by
    rintro ⟨interval, capacity⟩
    have bytes : (0 : ℚ) < tuning.estimateQuantumIntervalBytes := Int.cast_pos.mpr interval
    positivity
  obtain ⟨since, kept | decayed⟩ := decayIdle_estimate pow tuning now idle q
  · exact .keep (same.value.trans kept) (Or.inl (same.idle.trans since))
  · exact moves_of_rest weakening factor before slot (same.value.trans decayed)
      (same.idle.trans since)

/-- The sampling follows the sum that the deque leaves behind. -/
theorem moves_finish (tuning : Tuning) (now : ℚ) (idle : Bool) (same : SameSample q q') :
    Moves tuning.estimateQuantumAlpha now (estimate q) (estimate (finish tuning now idle q')) := by
  obtain ⟨value, since⟩ := same
  have sampled : smoothQuantumSum tuning q' =
      (estimate q).value * tuning.estimateQuantumAlpha +
        q'.quantumSum * (1 - tuning.estimateQuantumAlpha) := by
    unfold smoothQuantumSum
    rw [value]
    rfl
  unfold finish sampleEstimate
  simp only
  split_ifs
  · exact .sample sampled (Or.inr rfl)
  · exact .keep value (Or.inr rfl)
  · exact .sample sampled (Or.inl since)
  · exact .keep value (Or.inl since)

end

section

variable {pow : ℚ → ℚ → ℚ} {config : Config} {now limit : ℚ} {q q' : DwrrQueue} {i : Fin 64}
  {p : Packet} {ring : List (Fin 64)}

/-- The queues as an arrival finds them, after the decay. -/
def settled (pow : ℚ → ℚ → ℚ) (config : Config) (now : ℚ) (q : DwrrQueue) : DwrrQueue :=
  decayIdle pow config.toTuning now (totalByteLength config q = 0) (startTimer config.toTuning q)

private theorem sameSchedule_settled (pow : ℚ → ℚ → ℚ) (config : Config) (now : ℚ) (q : DwrrQueue) :
    SameSchedule q (settled pow config now q) :=
  (sameSchedule_startTimer config.toTuning q).trans
    (sameSchedule_decayIdle pow config.toTuning now (totalByteLength config q = 0)
      (startTimer config.toTuning q))

/-- A packet that is taken is stored behind the others, as the marker leaves it. -/
theorem admission_marks (returns : admission config now p q = some q') :
    SameSample q q' ∧ ∃ activated marked, SameSample q activated ∧
      (activated.queues (classify config p)).packets = (q.queues (classify config p)).packets ∧
      (activated.queues (classify config p)).quantum = (q.queues (classify config p)).quantum ∧
      enqueMarking config now (classify config p) p (push (classify config p) p activated) =
        some marked ∧
      (q'.queues (classify config p)).packets =
        (q.queues (classify config p)).packets ++ [marked] := by
  simp only [admission, Option.bind_eq_some_iff, Option.map_eq_some_iff] at returns
  obtain ⟨activated, activates, marked, marks, rfl⟩ := returns
  obtain ⟨same, packets, quantum⟩ := sameSample_activate activates
  refine ⟨⟨same.value, same.idle⟩, activated, marked, same, packets, quantum, marks, ?_⟩
  simp only [push, Function.update_self, packets]

private theorem enque_settles {taken : Bool}
    (returns : enque pow config now p q = some (q', taken)) :
    SameSample (settled pow config now q) q' := by
  unfold enque at returns
  simp only at returns
  unfold settled
  generalize decayIdle pow config.toTuning now (totalByteLength config q = 0)
    (startTimer config.toTuning q) = settled at returns ⊢
  split at returns
  · cases returns
    exact ⟨rfl, rfl⟩
  · simp only [Option.map_eq_some_iff, Prod.mk.injEq] at returns
    obtain ⟨last, admitted, rfl, _⟩ := returns
    exact (admission_marks admitted).1

private theorem deque_moves {fuel : Nat} {answer : Option (Fin 64 × Packet)}
    (returns : deque config now fuel q = some (q', answer)) :
    Moves config.estimateQuantumAlpha now (estimate q) (estimate q') := by
  unfold deque at returns
  obtain ⟨⟨served, sent⟩, body, same⟩ := Option.map_eq_some_iff.mp returns
  cases same
  apply moves_finish
  split at body
  · obtain ⟨⟨visited, choice⟩, found, serves⟩ := Option.bind_eq_some_iff.mp body
    obtain ⟨⟨left, marked⟩, retires, same⟩ := Option.map_eq_some_iff.mp serves
    cases same
    unfold serve at retires
    obtain ⟨_, _, maps⟩ := Option.bind_eq_some_iff.mp retires
    obtain ⟨_, isRetired, same⟩ := Option.map_eq_some_iff.mp maps
    cases same
    exact (sameSample_select found).trans (sameSample_retire isRetired)
  · cases body
    exact ⟨rfl, rfl⟩

/-! ### The sum of quanta -/

private theorem share_range (positive : ∀ k, 0 < (slots q k).quantum) (k : Fin 64) :
    0 ≤ (slots q k).share ∧ (slots q k).share ≤ (slots q k).quantum := by
  have own := positive k
  unfold Slot.share
  split
  · exact ⟨le_rfl, own.le⟩
  · exact ⟨own.le, le_rfl⟩

/-- The sum is one over queues in use. -/
theorem quantumSum_range {queueNum : Nat} (positive : ∀ k, 0 < (slots q k).quantum)
    (inside : ∀ k, (slots q k).packets ≠ [] → (k : Nat) < queueNum) (exact : QuantumSumExact q) :
    0 ≤ q.quantumSum ∧ q.quantumSum ≤ totalQuantum queueNum q := by
  unfold QuantumSumExact at exact
  rw [exact]
  refine ⟨sum_nonneg fun k _ => (share_range positive k).1, ?_⟩
  unfold totalQuantum
  rw [sum_filter]
  apply sum_le_sum
  intro k _
  split
  next => exact (share_range positive k).2
  next beyond =>
    unfold Slot.share
    rw [if_pos (not_not.mp fun busy => beyond (inside k busy))]

/-- A queue is replaced by one with the same share. -/
theorem quantumSumExact_of_share {slot : Slot} (exact : QuantumSumExact q)
    (after : slots q' = Function.update (slots q) i slot) (sum : q'.quantumSum = q.quantumSum)
    (share : slot.share = (slots q i).share) : QuantumSumExact q' := by
  unfold QuantumSumExact
  rw [sum_share_update after, share, sub_self, add_zero, sum]
  exact exact

/-- A packet is stored in a queue that has been activated where it had to be. -/
theorem quantumSumExact_push {activated : DwrrQueue} (lists : Lists q ring)
    (ordered : Ordered (slots q) ring) (exact : QuantumSumExact q)
    (activates : activate now i q = some activated) (marked : Packet) :
    QuantumSumExact (push i marked activated) := by
  have active_iff : ∀ k, (slots q k).active = true ↔ k ∈ ring := fun k =>
    (ordered.active_iff k).trans (ordered.mem_iff k).symm
  obtain ⟨_, _, same, admits⟩ := admit_of_lists now i lists active_iff
  rw [activates] at same
  cases same
  obtain ⟨joins, _, sum⟩ := admits marked
  unfold QuantumSumExact at exact ⊢
  generalize result : slots (push i marked activated) = after at joins
  cases joins with
  | activate inactive =>
      have empty : (slots q i).packets = [] := by
        by_contra busy
        rw [(ordered.active_iff i).mpr busy] at inactive
        cases inactive
      rw [sum, inactive, if_neg Bool.false_ne_true, ← result, sum_share_update result, exact]
      simp [Slot.share, empty]
  | append active =>
      have busy := (ordered.active_iff i).mp active
      rw [sum, active, if_pos rfl, ← result, sum_share_update result, exact]
      simp [Slot.share, busy]

/-- The loop has selected a packet, and its queue leaves the list with its last one. -/
theorem quantumSumExact_retire {tuning : Tuning} {visited : DwrrQueue} {choice : Choice}
    {middle : Fin 64 → Slot} {tail : List (Fin 64)} (exact : QuantumSumExact q)
    (selects : Selects q ring visited choice middle tail)
    (retires : retire tuning now choice (measure tuning now choice (pop choice visited)) =
      some q') : QuantumSumExact q' := by
  obtain ⟨_, same, after, _, sum⟩ := retire_of_selected tuning now selects.lists
  rw [retires] at same
  cases same
  rw [selects.after, Function.update_self, Slot.visit_eq] at sum
  rw [selects.after, Function.update_self, Function.update_idem] at after
  have frame := passes_frame_of_run selects.passes
  have kept : ∑ k, (middle k).share = ∑ k, (slots q k).share := by
    apply sum_congr rfl
    intro k _
    unfold Slot.share
    rw [(frame k).1, (frame k).2]
  have moved := Accounting.total_update_sub Slot.share middle choice.queue
    ((middle choice.queue).visit.sent choice.pkt.size choice.rest)
  have front := selects.front
  unfold QuantumSumExact at exact ⊢
  rw [after, moved, sum, selects.quantumSum, kept, exact, Slot.visit_eq]
  unfold Slot.sent
  by_cases last : choice.rest = []
  · simp [Slot.share, last, front, sub_eq_add_neg]
  · simp [Slot.share, last, front]

theorem quantum_le_totalQuantum {queueNum : Nat} (positive : ∀ k, 0 < (slots q k).quantum)
    (used : (i : Nat) < queueNum) : (slots q i).quantum ≤ totalQuantum queueNum q := by
  have member : i ∈ univ.filter fun k : Fin 64 => (k : Nat) < queueNum :=
    mem_filter.mpr ⟨mem_univ i, used⟩
  have nonneg : ∀ k ∈ univ.filter fun k : Fin 64 => (k : Nat) < queueNum,
      0 ≤ (slots q k).quantum := fun k _ => (positive k).le
  exact single_le_sum nonneg member

/-- The marker of a queue under `MQ_MARKING_GENER`. -/
theorem enqueMarking_gener {marked : Packet} (sharing : Sharing config.toTuning)
    (arriving : config.dequeMarking = false) (inside : (i : Nat) < config.queueNum)
    (marks : enqueMarking config now i p q = some marked) :
    (if decide (portion (1 / 1000000000) ((q.queues i).quantum : ℚ) q.quantumSumEstimate
        config.portThresh * config.meanPktsize < (byteLength (q.queues i).packets : ℚ)) = true ∧
      p.ect then { p with ce := true } else p) = marked := by
  unfold enqueMarking markingEcn at marks
  simp only [sharing.scheme, arriving, if_neg (not_le.mpr inside)] at marks
  exact Option.some.inj marks

/-- A queue that takes a packet marks it between its share of the port threshold and the whole,
while the estimate is within the limit. -/
theorem enque_sharesOut (sharing : Sharing config.toTuning)
    (arriving : config.dequeMarking = false) (positive : ∀ k, 0 < (slots q k).quantum)
    (within : (totalQuantum config.queueNum q : ℚ) ≤ limit)
    (below : (estimate (settled pow config now q)).value ≤ limit)
    (returns : enque pow config now p q = some (q', true)) :
    SharesOut limit (q.queues (classify config p)).quantum config.portThresh config.meanPktsize
      (q.queues (classify config p)).packets (q'.queues (classify config p)).packets p := by
  have queues := (sameSchedule_settled pow config now q).slots
  have inside := classify_lt config p
  have own : ((slots q (classify config p)).quantum : ℚ) ≤ limit :=
    (Int.cast_le.mpr (quantum_le_totalQuantum positive inside)).trans within
  have nonneg : (0 : ℚ) ≤ (slots q (classify config p)).quantum := Int.cast_nonneg (positive _).le
  unfold enque at returns
  simp only at returns
  unfold settled at queues below
  generalize decayIdle pow config.toTuning now (totalByteLength config q = 0)
    (startTimer config.toTuning q) = settled at returns queues below
  split at returns
  · cases returns
  · simp only [Option.map_eq_some_iff, Prod.mk.injEq, and_true] at returns
    obtain ⟨last, admitted, rfl⟩ := returns
    obtain ⟨_, activated, marked, same, packets, quantum, marks, after⟩ :=
      admission_marks admitted
    have here := congrFun queues (classify config p)
    have samePackets : (settled.queues (classify config p)).packets =
        (q.queues (classify config p)).packets := congrArg Slot.packets here
    have sameQuantum : (settled.queues (classify config p)).quantum =
        (q.queues (classify config p)).quantum := congrArg Slot.quantum here
    rw [samePackets] at packets after
    rw [sameQuantum] at quantum
    rw [after]
    apply sharesOut_of_portion sharing.thresh sharing.size nonneg own below rfl
    have gener := enqueMarking_gener sharing arriving inside marks
    simp only [push, Function.update_self, quantum, packets, same.value] at gener
    exact gener

end

/-! ### Runs -/

/-- Within a limit: the estimate at some state that operations reach which keep the shares of busy
queues, and the quanta in use ever since. -/
def WithinLimit (pow : ℚ → ℚ → ℚ) (limit : ℚ) (s : Sys) : Prop :=
  ∃ first events,
    MqEcn.Library.Transition.Reachable (fun s => Initial s ∧ 0 ≤ s.clock) (Keeping pow) first ∧
    first.q.quantumSumEstimate ≤ limit ∧
    RunWithin (fun s => (totalQuantum s.config.queueNum s.q : ℚ) ≤ limit) (Keeping pow) first
      events s

section

variable {pow : ℚ → ℚ → ℚ} {config : Config} {limit : ℚ} {s s' : Sys}

theorem config_of_run {events : List (Event Command)} (run : Run (Keeping pow) s events s') :
    s'.config = s.config :=
  run.preserves (fun last => last.config = s.config)
    (fun step same => by cases step.1 <;> exact same) rfl

theorem Valid.quantumSum_range {q : DwrrQueue} {ring : List (Fin 64)}
    (valid : Valid config q ring) (exact : QuantumSumExact q) :
    (q.quantumSum : ℚ) ∈ Icc 0 (totalQuantum config.queueNum q : ℚ) := by
  have range := Dwrr.quantumSum_range valid.ordered.quantum valid.inside exact
  exact ⟨Int.cast_nonneg range.1, Int.cast_le.mpr range.2⟩

/-- The operations as steps of an estimate. -/
theorem estimating (weakening : Weakening pow) (sharing : Sharing config.toTuning) :
    Estimating (Keeping pow) (fun s => estimate s.q) Discipline.clock config.estimateQuantumAlpha
      (fun s => s.config = config ∧ (∃ ring, Valid s.config s.q ring) ∧
        QuantumSumExact s.q) where
  kept := by
    rintro s event s' ⟨step, keeps⟩ ⟨same, valid, exact⟩
    refine ⟨?_, valid_step step valid, quantumSumExact_step step keeps valid exact⟩
    cases step <;> exact same
  later := by
    rintro s event s' ⟨step, _⟩
    cases step with
    | enque later | deque later | timeout later => exact later
    | command => exact le_rfl
  moves := by
    rintro s event s' ⟨step, _⟩ ⟨rfl, _⟩ idle
    cases step with
    | enque later returns =>
        exact moves_decayIdle weakening sharing.alpha (idle.trans later) (enque_settles returns)
    | deque later returns => exact deque_moves returns
    | @command request q' returns =>
        cases request with
        | setQuantum queueId quantum =>
            obtain ⟨i, _, _, rfl⟩ := exists_setQuantum_eq returns
            exact .keep rfl (Or.inl rfl)
        | setThresh queueId thresh =>
            obtain ⟨i, rfl⟩ := exists_setThresh_eq returns
            exact .keep rfl (Or.inl rfl)
    | timeout later pending => exact .sample rfl (Or.inl rfl)
  nonneg := by
    rintro s ⟨_, ⟨ring, valid⟩, exact⟩
    exact (valid.quantumSum_range exact).1

/-- The estimate is within the limit in every such state. -/
theorem inRange_of_withinLimit (weakening : Weakening pow) (sharing : Sharing s.config.toTuning)
    (within : WithinLimit pow limit s) :
    (∀ k, 0 < (slots s.q k).quantum) ∧ (totalQuantum s.config.queueNum s.q : ℚ) ≤ limit ∧
      (s.q.quantumSum : ℚ) ∈ Icc 0 limit ∧ InRange limit s.clock (estimate s.q) := by
  obtain ⟨first, events, ⟨start, history, ⟨fresh, begins⟩, before⟩, below, during⟩ := within
  have sameConfig : start.config = s.config :=
    ((config_of_run during.run).trans (config_of_run before)).symm
  have soundStart : start.config = s.config ∧ (∃ ring, Valid start.config start.q ring) ∧
      QuantumSumExact start.q := by
    rw [fresh]
    refine ⟨sameConfig, ⟨[], valid_construct start.config⟩, ?_⟩
    show (0 : Int) = ∑ _, 0
    rw [sum_const_zero]
  have rangeStart : InRange 0 start.clock (estimate start.q) := by
    rw [fresh]
    exact ⟨⟨le_rfl, le_rfl⟩, begins⟩
  obtain ⟨⟨_, ⟨ring, valid⟩, exact⟩, inRange⟩ := (estimating weakening sharing).inRange_since
    sharing.alpha before during soundStart rangeStart below (by
      rintro s' ⟨_, ⟨ring, valid⟩, exact⟩ total
      exact (valid.quantumSum_range exact).2.trans total)
  have sum := valid.quantumSum_range exact
  exact ⟨valid.ordered.quantum, during.good_last, ⟨sum.1, sum.2.trans during.good_last⟩, inRange⟩

/-- What an arrival finds. -/
theorem sharesOut_of_withinLimit {now : ℚ} {p : Packet} {q' : DwrrQueue} (weakening : Weakening pow)
    (within : WithinLimit pow limit s) (sharing : Sharing s.config.toTuning)
    (arriving : s.config.dequeMarking = false) (later : s.clock ≤ now)
    (returns : enque pow s.config now p s.q = some (q', true)) :
    SharesOut limit (s.q.queues (classify s.config p)).quantum s.config.portThresh
      s.config.meanPktsize (s.q.queues (classify s.config p)).packets
      (q'.queues (classify s.config p)).packets p := by
  obtain ⟨positive, total, sum, range⟩ := inRange_of_withinLimit weakening sharing within
  have decayed : Moves s.config.estimateQuantumAlpha now (estimate s.q)
      (estimate (settled pow s.config now s.q)) :=
    moves_decayIdle weakening sharing.alpha (range.idle.trans later) ⟨rfl, rfl⟩
  have quantity : (estimate (settled pow s.config now s.q)).quantity ∈ Icc 0 limit := by
    simp only [estimate, (sameSchedule_settled pow s.config now s.q).quantumSum]
    exact sum
  exact enque_sharesOut sharing arriving positive total
    (decayed.value_mem sharing.alpha quantity range.value).2 returns

end

end MqEcn.Ns2.Dwrr
