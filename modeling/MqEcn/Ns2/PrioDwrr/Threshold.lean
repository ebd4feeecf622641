import MqEcn.Ns2.Dwrr.Threshold
import MqEcn.Ns2.Readings

/-!
Contract: the threshold of `MQ_MARKING_GENER` below the priority queues of PRIO_DWRR.

Owns: the sum of quanta and its estimate in every run that leaves the quanta of busy queues
alone, and the lengths between which a DWRR queue starts to mark.

Does not own: the marking of the priority queues.
-/

set_option autoImplicit false

namespace MqEcn.Ns2.PrioDwrr

open Set (Icc)
open MqEcn.Library.Smoothing
open MqEcn.Library.Transition
open MqEcn.Ns2.Dwrr (Command slots estimate Sharing SameSample QuantumSumExact totalQuantum
  quantumSum_range quantum_le_totalQuantum quantumSumExact_of_same quantumSumExact_push
  quantumSumExact_retire sameSample_activate sameSample_select sameSample_retire
  decayIdle_estimate moves_decayIdle moves_finish select_cases slots_update
  quantumSumExact_of_share)

/-- A command that changes the quantum of no DWRR queue that holds packets. -/
def KeepsShares (s : Sys) : Event → Prop
  | .command (.setQuantum queueId quantum) =>
      ∀ i : Fin 64, (i : Int) = queueId - s.config.prioQueueNum →
        (s.q.dwrr.queues i).packets = [] ∨ quantum = (s.q.dwrr.queues i).quantum
  | _ => True

/-- An operation that changes the quantum of no queue that holds packets. -/
def Keeping (pow : ℚ → ℚ → ℚ) (s : Sys) (event : Event) (s' : Sys) : Prop :=
  Step pow s event s' ∧ KeepsShares s event

/-- No packet is behind the DWRR queues in use. -/
def DwrrInside (config : Config) (q : PrioDwrrQueue) : Prop :=
  ∀ k : Fin 64, packets q (.inr k) ≠ [] → (k : Nat) < config.dwrrQueueNum

/-! ### Operations -/

section

variable {pow : ℚ → ℚ → ℚ} {config : Config} {now limit : ℚ} {q q' : PrioDwrrQueue} {i : Fin 64}
  {p : Packet} {ring : List (Fin 64)}

private theorem queueOf_eq_inr {index : Nat} (target : queueOf config index = some (.inr i)) :
    (i : Nat) < config.dwrrQueueNum := by
  unfold queueOf at target
  split at target
  · cases target
  · split at target
    next inside =>
      cases target
      exact inside
    next => cases target

private theorem moves_settle (weakening : Weakening pow)
    (factor : config.estimateQuantumAlpha ∈ Icc (0 : ℚ) 1) (idle : q.dwrr.lastIdleTime ≤ now)
    (same : SameSample (settle pow config now q).dwrr q'.dwrr) :
    Moves config.estimateQuantumAlpha now (estimate q.dwrr) (estimate q'.dwrr) := by
  unfold settle at same
  generalize decide (totalDwrrByteLength q = 0) = isIdle at same
  exact moves_decayIdle weakening factor idle same

/-- A packet of a DWRR queue is stored behind the others, as the marker leaves it. -/
theorem admission_marks (returns : admission config now p q = some q') :
    SameSample q.dwrr q'.dwrr ∧
      ∀ i, queueOf config (queueIndex config p) = some (.inr i) → ∃ activated marked,
        SameSample q.dwrr activated ∧
        (activated.queues i).packets = (q.dwrr.queues i).packets ∧
        (activated.queues i).quantum = (q.dwrr.queues i).quantum ∧
        enqueMarking config now (queueIndex config p) p
          (pushDwrr i p { q with dwrr := activated }) = some marked ∧
        (q'.dwrr.queues i).packets = (q.dwrr.queues i).packets ++ [marked] := by
  unfold admission at returns
  simp only at returns
  split at returns
  · cases returns
  next k target =>
    obtain ⟨marked, _, rfl⟩ := Option.map_eq_some_iff.mp returns
    refine ⟨⟨rfl, rfl⟩, fun i here => ?_⟩
    rw [target] at here
    cases here
  next k target =>
    obtain ⟨activated, activates, marks⟩ := Option.bind_eq_some_iff.mp returns
    obtain ⟨marked, isMarked, rfl⟩ := Option.map_eq_some_iff.mp marks
    obtain ⟨same, packets, quantum⟩ := sameSample_activate activates
    refine ⟨⟨same.value, same.idle⟩, fun i here => ?_⟩
    rw [target] at here
    cases here
    refine ⟨activated, marked, same, packets, quantum, isMarked, ?_⟩
    simp only [pushDwrr, Dwrr.push, Function.update_self, packets]

private theorem enque_settles {taken : Bool}
    (returns : enque pow config now p q = some (q', taken)) :
    SameSample (settle pow config now q).dwrr q'.dwrr := by
  unfold enque at returns
  simp only at returns
  generalize settle pow config now q = settled at returns ⊢
  split at returns
  · cases returns
    exact ⟨rfl, rfl⟩
  · simp only [Option.map_eq_some_iff, Prod.mk.injEq] at returns
    obtain ⟨last, admitted, rfl, _⟩ := returns
    exact (admission_marks admitted).1

private theorem moves_finishIdle (config : Config) (now : ℚ) (same : SameSample q.dwrr q'.dwrr) :
    Moves config.estimateQuantumAlpha now (estimate q.dwrr)
      (estimate (finishIdle config now q').dwrr) := by
  unfold finishIdle
  generalize decide (totalDwrrByteLength q' = 0) = isIdle
  exact moves_finish config.toTuning now isIdle same

private theorem deque_moves {fuel : Nat} {answer : Option ((Fin 8 ⊕ Fin 64) × Packet)}
    (returns : deque config now fuel q = some (q', answer)) :
    Moves config.estimateQuantumAlpha now (estimate q.dwrr) (estimate q'.dwrr) := by
  unfold deque at returns
  split at returns
  · unfold dequePrio at returns
    split at returns <;> cases returns <;> exact .keep rfl (Or.inl rfl)
  · split at returns
    · obtain ⟨⟨dwrr, sent⟩, serves, same⟩ := Option.map_eq_some_iff.mp returns
      cases same
      unfold dequeDwrr at serves
      obtain ⟨⟨visited, choice⟩, found, retires⟩ := Option.bind_eq_some_iff.mp serves
      obtain ⟨_, isRetired, same⟩ := Option.map_eq_some_iff.mp retires
      cases same
      have kept := (sameSample_select found).trans (sameSample_retire isRetired)
      exact moves_finishIdle config now ⟨kept.value, kept.idle⟩
    · cases returns
      exact moves_finishIdle config now ⟨rfl, rfl⟩

/-- The marker of a DWRR queue under `MQ_MARKING_GENER`. -/
theorem enqueMarking_gener {index : Nat} {marked : Packet} (sharing : Sharing config.toTuning)
    (target : queueOf config index = some (.inr i))
    (marks : enqueMarking config now index p q = some marked) :
    (if decide (portion (1 / 1000000000) ((q.dwrr.queues i).quantum : ℚ)
        q.dwrr.quantumSumEstimate config.portThresh * config.meanPktsize <
          (byteLength (q.dwrr.queues i).packets : ℚ)) = true ∧
      p.ect then { p with ce := true } else p) = marked := by
  unfold enqueMarking markingEcn at marks
  simp only [sharing.scheme, target] at marks
  exact Option.some.inj marks

/-- A DWRR queue that takes a packet marks it between its share of the port threshold and the
whole, while the estimate is within the limit. -/
theorem enque_sharesOut (sharing : Sharing config.toTuning) (valid : Valid config q ring)
    (within : (totalQuantum config.dwrrQueueNum q.dwrr : ℚ) ≤ limit)
    (below : (estimate (settle pow config now q).dwrr).value ≤ limit)
    (target : queueOf config (queueIndex config p) = some (.inr i))
    (returns : enque pow config now p q = some (q', true)) :
    SharesOut limit (q.dwrr.queues i).quantum config.portThresh config.meanPktsize
      (q.dwrr.queues i).packets (q'.dwrr.queues i).packets p := by
  have queues := (sameSchedule_settle pow config now q).slots
  have positive := valid.ordered.quantum
  have own : ((slots q.dwrr i).quantum : ℚ) ≤ limit :=
    (Int.cast_le.mpr (quantum_le_totalQuantum positive (queueOf_eq_inr target))).trans within
  have nonneg : (0 : ℚ) ≤ (slots q.dwrr i).quantum := Int.cast_nonneg (positive i).le
  unfold enque at returns
  simp only at returns
  generalize settle pow config now q = settled at returns queues below
  split at returns
  · cases returns
  · simp only [Option.map_eq_some_iff, Prod.mk.injEq, and_true] at returns
    obtain ⟨last, admitted, rfl⟩ := returns
    obtain ⟨activated, marked, same, packets, quantum, marks, after⟩ :=
      (admission_marks admitted).2 i target
    have here := congrFun queues i
    have samePackets : (settled.dwrr.queues i).packets = (q.dwrr.queues i).packets :=
      congrArg Dwrr.Slot.packets here
    have sameQuantum : (settled.dwrr.queues i).quantum = (q.dwrr.queues i).quantum :=
      congrArg Dwrr.Slot.quantum here
    rw [samePackets] at packets after
    rw [sameQuantum] at quantum
    rw [after]
    apply sharesOut_of_portion sharing.thresh sharing.size nonneg own below rfl
    have gener := enqueMarking_gener sharing target marks
    simp only [pushDwrr, Dwrr.push, Function.update_self, quantum, packets, same.value] at gener
    exact gener

/-! ### The sum of quanta -/

theorem Valid.quantumSum_range (valid : Valid config q ring) (inside : DwrrInside config q)
    (exact : QuantumSumExact q.dwrr) :
    (q.dwrr.quantumSum : ℚ) ∈ Icc 0 (totalQuantum config.dwrrQueueNum q.dwrr : ℚ) := by
  have range := Dwrr.quantumSum_range valid.ordered.quantum inside exact
  exact ⟨Int.cast_nonneg range.1, Int.cast_le.mpr range.2⟩

private theorem quantumSumExact_enque {taken : Bool} (valid : Valid config q ring)
    (exact : QuantumSumExact q.dwrr)
    (returns : enque pow config now p q = some (q', taken)) : QuantumSumExact q'.dwrr := by
  have same := sameSchedule_settle pow config now q
  have settledExact := quantumSumExact_of_same same exact
  unfold enque at returns
  simp only at returns
  generalize settle pow config now q = settled at returns same settledExact
  have lists := same.lists valid.lists
  have ordered := valid.ordered
  rw [← same.slots] at ordered
  split at returns
  · cases returns
    exact settledExact
  · obtain ⟨last, admitted, taken⟩ := Option.map_eq_some_iff.mp returns
    cases taken
    unfold admission at admitted
    simp only at admitted
    split at admitted
    · cases admitted
    · obtain ⟨marked, _, rfl⟩ := Option.map_eq_some_iff.mp admitted
      exact settledExact
    · obtain ⟨activated, activates, marks⟩ := Option.bind_eq_some_iff.mp admitted
      obtain ⟨marked, _, rfl⟩ := Option.map_eq_some_iff.mp marks
      exact quantumSumExact_push lists ordered settledExact activates marked

private theorem quantumSumExact_deque {fuel : Nat} {answer : Option ((Fin 8 ⊕ Fin 64) × Packet)}
    (valid : Valid config q ring) (exact : QuantumSumExact q.dwrr)
    (returns : deque config now fuel q = some (q', answer)) : QuantumSumExact q'.dwrr := by
  unfold deque at returns
  split at returns
  · unfold dequePrio at returns
    split at returns <;> cases returns <;> exact exact
  · split at returns
    next busy =>
      obtain ⟨⟨dwrr, sent⟩, serves, same⟩ := Option.map_eq_some_iff.mp returns
      cases same
      unfold dequeDwrr at serves
      obtain ⟨⟨visited, choice⟩, found, retires⟩ := Option.bind_eq_some_iff.mp serves
      obtain ⟨_, isRetired, same⟩ := Option.map_eq_some_iff.mp retires
      cases same
      have nonempty : ring ≠ [] := mt valid.totalDwrrByteLength_eq_zero_iff.mpr (by omega)
      obtain ⟨middle, tail, selects⟩ := select_cases valid.lists nonempty valid.busy found
      have after := quantumSumExact_retire exact selects isRetired
      exact quantumSumExact_of_same (sameSchedule_finishIdle config now { q with dwrr }) after
    · cases returns
      exact quantumSumExact_of_same (sameSchedule_finishIdle config now q) exact

private theorem quantumSumExact_command {request : Command} {clock : ℚ}
    (exact : QuantumSumExact q.dwrr) (keeps : KeepsShares ⟨config, q, clock⟩ (.command request))
    (returns : command config q request = some q') :
    QuantumSumExact q'.dwrr ∧ SameSample q.dwrr q'.dwrr := by
  cases request with
  | setQuantum queueId quantum =>
      simp only [command, setQuantum, Option.dite_none_right_eq_some,
        Option.ite_none_right_eq_some, Option.some.injEq] at returns
      obtain ⟨inside, positive, rfl⟩ := returns
      have unchanged := keeps ⟨_, config.dwrr_lt inside.2⟩ (Int.toNat_of_nonneg inside.1)
      refine ⟨quantumSumExact_of_share exact (slots_update rfl) rfl ?_, rfl, rfl⟩
      unfold Dwrr.Slot.share
      split
      next empty => exact (if_pos empty).symm
      next busy => exact (unchanged.resolve_left busy).trans (if_neg busy).symm
  | setThresh queueId thresh =>
      simp only [command, setThresh, Option.ite_none_right_eq_some,
        Option.map_eq_some_iff] at returns
      obtain ⟨_, queue, _, rfl⟩ := returns
      cases queue with
      | inl k => exact ⟨exact, rfl, rfl⟩
      | inr k => exact ⟨quantumSumExact_of_share exact (slots_update rfl) rfl rfl, rfl, rfl⟩

/-- Every packet is in a queue in use. -/
theorem DwrrInside.step {s s' : Sys} {event : Event} (inside : DwrrInside s.config s.q)
    (step : Step pow s event s') : DwrrInside s'.config s'.q := by
  have moves := reading_moves step
  intro k busy
  have same : s'.config = s.config := moves.config_eq
  rw [same]
  cases moves with
  | @accept now p stored queue _ _ _ _ _ target _ fifo =>
      by_cases own : .inr k = queue
      · exact queueOf_eq_inr (own ▸ target)
      · have kept : packets s'.q (.inr k) = packets s.q (.inr k) :=
          (congrFun fifo _).trans (Function.update_of_ne own _ _)
        exact inside k (kept ▸ busy)
  | @send now sent head rest queue _ _ _ _ _ front _ fifo =>
      by_cases own : .inr k = queue
      · have before : packets s.q (.inr k) = head :: rest := (congrArg _ own).trans front
        exact inside k (before ▸ List.cons_ne_nil _ _)
      · have kept : packets s'.q (.inr k) = packets s.q (.inr k) :=
          (congrFun fifo _).trans (Function.update_of_ne own _ _)
        exact inside k (kept ▸ busy)
  | rest _ _ _ _ fifo =>
      have kept : packets s'.q (.inr k) = packets s.q (.inr k) := congrFun fifo (.inr k)
      exact inside k (kept ▸ busy)

end

/-! ### Runs -/

/-- Within a limit: the estimate at some state that operations reach which keep the shares of busy
queues, and the quanta in use ever since. -/
def WithinLimit (pow : ℚ → ℚ → ℚ) (limit : ℚ) (s : Sys) : Prop :=
  ∃ first events,
    MqEcn.Library.Transition.Reachable (fun s => Initial s ∧ 0 ≤ s.clock) (Keeping pow) first ∧
    first.q.dwrr.quantumSumEstimate ≤ limit ∧
    RunWithin (fun s => (totalQuantum s.config.dwrrQueueNum s.q.dwrr : ℚ) ≤ limit) (Keeping pow)
      first events s

/-- What the steps of an estimate rest on. -/
structure Kept (config : Config) (s : Sys) : Prop where
  same : s.config = config
  valid : ∃ ring, Valid s.config s.q ring
  inside : DwrrInside s.config s.q
  exact : QuantumSumExact s.q.dwrr

section

variable {pow : ℚ → ℚ → ℚ} {config : Config} {limit : ℚ} {s s' : Sys} {event : Event}

theorem config_of_run {events : List Event} (run : Run (Keeping pow) s events s') :
    s'.config = s.config :=
  run.preserves (fun last => last.config = s.config)
    (fun step same => by cases step.1 <;> exact same) rfl

private theorem quantumSumExact_step (step : Keeping pow s event s')
    (valid : ∃ ring, Valid s.config s.q ring) (exact : QuantumSumExact s.q.dwrr) :
    QuantumSumExact s'.q.dwrr := by
  obtain ⟨step, keeps⟩ := step
  obtain ⟨ring, valid⟩ := valid
  cases step with
  | enque later returns => exact quantumSumExact_enque valid exact returns
  | deque later returns => exact quantumSumExact_deque valid exact returns
  | command returns => exact (quantumSumExact_command exact keeps returns).1
  | timeout later pending => exact exact

theorem Kept.quantumSum_range (kept : Kept config s) :
    (s.q.dwrr.quantumSum : ℚ) ∈
      Icc 0 (totalQuantum s.config.dwrrQueueNum s.q.dwrr : ℚ) := by
  obtain ⟨ring, valid⟩ := kept.valid
  exact valid.quantumSum_range kept.inside kept.exact

/-- The operations as steps of an estimate. -/
theorem estimating (weakening : Weakening pow) (sharing : Sharing config.toTuning) :
    Estimating (Keeping pow) (fun s => estimate s.q.dwrr) Discipline.clock
      config.estimateQuantumAlpha (Kept config) where
  kept := by
    intro s event s' step kept
    have same : s'.config = s.config := by cases step.1 <;> rfl
    exact ⟨same.trans kept.same, valid_step step.1 kept.valid, kept.inside.step step.1,
      quantumSumExact_step step kept.valid kept.exact⟩
  later := by
    rintro s event s' ⟨step, _⟩
    cases step with
    | enque later | deque later | timeout later => exact later
    | command => exact le_rfl
  moves := by
    rintro s event s' ⟨step, keeps⟩ ⟨rfl, _, _, exact⟩ idle
    cases step with
    | enque later returns =>
        exact moves_settle weakening sharing.alpha (idle.trans later) (enque_settles returns)
    | deque later returns => exact deque_moves returns
    | command returns =>
        have same := (quantumSumExact_command exact keeps returns).2
        exact .keep same.value (Or.inl same.idle)
    | timeout later pending => exact .sample rfl (Or.inl rfl)
  nonneg := fun kept => kept.quantumSum_range.1

/-- The estimate is within the limit in every such state. -/
theorem inRange_of_withinLimit (weakening : Weakening pow) (sharing : Sharing s.config.toTuning)
    (within : WithinLimit pow limit s) :
    (∃ ring, Valid s.config s.q ring) ∧
      (totalQuantum s.config.dwrrQueueNum s.q.dwrr : ℚ) ≤ limit ∧
      (s.q.dwrr.quantumSum : ℚ) ∈ Icc 0 limit ∧ InRange limit s.clock (estimate s.q.dwrr) := by
  obtain ⟨first, events, ⟨start, history, ⟨fresh, begins⟩, before⟩, below, during⟩ := within
  have sameConfig : start.config = s.config :=
    ((config_of_run during.run).trans (config_of_run before)).symm
  have soundStart : Kept s.config start := by
    refine ⟨sameConfig, ?_, ?_, ?_⟩
    · rw [fresh]
      exact ⟨[], valid_construct start.config⟩
    · rw [fresh]
      intro k busy
      exact absurd rfl busy
    · rw [fresh]
      show (0 : Int) = ∑ _, 0
      rw [Finset.sum_const_zero]
  have rangeStart : InRange 0 start.clock (estimate start.q.dwrr) := by
    rw [fresh]
    exact ⟨⟨le_rfl, le_rfl⟩, begins⟩
  obtain ⟨kept, inRange⟩ := (estimating weakening sharing).inRange_since sharing.alpha before during
    soundStart rangeStart below fun s' kept total => kept.quantumSum_range.2.trans total
  have sum := kept.quantumSum_range
  exact ⟨kept.valid, during.good_last, ⟨sum.1, sum.2.trans during.good_last⟩, inRange⟩

/-- What an arrival finds. -/
theorem sharesOut_of_withinLimit {now : ℚ} {p : Packet} {q' : PrioDwrrQueue} {i : Fin 64}
    (weakening : Weakening pow) (within : WithinLimit pow limit s)
    (sharing : Sharing s.config.toTuning) (later : s.clock ≤ now)
    (target : queueOf s.config (queueIndex s.config p) = some (.inr i))
    (returns : enque pow s.config now p s.q = some (q', true)) :
    SharesOut limit (s.q.dwrr.queues i).quantum s.config.portThresh s.config.meanPktsize
      (s.q.dwrr.queues i).packets (q'.dwrr.queues i).packets p := by
  obtain ⟨⟨ring, valid⟩, total, sum, range⟩ := inRange_of_withinLimit weakening sharing within
  have decayed : Moves s.config.estimateQuantumAlpha now (estimate s.q.dwrr)
      (estimate (settle pow s.config now s.q).dwrr) :=
    moves_settle weakening sharing.alpha (range.idle.trans later) ⟨rfl, rfl⟩
  have quantity : (estimate (settle pow s.config now s.q).dwrr).quantity ∈ Icc 0 limit := by
    simp only [estimate, (sameSchedule_settle pow s.config now s.q).quantumSum]
    exact sum
  exact enque_sharesOut sharing valid total
    (decayed.value_mem sharing.alpha quantity range.value).2 target returns

end

end MqEcn.Ns2.PrioDwrr
