import Mathlib.Algebra.BigOperators.Group.List.Basic
import Mathlib.Tactic.Positivity
import MqEcn.Library.Transition
import MqEcn.Ns2.Dwrr.Step
import MqEcn.Ns2.PrioDwrr.Model

/-!
Contract: the decay of the estimates of the NS2 PRIO_DWRR discipline while its DWRR queues are
empty.

Owns: the exponents by which the events of an idle period decay the estimate of the marking
scheme, and the condition under which that is the decay of one idle period.

Does not own: the estimates of a busy port.
-/

set_option autoImplicit false

namespace MqEcn.Ns2.PrioDwrr

open MqEcn.Library.Transition
open MqEcn.Ns2.Dwrr

/-! ### Where packets can be -/

/-- No packet is behind the priority queues in use. -/
def PrioInside (config : Config) (q : PrioDwrrQueue) : Prop :=
  ∀ i : Fin 8, config.prioQueueNum ≤ i → (q.prioQueues i).packets = []

/-- No DWRR queue holds a packet. -/
def DwrrIdle (q : PrioDwrrQueue) : Prop := ∀ i, (q.dwrr.queues i).packets = []

instance (q : PrioDwrrQueue) : Decidable (DwrrIdle q) := by
  unfold DwrrIdle
  infer_instance

theorem totalDwrrByteLength_eq_zero_iff {q : PrioDwrrQueue} :
    totalDwrrByteLength q = 0 ↔ DwrrIdle q := by
  unfold totalDwrrByteLength DwrrIdle
  rw [List.sum_eq_zero_iff_forall_eq_nat]
  simp [byteLength_eq_zero_iff]

theorem totalPrioByteLength_eq_zero_iff {q : PrioDwrrQueue} :
    totalPrioByteLength q = 0 ↔ ∀ i, (q.prioQueues i).packets = [] := by
  unfold totalPrioByteLength
  rw [List.sum_eq_zero_iff_forall_eq_nat]
  simp [byteLength_eq_zero_iff]

private theorem queueOf_eq_inl {config : Config} {index : Nat} {i : Fin 8}
    (target : queueOf config index = some (.inl i)) : (i : Nat) < config.prioQueueNum := by
  unfold queueOf at target
  split at target
  next inside =>
    cases target
    exact inside
  next => split at target <;> cases target

theorem firstPrio_eq_none {config : Config} {q : PrioDwrrQueue} {i : Fin 8}
    (nothing : firstPrio config q = none) (inside : (i : Nat) < config.prioQueueNum) :
    (q.prioQueues i).packets = [] := by
  unfold firstPrio at nothing
  rw [List.findSome?_eq_none_iff] at nothing
  have empty := nothing i (by simp [inside])
  revert empty
  cases (q.prioQueues i).packets with
  | nil => intro _; rfl
  | cons pkt rest => intro impossible; cases impossible

private theorem firstPrio_eq_some {config : Config} {q : PrioDwrrQueue} {i : Fin 8} {pkt : Packet}
    {rest : List Packet} (found : firstPrio config q = some (i, pkt, rest)) :
    (i : Nat) < config.prioQueueNum := by
  unfold firstPrio at found
  rcases List.exists_of_findSome?_eq_some found with ⟨k, member, content⟩
  simp only [List.mem_filter, decide_eq_true_eq] at member
  revert content
  cases (q.prioQueues k).packets with
  | nil => intro impossible; cases impossible
  | cons head tail =>
      intro same
      cases same
      exact member.2

/-! ### Operations -/

section

variable {pow : ℚ → ℚ → ℚ} {config : Config} {now : ℚ} {q q' : PrioDwrrQueue}

/-- The estimates, and the times from which they decay. -/
structure SameEstimate (q q' : DwrrQueue) : Prop where
  roundTime : q'.roundTime = q.roundTime
  quantumSumEstimate : q'.quantumSumEstimate = q.quantumSumEstimate
  lastIdleTime : q'.lastIdleTime = q.lastIdleTime
  lastUpdateTime : q'.lastUpdateTime = q.lastUpdateTime

theorem sameEstimate_startTimer (tuning : Tuning) (dwrr : DwrrQueue) :
    SameEstimate dwrr (startTimer tuning dwrr) := by
  unfold startTimer
  split
  · exact ⟨rfl, rfl, rfl, rfl⟩
  · exact ⟨rfl, rfl, rfl, rfl⟩

theorem sameEstimate_activate {i : Fin 64} {dwrr activated : DwrrQueue}
    (activates : activate now i dwrr = some activated) : SameEstimate dwrr activated := by
  unfold activate at activates
  simp only at activates
  split at activates
  · cases activates
    exact ⟨rfl, rfl, rfl, rfl⟩
  · unfold insertTailList at activates
    simp only [Option.map_map, Option.map_eq_some_iff] at activates
    rcases activates with ⟨links, _, rfl⟩
    exact ⟨rfl, rfl, rfl, rfl⟩

/-- A packet that is taken changes no estimate and goes to a queue in use; one that leaves the
DWRR queues empty leaves their sum. -/
theorem admission_cases {p : Packet} (returns : admission config now p q = some q') :
    SameEstimate q.dwrr q'.dwrr ∧ (PrioInside config q → PrioInside config q') ∧
      (DwrrIdle q' → q'.dwrr.quantumSum = q.dwrr.quantumSum) := by
  unfold admission at returns
  simp only at returns
  split at returns
  · cases returns
  next i target =>
    rcases Option.map_eq_some_iff.mp returns with ⟨marked, _, rfl⟩
    refine ⟨⟨rfl, rfl, rfl, rfl⟩, fun inside k outside => ?_, fun _ => rfl⟩
    have apart : k ≠ i := by
      rintro rfl
      have within := queueOf_eq_inl target
      omega
    show (Function.update q.prioQueues i _ k).packets = []
    rw [Function.update_of_ne apart]
    exact inside k outside
  next i target =>
    rcases Option.bind_eq_some_iff.mp returns with ⟨activated, activates, marks⟩
    rcases Option.map_eq_some_iff.mp marks with ⟨marked, _, rfl⟩
    have same := sameEstimate_activate activates
    refine ⟨⟨same.roundTime, same.quantumSumEstimate, same.lastIdleTime, same.lastUpdateTime⟩,
      fun inside => inside, fun idle => ?_⟩
    have stored := idle i
    simp only [pushDwrr, push, Function.update_self] at stored
    exact absurd stored (List.append_ne_nil_of_right_ne_nil _ (List.cons_ne_nil _ _))

private theorem settle_quantumSum (pow : ℚ → ℚ → ℚ) (config : Config) (now : ℚ)
    (q : PrioDwrrQueue) :
    (settle pow config now q).dwrr.quantumSum = q.dwrr.quantumSum := by
  have starts := sameSchedule_startTimer config.toTuning q.dwrr
  have decays := sameSchedule_decayIdle pow config.toTuning now
    (decide (totalDwrrByteLength q = 0)) (startTimer config.toTuning q.dwrr)
  exact (starts.trans decays).quantumSum

theorem enque_cases {p : Packet} {taken : Bool}
    (returns : enque pow config now p q = some (q', taken)) :
    SameEstimate (settle pow config now q).dwrr q'.dwrr ∧
      (PrioInside config q → PrioInside config q') ∧
      (DwrrIdle q' → q'.dwrr.quantumSum = q.dwrr.quantumSum) := by
  have stays : PrioInside config q → PrioInside config (settle pow config now q) :=
    fun inside i outside => inside i outside
  have settles := settle_quantumSum pow config now q
  unfold enque at returns
  simp only at returns
  generalize settle pow config now q = settled at returns stays settles ⊢
  split at returns
  · cases returns
    exact ⟨⟨rfl, rfl, rfl, rfl⟩, stays, fun _ => settles⟩
  · rcases Option.map_eq_some_iff.mp returns with ⟨last, admits, same⟩
    cases same
    rcases admission_cases admits with ⟨estimate, inside, quantumSum⟩
    exact ⟨estimate, fun before => inside (stays before),
      fun idle => (quantumSum idle).trans settles⟩

theorem command_cases {request : Command} (returns : command config q request = some q') :
    SameEstimate q.dwrr q'.dwrr ∧ (PrioInside config q → PrioInside config q') ∧
      q'.dwrr.quantumSum = q.dwrr.quantumSum := by
  cases request with
  | setQuantum queueId quantum =>
      simp only [command, setQuantum, Option.dite_none_right_eq_some,
        Option.ite_none_right_eq_some, Option.some.injEq] at returns
      rcases returns with ⟨_, _, rfl⟩
      exact ⟨⟨rfl, rfl, rfl, rfl⟩, fun inside => inside, rfl⟩
  | setThresh queueId thresh =>
      simp only [command, setThresh, Option.ite_none_right_eq_some,
        Option.map_eq_some_iff] at returns
      rcases returns with ⟨_, queue, _, rfl⟩
      cases queue with
      | inl i =>
          refine ⟨⟨rfl, rfl, rfl, rfl⟩, fun inside k outside => ?_, rfl⟩
          show (Function.update q.prioQueues i _ k).packets = []
          by_cases same : k = i
          · subst same
            rw [Function.update_self]
            exact inside k outside
          · rw [Function.update_of_ne same]
            exact inside k outside
      | inr i => exact ⟨⟨rfl, rfl, rfl, rfl⟩, fun inside => inside, rfl⟩

/-- How a deque ends that takes no packet from the DWRR queues. -/
inductive IdleDeques (config : Config) (now : ℚ) (q : PrioDwrrQueue) :
    PrioDwrrQueue → Option ((Fin 8 ⊕ Fin 64) × Packet) → Prop
  | prio {i : Fin 8} {pkt : Packet} {rest : List Packet}
      (found : firstPrio config q = some (i, pkt, rest)) :
      IdleDeques config now q (servePrio config now i pkt rest q)
        (some (.inl i, dequeMarking config now pkt))
  | idle (empty : totalPrioByteLength q = 0) :
      IdleDeques config now q (finishIdle config now q) none

private theorem deque_of_dwrrIdle {fuel : Nat} {pkt : Option ((Fin 8 ⊕ Fin 64) × Packet)}
    (inside : PrioInside config q) (idle : DwrrIdle q)
    (returns : deque config now fuel q = some (q', pkt)) : IdleDeques config now q q' pkt := by
  unfold deque at returns
  split at returns
  next busy =>
    unfold dequePrio at returns
    cases found : firstPrio config q with
    | none =>
        have empty : totalPrioByteLength q = 0 := by
          rw [totalPrioByteLength_eq_zero_iff]
          intro i
          rcases Nat.lt_or_ge (i : Nat) config.prioQueueNum with used | unused
          · exact firstPrio_eq_none found used
          · exact inside i unused
        omega
    | some taken =>
        rw [found] at returns
        cases returns
        exact .prio found
  next empty =>
    rw [if_neg (by rw [totalDwrrByteLength_eq_zero_iff.mpr idle]; exact lt_irrefl 0)] at returns
    cases returns
    exact .idle (by omega)

end

/-! ### Reachable states -/

section

variable {pow : ℚ → ℚ → ℚ} {first last : Sys} {event : Event}

theorem config_of_step (step : Step pow first event last) : last.config = first.config := by
  cases step with
  | enque | deque | command | timeout => rfl

private theorem clock_le_of_step (step : Step pow first event last) : first.clock ≤ last.clock := by
  cases step with
  | enque later | deque later | timeout later => exact later
  | command => exact le_rfl

private theorem prioInside_servePrio {config : Config} {now : ℚ} {i : Fin 8} {pkt : Packet}
    {rest : List Packet} {q : PrioDwrrQueue} (used : (i : Nat) < config.prioQueueNum)
    (inside : PrioInside config q) : PrioInside config (servePrio config now i pkt rest q) := by
  intro k outside
  have apart : k ≠ i := by
    rintro rfl
    omega
  show (Function.update q.prioQueues i _ k).packets = []
  rw [Function.update_of_ne apart]
  exact inside k outside

private theorem prioInside_deque {config : Config} {now : ℚ} {fuel : Nat} {q q' : PrioDwrrQueue}
    {pkt : Option ((Fin 8 ⊕ Fin 64) × Packet)} (inside : PrioInside config q)
    (returns : deque config now fuel q = some (q', pkt)) : PrioInside config q' := by
  unfold deque at returns
  split at returns
  next =>
    unfold dequePrio at returns
    cases found : firstPrio config q with
    | none =>
        rw [found] at returns
        cases returns
        exact inside
    | some taken =>
        rw [found] at returns
        cases returns
        exact prioInside_servePrio (firstPrio_eq_some found) inside
  next =>
    split at returns
    next =>
      rcases Option.map_eq_some_iff.mp returns with ⟨answer, _, same⟩
      cases same
      intro k outside
      exact inside k outside
    next =>
      cases returns
      intro k outside
      exact inside k outside

theorem PrioInside.step (step : Step pow first event last)
    (inside : PrioInside first.config first.q) : PrioInside last.config last.q := by
  cases step with
  | enque later returns => exact (enque_cases returns).2.1 inside
  | deque later returns => exact prioInside_deque inside returns
  | command returns => exact (command_cases returns).2.1 inside
  | timeout =>
      intro k outside
      exact inside k outside

private theorem prioInside_of_reachable {s : Sys} (reachable : Reachable pow s) :
    PrioInside s.config s.q := by
  apply reachable.invariant (fun s => PrioInside s.config s.q) _ (fun step => PrioInside.step step)
  intro start fresh i _
  rw [show start.q = construct from fresh]
  rfl

end

/-! ### What decays -/

/-- The settings under which an arrival decays the round time by whole intervals. -/
def DecayingRounds (config : Config) : Prop :=
  config.markingScheme = mqMarkingRr ∧ 0 < config.estimateRoundIdleIntervalBytes ∧
    0 < config.linkCapacity

/-- The settings under which an arrival decays the estimate of the quanta by the idle time. -/
def DecayingQuanta (config : Config) : Prop :=
  config.markingScheme = mqMarkingGener ∧ config.estimateQuantumEnableTimer = false ∧
    0 < config.estimateQuantumIntervalBytes ∧ 0 < config.linkCapacity

/-- The settings under which an arrival decays an estimate. -/
def Decaying (config : Config) : Prop := DecayingRounds config ∨ DecayingQuanta config

instance (config : Config) : Decidable (DecayingRounds config) := by
  unfold DecayingRounds
  infer_instance

instance (config : Config) : Decidable (DecayingQuanta config) := by
  unfold DecayingQuanta
  infer_instance

instance (config : Config) : Decidable (Decaying config) := by
  unfold Decaying
  infer_instance

/-- Whole intervals between the start of the idle period and now, as `(int)` makes them. -/
def intervalNum (config : Config) (start now : ℚ) : Int :=
  truncate ((now - start) / (config.estimateRoundIdleIntervalBytes * 8 / config.linkCapacity))

/-- The exponent of an arrival under the marking scheme: whole intervals, or all the idle time
in intervals. -/
def intervals (config : Config) (start now : ℚ) : ℚ :=
  if config.markingScheme = mqMarkingRr then intervalNum config start now
  else (now - start) / (config.estimateQuantumIntervalBytes * 8 / config.linkCapacity)

/-- The estimate of the marking scheme. -/
def fading (config : Config) (q : PrioDwrrQueue) : ℚ :=
  if config.markingScheme = mqMarkingRr then q.dwrr.roundTime else q.dwrr.quantumSumEstimate

/-- `last_idle_time` and `last_update_time`. -/
structure Times where
  idle : ℚ
  update : ℚ

def PrioDwrrQueue.times (q : PrioDwrrQueue) : Times := ⟨q.dwrr.lastIdleTime, q.dwrr.lastUpdateTime⟩

/-- A deque samples the sum of the quanta. -/
def Samples (config : Config) (update now : ℚ) : Prop :=
  config.markingScheme = mqMarkingGener ∧ ¬config.estimateQuantumEnableTimer ∧
    0 < config.estimateQuantumIntervalBytes ∧ 0 < config.linkCapacity ∧
    995 / 1000 * config.estimateQuantumIntervalBytes * 8 / config.linkCapacity ≤ now - update

instance (config : Config) (update now : ℚ) : Decidable (Samples config update now) := by
  unfold Samples
  infer_instance

/-- The times after an event: an arrival is an update, and a deque from an empty port moves the
start of the idle period. -/
def Times.after (config : Config) (times : Times) : Event → Times
  | .enque now _ _ => { times with update := now }
  | .deque now none => ⟨now, if Samples config times.update now then now else times.update⟩
  | _ => times

/-- The exponents by which an event decays the estimate: every arrival does, and so does every
sample of an empty list. -/
def decaysAt (config : Config) (times : Times) : Event → List ℚ
  | .enque now _ _ => [intervals config times.idle now]
  | .deque now none => if Samples config times.update now then [1] else []
  | .timeout _ => if config.markingScheme = mqMarkingRr then [] else [1]
  | _ => []

/-- The exponents by which the events of an idle period decay the estimate. -/
def idleDecays (config : Config) : Times → List Event → List ℚ
  | _, [] => []
  | times, event :: events =>
      decaysAt config times event ++ idleDecays config (times.after config event) events

private theorem idleDecays_append (config : Config) (times : Times) (events events' : List Event) :
    idleDecays config times (events ++ events') =
      idleDecays config times events ++
        idleDecays config (events.foldl (Times.after config) times) events' := by
  induction events generalizing times with
  | nil => rfl
  | cons event events inductionHypothesis =>
      simp only [List.cons_append, idleDecays, inductionHypothesis, List.foldl_cons,
        List.append_assoc]

/-- What the events of an idle period do. -/
structure Decays (pow : ℚ → ℚ → ℚ) (config : Config) (events : List Event)
    (q q' : PrioDwrrQueue) : Prop where
  times : q'.times = events.foldl (Times.after config) q.times
  fading : fading config q' =
    fading config q *
      ((idleDecays config q.times events).map (pow config.estimateQuantumAlpha)).prod
  nonneg : ∀ exponent ∈ idleDecays config q.times events, 0 ≤ exponent

section

variable {pow : ℚ → ℚ → ℚ} {config : Config} {q q' q'' : PrioDwrrQueue}

theorem scheme_ne {config : Config} (scheme : config.markingScheme = mqMarkingGener) :
    config.markingScheme ≠ mqMarkingRr := by
  rw [scheme]
  decide

private theorem Decays.refl (pow : ℚ → ℚ → ℚ) (config : Config) (q : PrioDwrrQueue) :
    Decays pow config [] q q :=
  ⟨rfl, (mul_one _).symm, List.forall_mem_nil _⟩

private theorem Decays.trans {events events' : List Event} (first : Decays pow config events q q')
    (rest : Decays pow config events' q' q'') : Decays pow config (events ++ events') q q'' := by
  have split := idleDecays_append config q.times events events'
  rw [← first.times] at split
  constructor
  · rw [rest.times, first.times, List.foldl_append]
  · rw [rest.fading, first.fading, split, List.map_append, List.prod_append, mul_assoc]
  · intro exponent member
    rw [split] at member
    rcases List.mem_append.mp member with before | after
    · exact first.nonneg exponent before
    · exact rest.nonneg exponent after

/-- An event that leaves the estimate alone. -/
theorem Decays.of_same {event : Event} (silent : decaysAt config q.times event = [])
    (times : q'.times = q.times.after config event)
    (fading : PrioDwrr.fading config q' = PrioDwrr.fading config q) :
    Decays pow config [event] q q' := by
  have nothing : idleDecays config q.times [event] = [] := by
    rw [idleDecays, silent]
    rfl
  refine ⟨times, ?_, ?_⟩
  · rw [nothing, fading]
    exact (mul_one _).symm
  · rw [nothing]
    exact List.forall_mem_nil _

/-- An event that decays the estimate once. -/
theorem Decays.of_one {event : Event} {exponent : ℚ}
    (decays : decaysAt config q.times event = [exponent])
    (times : q'.times = q.times.after config event)
    (fading : PrioDwrr.fading config q' =
      PrioDwrr.fading config q * pow config.estimateQuantumAlpha exponent)
    (nonneg : 0 ≤ exponent) : Decays pow config [event] q q' := by
  have only : idleDecays config q.times [event] = [exponent] := by
    rw [idleDecays, decays]
    rfl
  refine ⟨times, ?_, ?_⟩
  · rw [only, fading, List.map_singleton, List.prod_singleton]
  · rw [only]
    exact List.forall_mem_singleton.mpr nonneg

private theorem fading_of_sameEstimate (config : Config) (same : SameEstimate q.dwrr q'.dwrr) :
    fading config q' = fading config q ∧ q'.times = q.times := by
  unfold fading PrioDwrrQueue.times
  rw [same.roundTime, same.quantumSumEstimate, same.lastIdleTime, same.lastUpdateTime]
  exact ⟨rfl, rfl⟩

private theorem lastIdleTime_of_times
    (same : q'.times = { q.times with update := q'.times.update }) :
    q'.dwrr.lastIdleTime = q.dwrr.lastIdleTime :=
  congrArg Times.idle same

/-- What the start of an arrival makes of an idle port. -/
theorem settle_decays (pow : ℚ → ℚ → ℚ) (decaying : Decaying config) (now : ℚ)
    (idle : DwrrIdle q) :
    fading config (settle pow config now q) =
        fading config q *
          pow config.estimateQuantumAlpha (intervals config q.dwrr.lastIdleTime now) ∧
      (settle pow config now q).times = { q.times with update := now } := by
  have empty : decide (totalDwrrByteLength q = 0) = true :=
    decide_eq_true (totalDwrrByteLength_eq_zero_iff.mpr idle)
  have starts := sameEstimate_startTimer config.toTuning q.dwrr
  unfold fading intervals PrioDwrrQueue.times settle
  rcases decaying with ⟨scheme, positive⟩ | ⟨scheme, timer, positive⟩
  · rw [empty, decayIdle_of_rounds pow scheme positive, if_pos scheme, if_pos scheme, if_pos scheme,
      starts.roundTime, starts.lastIdleTime]
    exact ⟨rfl, rfl⟩
  · have gener := scheme_ne scheme
    rw [empty, decayIdle_of_quanta pow scheme timer positive, if_neg gener, if_neg gener,
      if_neg gener, starts.quantumSumEstimate, starts.lastIdleTime]
    exact ⟨rfl, rfl⟩

/-- Time in intervals does not run backwards. -/
theorem intervals_nonneg (decaying : Decaying config) {start now : ℚ} (later : start ≤ now) :
    0 ≤ intervals config start now := by
  have passed : 0 ≤ now - start := sub_nonneg.mpr later
  unfold intervals
  rcases decaying with ⟨scheme, bytes, capacity⟩ | ⟨scheme, timer, bytes, capacity⟩
  · rw [if_pos scheme]
    unfold intervalNum truncate
    have length : (0 : ℚ) < config.estimateRoundIdleIntervalBytes := by exact_mod_cast bytes
    have slot : 0 < config.estimateRoundIdleIntervalBytes * 8 / config.linkCapacity := by positivity
    have nonneg := div_nonneg passed slot.le
    exact_mod_cast Int.tdiv_nonneg (Rat.num_nonneg.mpr nonneg) (Int.natCast_nonneg _)
  · rw [if_neg (scheme_ne scheme)]
    have length : (0 : ℚ) < config.estimateQuantumIntervalBytes := by exact_mod_cast bytes
    have slot : 0 < config.estimateQuantumIntervalBytes * 8 / config.linkCapacity := by positivity
    exact div_nonneg passed slot.le

/-- The exponents of whole intervals are whole. -/
theorem den_of_mem_idleDecays (scheme : config.markingScheme = mqMarkingRr) {times : Times}
    {events : List Event} {exponent : ℚ} (member : exponent ∈ idleDecays config times events) :
    exponent.den = 1 := by
  have gener : ¬config.markingScheme = mqMarkingGener := fun same => scheme_ne same scheme
  induction events generalizing times with
  | nil => cases member
  | cons event events inductionHypothesis =>
      rcases List.mem_append.mp member with own | rest
      · cases event with
        | enque now p taken =>
            rw [List.mem_singleton.mp own]
            unfold intervals
            rw [if_pos scheme]
            exact Rat.den_intCast _
        | deque now pkt =>
            cases pkt with
            | none =>
                have apart : ¬Samples config times.update now := fun samples => gener samples.1
                have nothing : decaysAt config times (.deque now none) = [] := if_neg apart
                rw [nothing] at own
                cases own
            | some taken => cases own
        | command request => cases own
        | timeout now =>
            have nothing : decaysAt config times (.timeout now) = [] := if_pos scheme
            rw [nothing] at own
            cases own
      · exact inductionHypothesis rest

end

/-! ### Steps of an idle period -/

/-- A port whose DWRR queues rest, and whose empty list has no sum. -/
structure Resting (s : Sys) : Prop where
  inside : PrioInside s.config s.q
  idle : DwrrIdle s.q
  started : s.q.dwrr.lastIdleTime ≤ s.clock
  empty : s.config.markingScheme = mqMarkingGener → s.q.dwrr.quantumSum = 0

section

variable {pow : ℚ → ℚ → ℚ} {config : Config} {now : ℚ} {q : PrioDwrrQueue}

/-- The end of a deque leaves the queues and the sum as they are. -/
theorem finishIdle_schedule (config : Config) (now : ℚ) (q : PrioDwrrQueue) :
    SameSchedule q.dwrr (finishIdle config now q).dwrr := by
  unfold finishIdle
  simp only
  exact sameSchedule_finish config.toTuning now _ q.dwrr

private theorem dwrrIdle_finishIdle : DwrrIdle (finishIdle config now q) ↔ DwrrIdle q := by
  unfold DwrrIdle
  rw [(finishIdle_schedule config now q).queues]

private theorem finishIdle_lastIdleTime (now : ℚ) (idle : DwrrIdle q) :
    (finishIdle config now q).dwrr.lastIdleTime = now := by
  have empty := totalDwrrByteLength_eq_zero_iff.mpr idle
  unfold finishIdle finish
  simp only [empty, decide_true, if_true]

/-- A sample of an empty list is a decay. -/
theorem smoothQuantumSum_of_empty (raises : RaisesWhole pow) (tuning : Tuning) {dwrr : DwrrQueue}
    (empty : dwrr.quantumSum = 0) :
    smoothQuantumSum tuning dwrr = dwrr.quantumSumEstimate * pow tuning.estimateQuantumAlpha 1 := by
  have one := raises tuning.estimateQuantumAlpha 1
  rw [Nat.cast_one, pow_one] at one
  unfold smoothQuantumSum
  rw [one, empty, Int.cast_zero, zero_mul, add_zero]

private theorem sampleEstimate_of_samples {dwrr : DwrrQueue}
    (samples : Samples config dwrr.lastUpdateTime now) :
    sampleEstimate config.toTuning now dwrr =
      { dwrr with
        quantumSumEstimate := smoothQuantumSum config.toTuning dwrr, lastUpdateTime := now } :=
  if_pos samples

private theorem sampleEstimate_of_not_samples {dwrr : DwrrQueue}
    (samples : ¬Samples config dwrr.lastUpdateTime now) :
    sampleEstimate config.toTuning now dwrr = dwrr :=
  if_neg samples

/-- What a deque makes of an idle port that holds no packet. -/
theorem finishIdle_decays (raises : RaisesWhole pow) (idle : DwrrIdle q)
    (empty : config.markingScheme = mqMarkingGener → q.dwrr.quantumSum = 0) :
    Decays pow config [.deque now none] q (finishIdle config now q) := by
  have resting : decide (totalDwrrByteLength q = 0) = true :=
    decide_eq_true (totalDwrrByteLength_eq_zero_iff.mpr idle)
  have ends : (finishIdle config now q).dwrr =
      { sampleEstimate config.toTuning now q.dwrr with lastIdleTime := now } := by
    unfold finishIdle finish
    rw [resting]
    rfl
  by_cases samples : Samples config q.dwrr.lastUpdateTime now
  · rw [sampleEstimate_of_samples samples] at ends
    have decays : decaysAt config q.times (.deque now none) = [1] := if_pos samples
    apply Decays.of_one decays
    · have after : q.times.after config (.deque now none) = ⟨now, now⟩ :=
        congrArg (Times.mk now) (if_pos samples)
      unfold PrioDwrrQueue.times at after ⊢
      rw [ends, after]
    · have gener := scheme_ne samples.1
      unfold fading
      rw [ends, if_neg gener, if_neg gener]
      exact smoothQuantumSum_of_empty raises config.toTuning (empty samples.1)
    · exact zero_le_one
  · rw [sampleEstimate_of_not_samples samples] at ends
    have silent : decaysAt config q.times (.deque now none) = [] := if_neg samples
    apply Decays.of_same silent
    · have after : q.times.after config (.deque now none) = ⟨now, q.dwrr.lastUpdateTime⟩ :=
        congrArg (Times.mk now) (if_neg samples)
      unfold PrioDwrrQueue.times at after ⊢
      rw [ends, after]
    · unfold fading
      rw [ends]

/-- What one event does while no DWRR queue holds a packet. -/
theorem decays_of_step (raises : RaisesWhole pow) {first last : Sys} {event : Event}
    (step : Step pow first event last) (decaying : Decaying first.config)
    (resting : Resting first) : Decays pow first.config [event] first.q last.q := by
  cases step with
  | @enque now p q' taken later returns =>
      obtain ⟨same, _⟩ := enque_cases returns
      obtain ⟨fading, times⟩ := fading_of_sameEstimate first.config same
      obtain ⟨decays, moved⟩ := settle_decays pow decaying now resting.idle
      exact .of_one rfl (times.trans moved) (fading.trans decays)
        (intervals_nonneg decaying (resting.started.trans later))
  | @deque now fuel q' pkt later returns =>
      cases deque_of_dwrrIdle resting.inside resting.idle returns with
      | prio => exact .of_same rfl rfl rfl
      | idle => exact finishIdle_decays raises resting.idle resting.empty
  | @command request q' returns =>
      obtain ⟨same, _⟩ := command_cases returns
      obtain ⟨fading, times⟩ := fading_of_sameEstimate first.config same
      exact .of_same rfl times fading
  | @timeout now =>
      by_cases scheme : first.config.markingScheme = mqMarkingRr
      · refine .of_same (if_pos scheme) rfl ?_
        unfold fading
        rw [if_pos scheme, if_pos scheme]
        rfl
      · refine .of_one (if_neg scheme) rfl ?_ zero_le_one
        have gener : first.config.markingScheme = mqMarkingGener :=
          decaying.elim (fun rounds => absurd rounds.1 scheme) (fun quanta => quanta.1)
        unfold fading
        rw [if_neg scheme, if_neg scheme]
        exact smoothQuantumSum_of_empty raises _ (resting.empty gener)

/-- An event that leaves the DWRR queues empty leaves them at rest. -/
theorem Resting.step {first last : Sys} {event : Event} (step : Step pow first event last)
    (decaying : Decaying first.config) (resting : Resting first) (idle : DwrrIdle last.q) :
    Resting last := by
  have inside := PrioInside.step step resting.inside
  cases step with
  | @enque now p q' taken later returns =>
      obtain ⟨same, -, quantumSum⟩ := enque_cases returns
      obtain ⟨_, times⟩ := fading_of_sameEstimate first.config same
      rw [(settle_decays pow decaying now resting.idle).2] at times
      have started : q'.dwrr.lastIdleTime = first.q.dwrr.lastIdleTime :=
        lastIdleTime_of_times (by rw [times])
      have sum : q'.dwrr.quantumSum = first.q.dwrr.quantumSum := quantumSum idle
      exact ⟨inside, idle, (le_of_eq started).trans (resting.started.trans later),
        fun scheme => sum.trans (resting.empty scheme)⟩
  | @deque now fuel q' pkt later returns =>
      cases deque_of_dwrrIdle resting.inside resting.idle returns with
      | prio => exact ⟨inside, idle, resting.started.trans later, resting.empty⟩
      | idle =>
          refine ⟨inside, idle, ?_, fun scheme => ?_⟩
          · exact le_of_eq (finishIdle_lastIdleTime now resting.idle)
          · exact (finishIdle_schedule first.config now first.q).quantumSum.trans
              (resting.empty scheme)
  | command returns =>
      obtain ⟨same, -, quantumSum⟩ := command_cases returns
      exact ⟨inside, idle, (le_of_eq same.lastIdleTime).trans resting.started,
        fun scheme => quantumSum.trans (resting.empty scheme)⟩
  | timeout later => exact ⟨inside, idle, resting.started.trans later, resting.empty⟩

end

/-! ### The decay of one period -/

/-- No DWRR queue holds a packet between the deque at `start` that takes the last one and the
enque at `now` that brings the next one. Other packets come and go. -/
inductive IdlePeriod (pow : ℚ → ℚ → ℚ) (start now : ℚ) : Sys → List Event → Sys → Prop
  | intro {before first middle last : Sys} {i k : Fin 64} {sent p : Packet} {events : List Event}
      (reachable : Reachable pow before)
      (empties : Step pow before (.deque start (some (.inr i, sent))) first)
      (period : RunWithin (fun s => DwrrIdle s.q) (Step pow) first events middle)
      (arrival : Step pow middle (.enque now p true) last)
      (target : queueOf middle.config (queueIndex middle.config p) = some (.inr k)) :
      IdlePeriod pow start now first (events ++ [.enque now p true]) last

/-- The estimate of the marking scheme decays by the intervals of the period, once. -/
def DecaysOnce (pow : ℚ → ℚ → ℚ) (start now : ℚ) (first last : Sys) : Prop :=
  fading first.config last.q =
    fading first.config first.q *
      pow first.config.estimateQuantumAlpha (intervals first.config start now)

/-- The exponents by which the events of a period decay the estimate. -/
def periodDecays (config : Config) (start : ℚ) (q : PrioDwrrQueue) (events : List Event) :
    List ℚ :=
  idleDecays config ⟨start, q.dwrr.lastUpdateTime⟩ events

/-- The exponents of the period add up to its intervals. -/
def CountsOnce (config : Config) (start now : ℚ) (q : PrioDwrrQueue) (events : List Event) :
    Prop :=
  (periodDecays config start q events).sum = intervals config start now

instance (pow : ℚ → ℚ → ℚ) (start now : ℚ) (first last : Sys) :
    Decidable (DecaysOnce pow start now first last) := by
  unfold DecaysOnce
  infer_instance

instance (config : Config) (start now : ℚ) (q : PrioDwrrQueue) (events : List Event) :
    Decidable (CountsOnce config start now q events) := by
  unfold CountsOnce
  infer_instance

/-- The parts of an interval in which the idle times of the period are whole. -/
def periodParts (config : Config) (start now : ℚ) (q : PrioDwrrQueue) (events : List Event) : Nat :=
  parts (intervals config start now :: periodDecays config start q events)

section

variable {pow : ℚ → ℚ → ℚ} {start now : ℚ} {first last : Sys} {events : List Event}

/-- The deque that takes the last DWRR packet starts the idle period. -/
theorem lastIdleTime_of_empties {before : Sys} {i : Fin 64} {sent : Packet}
    (empties : Step pow before (.deque start (some (.inr i, sent))) first)
    (idle : DwrrIdle first.q) : first.q.dwrr.lastIdleTime = start ∧ first.clock = start := by
  generalize dequeued : (.deque start (some (.inr i, sent)) : Event) = event at empties
  cases empties with
  | enque | command | timeout => cases dequeued
  | @deque now fuel q' pkt later returns =>
      cases dequeued
      unfold deque at returns
      split at returns
      next =>
        unfold dequePrio at returns
        split at returns
        · cases returns
        · cases returns
      next =>
        split at returns
        next =>
          rcases Option.map_eq_some_iff.mp returns with ⟨answer, _, same⟩
          rcases Prod.mk.inj same with ⟨rfl, -⟩
          exact ⟨finishIdle_lastIdleTime start (dwrrIdle_finishIdle.mp idle), rfl⟩
        next => cases returns

private theorem decays_of_run (raises : RaisesWhole pow) (decaying : Decaying first.config)
    (resting : Resting first)
    (period : RunWithin (fun s => DwrrIdle s.q) (Step pow) first events last) :
    last.config = first.config ∧ Resting last ∧ first.clock ≤ last.clock ∧
      Decays pow first.config events first.q last.q := by
  rcases period with ⟨-, run⟩
  induction run with
  | nil state => exact ⟨rfl, resting, le_rfl, .refl pow state.config state.q⟩
  | cons head tail inductionHypothesis =>
      rcases head with ⟨_, step, idle⟩
      have same := config_of_step step
      obtain ⟨steady, rests, later, decays⟩ :=
        inductionHypothesis (same ▸ decaying) (resting.step step decaying idle)
      rw [same] at decays
      exact ⟨steady.trans same, rests, (clock_le_of_step step).trans later,
        .trans (decays_of_step raises step decaying resting) decays⟩

/-- The events of an idle period decay the estimate from its start on. -/
theorem decays_of_period (raises : RaisesWhole pow) (decaying : Decaying first.config)
    (empty : first.config.markingScheme = mqMarkingGener → first.q.dwrr.quantumSum = 0)
    (period : IdlePeriod pow start now first events last) :
    start ≤ now ∧ first.q.times = ⟨start, first.q.dwrr.lastUpdateTime⟩ ∧
      Decays pow first.config events first.q last.q := by
  cases period with
  | @intro before _ middle _ i k sent p others reachable empties period arrival target =>
      obtain ⟨started, clock⟩ := lastIdleTime_of_empties empties period.1
      have inside := PrioInside.step empties (prioInside_of_reachable reachable)
      have resting : Resting first :=
        ⟨inside, period.1, le_of_eq (started.trans clock.symm), empty⟩
      obtain ⟨steady, rests, later, during⟩ := decays_of_run raises decaying resting period
      have final := decays_of_step raises arrival (steady ▸ decaying) rests
      rw [steady] at final
      refine ⟨?_, ?_, during.trans final⟩
      · have ends : last.clock = now := by cases arrival with | enque => rfl
        rw [← clock, ← ends]
        exact later.trans (clock_le_of_step arrival)
      · rw [← started]
        rfl

/-- All exponents of a period are whole in their parts of an interval. -/
theorem parted_of_period {m : Nat} (positive : 0 < m)
    (raises : RaisesWhole pow) (decaying : Decaying first.config)
    (empty : first.config.markingScheme = mqMarkingGener → first.q.dwrr.quantumSum = 0)
    (period : IdlePeriod pow start now first events last)
    (divides : ∀ exponent ∈
      intervals first.config start now :: periodDecays first.config start first.q events,
      exponent.den ∣ m) :
    Parted m (intervals first.config start now) ∧
      ∀ exponent ∈ periodDecays first.config start first.q events, Parted m exponent := by
  obtain ⟨later, times, decays⟩ := decays_of_period raises decaying empty period
  have nonneg := decays.nonneg
  rw [times] at nonneg
  constructor
  · exact parted_of_den_dvd (intervals_nonneg decaying later) positive
      (divides _ List.mem_cons_self)
  · intro exponent member
    exact parted_of_den_dvd (nonneg exponent member) positive
      (divides exponent (List.mem_cons_of_mem _ member))

/-- Where `pow` is a power in these parts, an estimate decays once if the exponents add up to
the intervals of the period; if it is not zero and a part of an interval weakens it, only then. -/
theorem decaysOnce_of_parts {m : Nat} (positive : 0 < m) (raises : RaisesWhole pow)
    (decaying : Decaying first.config)
    (empty : first.config.markingScheme = mqMarkingGener → first.q.dwrr.quantumSum = 0)
    (period : IdlePeriod pow start now first events last)
    (divides : ∀ exponent ∈
      intervals first.config start now :: periodDecays first.config start first.q events,
      exponent.den ∣ m)
    (raisesParts : RaisesParts pow first.config.estimateQuantumAlpha m) :
    (CountsOnce first.config start now first.q events → DecaysOnce pow start now first last) ∧
      (0 < pow first.config.estimateQuantumAlpha (1 / m) →
        pow first.config.estimateQuantumAlpha (1 / m) < 1 → fading first.config first.q ≠ 0 →
        DecaysOnce pow start now first last →
        CountsOnce first.config start now first.q events) := by
  obtain ⟨due, parted⟩ := parted_of_period positive raises decaying empty period divides
  obtain ⟨total, product⟩ := raisesParts.prod parted
  obtain ⟨_, times, decays⟩ := decays_of_period raises decaying empty period
  have faded := decays.fading
  rw [times, show idleDecays first.config ⟨start, _⟩ events =
    periodDecays first.config start first.q events from rfl, product] at faded
  unfold DecaysOnce CountsOnce
  rw [faded]
  constructor
  · intro same
    rw [same]
  · intro above below nonzero once
    exact raisesParts.injective above below total due (mul_left_cancel₀ nonzero once)

/-- The round time. -/
theorem decaysOnce_of_rounds (raises : RaisesWhole pow) (decaying : DecayingRounds first.config)
    (period : IdlePeriod pow start now first events last) :
    (CountsOnce first.config start now first.q events → DecaysOnce pow start now first last) ∧
      (0 < first.config.estimateQuantumAlpha → first.config.estimateQuantumAlpha < 1 →
        first.q.dwrr.roundTime ≠ 0 → DecaysOnce pow start now first last →
        CountsOnce first.config start now first.q events) := by
  have scheme := decaying.1
  have whole : ∀ exponent ∈
      intervals first.config start now :: periodDecays first.config start first.q events,
      exponent.den ∣ 1 := by
    intro exponent member
    rcases List.mem_cons.mp member with rfl | inside
    · unfold intervals
      rw [if_pos scheme, Rat.den_intCast]
    · rw [den_of_mem_idleDecays scheme inside]
  have one := raises first.config.estimateQuantumAlpha 1
  rw [pow_one] at one
  obtain ⟨once, only⟩ := decaysOnce_of_parts Nat.one_pos raises (.inl decaying)
    (fun gener => absurd scheme (scheme_ne gener)) period whole
    (raises.raisesParts first.config.estimateQuantumAlpha)
  rw [Nat.cast_one, div_one, ← Nat.cast_one, one] at only
  unfold fading at only
  rw [if_pos scheme] at only
  exact ⟨once, only⟩

/-- The estimate of the quanta. -/
theorem decaysOnce_of_quanta (raises : RaisesWhole pow) (decaying : DecayingQuanta first.config)
    (empty : first.q.dwrr.quantumSum = 0) (period : IdlePeriod pow start now first events last)
    (raisesParts : RaisesParts pow first.config.estimateQuantumAlpha
      (periodParts first.config start now first.q events)) :
    (CountsOnce first.config start now first.q events → DecaysOnce pow start now first last) ∧
      (0 < pow first.config.estimateQuantumAlpha
          (1 / periodParts first.config start now first.q events) →
        pow first.config.estimateQuantumAlpha
          (1 / periodParts first.config start now first.q events) < 1 →
        first.q.dwrr.quantumSumEstimate ≠ 0 → DecaysOnce pow start now first last →
        CountsOnce first.config start now first.q events) := by
  have divides : ∀ exponent ∈
      intervals first.config start now :: periodDecays first.config start first.q events,
      exponent.den ∣ periodParts first.config start now first.q events :=
    fun exponent member => den_dvd_parts member
  obtain ⟨once, only⟩ := decaysOnce_of_parts (parts_pos _) raises (.inr decaying)
    (fun _ => empty) period divides raisesParts
  unfold fading at only
  rw [if_neg (scheme_ne decaying.1)] at only
  exact ⟨once, only⟩

end

/-! ### The step as a function -/

/-- The operations of the discipline, with `fuel` for the loop of a deque. -/
def operations (pow : ℚ → ℚ → ℚ) (fuel : Nat) :
    Operations Config PrioDwrrQueue Command (Fin 8 ⊕ Fin 64) where
  enque := PrioDwrr.enque pow
  deque := fun config now => PrioDwrr.deque config now fuel
  command := PrioDwrr.command
  timer := fun q => q.dwrr.timer
  timeout := fun config q => { q with dwrr := Dwrr.timeout config.toTuning q.dwrr }

private theorem operations_follow (pow : ℚ → ℚ → ℚ) (fuel : Nat) :
    (operations pow fuel).Follow (Step pow) :=
  ⟨.enque, .deque, .command, .timeout⟩

def Sys.next (pow : ℚ → ℚ → ℚ) (fuel : Nat) : Sys → Event → Option Sys := (operations pow fuel).next

theorem Sys.next_sound {pow : ℚ → ℚ → ℚ} {fuel : Nat} {s s' : Sys} {event : Event}
    (answers : Sys.next pow fuel s event = some s') : Step pow s event s' :=
  (operations_follow pow fuel).next_sound answers

end MqEcn.Ns2.PrioDwrr
