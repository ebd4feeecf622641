import Mathlib.Algebra.BigOperators.Group.List.Basic
import Mathlib.Data.List.MinMax
import Mathlib.Tactic.NormNum
import MqEcn.Library.Selection
import MqEcn.Ns2.Wfq.Model

/-!
Contract: what each operation of the WFQ discipline can do, said once.

Owns: the inversion of `enque` and `deque` into what they do to the queues, the virtual
time and the sum of weights; the queue the search of `deque` ends with; the invariant
under which no operation exits; and the step relation as a function of the event.

Does not own: the ECN state, on which scheduling does not depend.
-/

set_option autoImplicit false

namespace MqEcn.Ns2.Wfq

/-! ### Enque -/

/-- What estimation and timers leave as it is. -/
structure SameSchedule (q q' : WfqQueue) : Prop where
  queues : q'.queues = q.queues
  currTime : q'.currTime = q.currTime
  weightSum : q'.weightSum = q.weightSum

theorem sameSchedule_startTimer (config : Config) (q : WfqQueue) :
    SameSchedule q (startTimer config q) := by
  unfold startTimer
  split
  · exact ⟨rfl, rfl, rfl⟩
  · exact ⟨rfl, rfl, rfl⟩

theorem sameSchedule_decayEstimate (pow : ℚ → ℚ → ℚ) (config : Config) (now : ℚ) (q : WfqQueue) :
    SameSchedule q (decayEstimate pow config now q) := by
  unfold decayEstimate
  split
  · exact ⟨rfl, rfl, rfl⟩
  · exact ⟨rfl, rfl, rfl⟩

theorem sameSchedule_sampleEstimate (config : Config) (now : ℚ) (q : WfqQueue) :
    SameSchedule q (sampleEstimate config now q) := by
  unfold sampleEstimate
  split
  · simp only
    split_ifs <;> exact ⟨rfl, rfl, rfl⟩
  · exact ⟨rfl, rfl, rfl⟩

theorem SameSchedule.trans {q q' q'' : WfqQueue} (first : SameSchedule q q')
    (second : SameSchedule q' q'') : SameSchedule q q'' :=
  ⟨second.queues.trans first.queues, second.currTime.trans first.currTime,
    second.weightSum.trans first.weightSum⟩

/-- Marking changes neither the size of a packet nor anything of the queue. -/
theorem enqueMarking_size {config : Config} {now : ℚ} {queue : Fin 64} {p marked : Packet}
    {q : WfqQueue} (marks : enqueMarking config now queue p q = some marked) :
    marked.size = p.size := by
  unfold enqueMarking at marks
  split at marks
  · simp only [Option.map_eq_some_iff] at marks
    obtain ⟨mark, _, rfl⟩ := marks
    split
    · rfl
    · rfl
  · cases marks
    split
    · rfl
    · rfl

theorem dequeMarking_size (config : Config) (now : ℚ) (pkt : Packet) :
    (dequeMarking config now pkt).size = pkt.size := by
  unfold dequeMarking
  split
  · simp only
    split_ifs <;> rfl
  · rfl

/-- How an enque ends. -/
inductive Enques (config : Config) (p : Packet) (q q' : WfqQueue) : Bool → Prop
  | drop (same : SameSchedule q q') : Enques config p q q' false
  | activate {marked : Packet} {time : WithTop ℚ}
      (empty : (q.queues (classify config p)).packets = [])
      (positive : 0 < (q.queues (classify config p)).weight) (size : marked.size = p.size)
      (stamp : time =
        q.currTime + ((p.size / (q.queues (classify config p)).weight : ℚ) : WithTop ℚ))
      (queues : q'.queues = Function.update q.queues (classify config p)
        { q.queues (classify config p) with headFinishTime := time, packets := [marked] })
      (currTime : q'.currTime = time)
      (weightSum : q'.weightSum = q.weightSum + (q.queues (classify config p)).weight) :
      Enques config p q q' true
  | append {marked : Packet} (busy : (q.queues (classify config p)).packets ≠ [])
      (size : marked.size = p.size)
      (queues : q'.queues = Function.update q.queues (classify config p)
        { q.queues (classify config p) with
          packets := (q.queues (classify config p)).packets ++ [marked] })
      (currTime : q'.currTime = q.currTime) (weightSum : q'.weightSum = q.weightSum) :
      Enques config p q q' true

theorem admission_cases {config : Config} {now : ℚ} {p : Packet} {q q' : WfqQueue}
    (returns : admission config now p q = some q') : Enques config p q q' true := by
  simp only [admission, Option.bind_eq_some_iff, Option.map_eq_some_iff] at returns
  obtain ⟨stamped, stamps, marked, marks, rfl⟩ := returns
  have size := enqueMarking_size marks
  split at stamps
  next empty =>
    unfold activate at stamps
    simp only at stamps
    split at stamps
    next positive =>
      cases stamps
      exact .activate empty positive size rfl (by simp [push, empty]) rfl rfl
    next => cases stamps
  next busy =>
    cases stamps
    exact .append busy size rfl rfl rfl

theorem enque_cases {pow : ℚ → ℚ → ℚ} {config : Config} {now : ℚ} {p : Packet} {q q' : WfqQueue}
    {taken : Bool} (returns : enque pow config now p q = some (q', taken)) :
    Enques config p q q' taken := by
  have same := (sameSchedule_startTimer config q).trans
    (sameSchedule_decayEstimate pow config now (startTimer config q))
  unfold enque at returns
  simp only at returns
  revert returns same
  generalize decayEstimate pow config now (startTimer config q) = decayed
  intro returns same
  split at returns
  · cases returns
    exact .drop same
  · simp only [Option.map_eq_some_iff, Prod.mk.injEq] at returns
    obtain ⟨_, admitted, rfl, rfl⟩ := returns
    cases admission_cases admitted with
    | activate empty positive size stamp queues currTime weightSum =>
        rw [same.queues] at empty positive stamp queues weightSum
        rw [same.currTime] at stamp
        rw [same.weightSum] at weightSum
        exact .activate empty positive size stamp queues currTime weightSum
    | append busy size queues currTime weightSum =>
        rw [same.queues] at busy queues
        exact .append busy size queues (currTime.trans same.currTime)
          (weightSum.trans same.weightSum)

/-! ### The search -/

/-- `minT` is the finish time of the candidate. -/
def timeOf (q : WfqQueue) (queue : Option (Fin 64)) : WithTop ℚ :=
  queue.elim ⊤ fun i => (q.queues i).headFinishTime

/-- The search is the search for a least finish time among the queues that hold
packets. -/
theorem foldl_scanStep {q : WfqQueue}
    (finite : ∀ i, (q.queues i).packets ≠ [] → (q.queues i).headFinishTime ≠ ⊤)
    (indices : List (Fin 64)) (best : Option (Fin 64)) :
    (indices.foldl (scanStep q) (best, timeOf q best)).1 =
      (indices.filter fun i => decide ((q.queues i).packets ≠ [])).foldl
        (List.argAux fun i j => (q.queues i).headFinishTime < (q.queues j).headFinishTime)
        best := by
  induction indices generalizing best with
  | nil => rfl
  | cons i rest inductionHypothesis =>
      by_cases empty : (q.queues i).packets = []
      · simp only [List.foldl_cons, scanStep, empty, if_true, ne_eq, not_true_eq_false,
          decide_false, Bool.false_eq_true, not_false_eq_true, List.filter_cons_of_neg]
        exact inductionHypothesis best
      · rw [List.filter_cons_of_pos (by simpa using empty), List.foldl_cons, List.foldl_cons,
          ← inductionHypothesis]
        congr 2
        cases best with
        | none =>
            have below := lt_top_iff_ne_top.mpr (finite i empty)
            simp [scanStep, empty, timeOf, below, List.argAux]
        | some old =>
            by_cases before : (q.queues i).headFinishTime < (q.queues old).headFinishTime
            · simp [scanStep, empty, timeOf, before, List.argAux]
            · simp [scanStep, empty, timeOf, before, List.argAux]

theorem scan_eq_argmin {config : Config} {q : WfqQueue}
    (finite : ∀ i, (q.queues i).packets ≠ [] → (q.queues i).headFinishTime ≠ ⊤) :
    scan config q =
      (config.indices.filter fun i => decide ((q.queues i).packets ≠ [])).argmin
        fun i => (q.queues i).headFinishTime :=
  foldl_scanStep finite config.indices none

theorem mem_indices {config : Config} {i : Fin 64} :
    i ∈ config.indices ↔ (i : Nat) < config.queueNum := by
  simp [Config.indices]

theorem classify_lt (config : Config) (p : Packet) :
    (classify config p : Nat) < config.queueNum := by
  have range := config.queueNum_range.1
  unfold classify
  split
  · show p.prio.toNat < config.queueNum
    omega
  · show config.queueNum - 1 < config.queueNum
    omega

/-! ### Deque -/

/-- How a deque ends. -/
inductive Deques (config : Config) (now : ℚ) (q q' : WfqQueue) :
    Option (Fin 64 × Packet) → Prop
  | idle (empty : totalByteLength config q = 0) (same : SameSchedule q q') :
      Deques config now q q' none
  | advance {i : Fin 64} {pkt next : Packet} {rest : List Packet} {time : WithTop ℚ}
      {drain : DrainRate} (found : scan config q = some i)
      (front : (q.queues i).packets = pkt :: next :: rest) (positive : 0 < (q.queues i).weight)
      (stamp : time = (q.queues i).headFinishTime +
        ((next.size / (q.queues i).weight : ℚ) : WithTop ℚ))
      (queues : q'.queues = Function.update q.queues i
        { q.queues i with headFinishTime := time, drain, packets := next :: rest })
      (currTime : q'.currTime = if q.currTime < time then time else q.currTime)
      (weightSum : q'.weightSum = q.weightSum) :
      Deques config now q q' (some (i, dequeMarking config now pkt))
  | retire {i : Fin 64} {pkt : Packet} {drain : DrainRate} (found : scan config q = some i)
      (front : (q.queues i).packets = [pkt])
      (queues : q'.queues = Function.update q.queues i
        { q.queues i with headFinishTime := ⊤, drain, packets := [] })
      (currTime : q'.currTime = q.currTime)
      (weightSum : q'.weightSum = q.weightSum - (q.queues i).weight) :
      Deques config now q q' (some (i, dequeMarking config now pkt))

theorem deque_cases {config : Config} {now : ℚ} {q q' : WfqQueue}
    {pkt : Option (Fin 64 × Packet)} (returns : deque config now q = some (q', pkt)) :
    Deques config now q q' pkt := by
  unfold deque at returns
  split at returns
  next =>
    split at returns
    next => cases returns
    next i found =>
      split at returns
      next => cases returns
      next head rest front =>
        simp only [Option.map_eq_some_iff, Prod.mk.injEq] at returns
        obtain ⟨advanced, advances, rfl, rfl⟩ := returns
        have same := sameSchedule_sampleEstimate config now advanced
        cases rest with
        | nil =>
            simp only [advance, pop, Function.update_self, Option.some.injEq] at advances
            subst advances
            exact .retire found front (same.queues.trans (Function.update_idem _ _ _))
              same.currTime same.weightSum
        | cons next more =>
            simp only [advance, pop, Function.update_self, Option.ite_none_right_eq_some,
              Option.some.injEq] at advances
            obtain ⟨positive, rfl⟩ := advances
            exact .advance found front positive rfl
              (same.queues.trans (Function.update_idem _ _ _)) same.currTime same.weightSum
  next idle =>
    cases returns
    exact .idle (by omega) (sameSchedule_sampleEstimate config now q)

/-! ### No operation exits -/

/-- Weights are positive, queues out of range are empty, and no time in use is the
sentinel of an empty queue. -/
structure Sound (config : Config) (q : WfqQueue) : Prop where
  weights : ∀ i, 0 < (q.queues i).weight
  outside : ∀ i : Fin 64, config.queueNum ≤ i → (q.queues i).packets = []
  clock : q.currTime ≠ ⊤
  finish : ∀ i, (q.queues i).packets ≠ [] → (q.queues i).headFinishTime ≠ ⊤

section

variable {config : Config} {now : ℚ} {q q' : WfqQueue} {i : Fin 64}

theorem Sound.of_same (sound : Sound config q) (same : SameSchedule q q') : Sound config q' := by
  refine ⟨?_, ?_, ?_, ?_⟩
  · rw [same.queues]
    exact sound.weights
  · rw [same.queues]
    exact sound.outside
  · rw [same.currTime]
    exact sound.clock
  · rw [same.queues]
    exact sound.finish

/-- One queue replaced by another that is as sound. -/
theorem Sound.update (sound : Sound config q) {cl : PacketWfq}
    (queues : q'.queues = Function.update q.queues i cl) (weight : 0 < cl.weight)
    (inside : (i : Nat) < config.queueNum) (clock : q'.currTime ≠ ⊤)
    (finish : cl.packets ≠ [] → cl.headFinishTime ≠ ⊤) : Sound config q' := by
  refine ⟨fun k => ?_, fun k beyond => ?_, clock, fun k => ?_⟩
  · rw [queues]
    by_cases same : k = i
    · subst same
      simpa using weight
    · simpa [Function.update_of_ne same] using sound.weights k
  · have different : k ≠ i := by
      intro same
      subst same
      omega
    simpa [queues, Function.update_of_ne different] using sound.outside k beyond
  · rw [queues]
    by_cases same : k = i
    · subst same
      simpa using finish
    · simpa [Function.update_of_ne same] using sound.finish k

/-- The search ends with a queue whose finish time is the least. -/
theorem Sound.scan_least (sound : Sound config q) (found : scan config q = some i) :
    (i : Nat) < config.queueNum ∧ (q.queues i).packets ≠ [] ∧
      ∀ k, (q.queues k).packets ≠ [] →
        (q.queues i).headFinishTime ≤ (q.queues k).headFinishTime := by
  rw [scan_eq_argmin sound.finish] at found
  have member := List.argmin_mem found
  simp only [List.mem_filter, mem_indices, decide_eq_true_eq] at member
  refine ⟨member.1, member.2, fun k busy => ?_⟩
  have inside : (k : Nat) < config.queueNum := by
    by_contra beyond
    exact busy (sound.outside k (not_lt.mp beyond))
  have listed : k ∈ config.indices.filter fun i => decide ((q.queues i).packets ≠ []) := by
    simp only [List.mem_filter, mem_indices, decide_eq_true_eq]
    exact ⟨inside, busy⟩
  exact @List.le_of_mem_argmin _ _ _ (fun i => (q.queues i).headFinishTime) _ _ _ listed found

/-- On a tie the search ends with the lowest of the queues. -/
theorem Sound.scan_lowest (sound : Sound config q) (found : scan config q = some i) {k : Fin 64}
    (busy : (q.queues k).packets ≠ []) (lower : k < i) :
    (q.queues i).headFinishTime < (q.queues k).headFinishTime := by
  have inside : (k : Nat) < config.queueNum :=
    (Fin.lt_def.mp lower).trans (sound.scan_least found).1
  have listed : k ∈ config.indices.filter fun i => decide ((q.queues i).packets ≠ []) := by
    simp only [List.mem_filter, mem_indices, decide_eq_true_eq]
    exact ⟨inside, busy⟩
  have sorted : (config.indices.filter fun i =>
      decide ((q.queues i).packets ≠ [])).Pairwise (· < ·) :=
    ((List.pairwise_lt_finRange 64).filter _).filter _
  have least : i ∈ (config.indices.filter fun i =>
      decide ((q.queues i).packets ≠ [])).argmin fun i => (q.queues i).headFinishTime := by
    rw [← scan_eq_argmin sound.finish]
    exact found
  have later := MqEcn.Library.Selection.lt_of_mem_argmin_of_sorted sorted least listed lower
  exact later

theorem Sound.enque {p : Packet} {taken : Bool} (sound : Sound config q)
    (enques : Enques config p q q' taken) : Sound config q' := by
  cases enques with
  | drop same => exact sound.of_same same
  | @activate marked time empty positive size stamp queues currTime weightSum =>
      have finite : time ≠ ⊤ := by
        rw [stamp]
        exact WithTop.add_ne_top.mpr ⟨sound.clock, WithTop.coe_ne_top⟩
      exact sound.update queues positive (classify_lt config p) (currTime ▸ finite) fun _ => finite
  | append busy size queues currTime weightSum =>
      exact sound.update queues (sound.weights _) (classify_lt config p) (currTime ▸ sound.clock)
        fun _ => sound.finish _ busy

theorem Sound.deque {pkt : Option (Fin 64 × Packet)} (sound : Sound config q)
    (deques : Deques config now q q' pkt) : Sound config q' := by
  cases deques with
  | idle empty same => exact sound.of_same same
  | @advance i pkt next rest time drain found front positive stamp queues currTime weightSum =>
      obtain ⟨inside, busy, _⟩ := sound.scan_least found
      have finite : time ≠ ⊤ := by
        rw [stamp]
        exact WithTop.add_ne_top.mpr ⟨sound.finish _ busy, WithTop.coe_ne_top⟩
      apply sound.update queues positive inside _ fun _ => finite
      rw [currTime]
      split
      · exact finite
      · exact sound.clock
  | retire found front queues currTime weightSum =>
      obtain ⟨inside, busy, _⟩ := sound.scan_least found
      exact sound.update queues (sound.weights _) inside (currTime ▸ sound.clock)
        fun nonempty => absurd rfl nonempty

private theorem markingEcn_returns (inside : (i : Nat) < config.queueNum) :
    ∃ marks, markingEcn config q i = some marks := by
  unfold markingEcn
  simp only [if_neg (not_le.mpr inside)]
  split_ifs <;> exact ⟨_, rfl⟩

private theorem Sound.admission_returns (now : ℚ) (p : Packet) (sound : Sound config q) :
    ∃ q', admission config now p q = some q' := by
  have stamped : ∃ stamped, (if (q.queues (classify config p)).packets = [] then
      activate (classify config p) p.size q else some q) = some stamped := by
    split
    · exact ⟨_, if_pos (sound.weights _)⟩
    · exact ⟨q, rfl⟩
  obtain ⟨stamped, stamps⟩ := stamped
  have marked : ∃ marked,
      enqueMarking config now (classify config p) p (push (classify config p) p stamped) =
        some marked := by
    unfold enqueMarking
    split
    · obtain ⟨marks, returns⟩ := markingEcn_returns (q := push (classify config p) p stamped)
        (classify_lt config p)
      exact ⟨_, by rw [returns]; rfl⟩
    · exact ⟨_, rfl⟩
  obtain ⟨marked, marks⟩ := marked
  exact ⟨push (classify config p) marked stamped, by simp [admission, stamps, marks]⟩

/-- No enque exits. -/
theorem Sound.enque_returns (pow : ℚ → ℚ → ℚ) {p : Packet} (sound : Sound config q) :
    ∃ result, Wfq.enque pow config now p q = some result := by
  have same := (sameSchedule_startTimer config q).trans
    (sameSchedule_decayEstimate pow config now (startTimer config q))
  unfold Wfq.enque
  simp only
  split
  · exact ⟨_, rfl⟩
  · obtain ⟨q', returns⟩ := (sound.of_same same).admission_returns now p
    exact ⟨_, by rw [returns]; rfl⟩

/-- A port that holds bytes holds a packet in one of its queues. -/
theorem exists_busy_of_totalByteLength (positive : 0 < totalByteLength config q) :
    ∃ i ∈ config.indices, (q.queues i).packets ≠ [] := by
  by_contra none
  push Not at none
  have zero : totalByteLength config q = 0 := by
    apply List.sum_eq_zero
    intro bytes member
    obtain ⟨i, inside, rfl⟩ := List.mem_map.mp member
    exact byteLength_eq_zero_iff.mpr (none i inside)
  omega

/-- No deque exits, and a port that holds bytes sends a packet. -/
theorem Sound.deque_returns (sound : Sound config q) :
    ∃ q' pkt, Wfq.deque config now q = some (q', pkt) ∧
      (pkt = none ↔ totalByteLength config q = 0) := by
  unfold Wfq.deque
  by_cases positive : 0 < totalByteLength config q
  · obtain ⟨k, listed, busy⟩ := exists_busy_of_totalByteLength positive
    have nonempty : (scan config q).isSome := by
      rw [Option.isSome_iff_ne_none, scan_eq_argmin sound.finish, ne_eq, List.argmin_eq_none]
      apply List.ne_nil_of_mem (a := k)
      simpa [listed] using busy
    obtain ⟨i, found⟩ := Option.isSome_iff_exists.mp nonempty
    obtain ⟨head, rest, front⟩ := List.exists_cons_of_ne_nil (sound.scan_least found).2.1
    have advances : ∃ q', advance i (pop config now i head rest q) = some q' := by
      unfold advance
      simp only [pop, Function.update_self]
      cases rest with
      | nil => exact ⟨_, rfl⟩
      | cons next more => exact ⟨_, if_pos (sound.weights i)⟩
    obtain ⟨q', returns⟩ := advances
    simp only [if_pos positive, found, front, returns]
    exact ⟨_, _, rfl, by simp; omega⟩
  · rw [if_neg positive]
    exact ⟨_, _, rfl, by simp; omega⟩

theorem setWeight_cases {queueId : Int} {weight : ℚ}
    (returns : setWeight config queueId weight q = some q') :
    ∃ i : Fin 64, (i : Int) = queueId ∧ i < config.queueNum ∧ 0 < weight ∧
      q' = { q with queues := Function.update q.queues i { q.queues i with weight } } := by
  unfold setWeight at returns
  split_ifs at returns with inside positive
  obtain rfl := Option.some.inj returns
  exact ⟨⟨queueId.toNat, config.toNat_lt inside.1⟩, Int.toNat_of_nonneg inside.2,
    (Int.toNat_lt inside.2).mpr inside.1, positive, rfl⟩

theorem setThresh_cases {queueId : Int} {thresh : ℚ}
    (returns : setThresh config queueId thresh q = some q') :
    ∃ i : Fin 64, i < config.queueNum ∧
      q' = { q with queues := Function.update q.queues i { q.queues i with thresh } } := by
  unfold setThresh at returns
  split_ifs at returns with inside nonneg
  obtain rfl := Option.some.inj returns
  exact ⟨⟨queueId.toNat, config.toNat_lt inside.1⟩, (Int.toNat_lt inside.2).mpr inside.1, rfl⟩

theorem Sound.command {request : Command} (sound : Sound config q)
    (returns : command config q request = some q') : Sound config q' := by
  cases request with
  | setWeight queueId weight =>
      obtain ⟨i, _, listed, positive, rfl⟩ := setWeight_cases returns
      exact sound.update rfl positive listed sound.clock (sound.finish _)
  | setThresh queueId thresh =>
      obtain ⟨i, listed, rfl⟩ := setThresh_cases returns
      exact sound.update rfl (sound.weights _) listed sound.clock (sound.finish _)

end

theorem sound_construct (config : Config) : Sound config construct where
  weights := fun _ => by
    show (0 : ℚ) < 10000
    norm_num
  outside := fun _ _ => rfl
  clock := WithTop.coe_ne_top
  finish := fun _ busy => absurd rfl busy

theorem Sound.step {pow : ℚ → ℚ → ℚ} {s s' : Sys} {event : Event Command}
    (step : Step pow s event s') (sound : Sound s.config s.q) : Sound s'.config s'.q := by
  cases step with
  | enque later returns => exact sound.enque (enque_cases returns)
  | deque later returns => exact sound.deque (deque_cases returns)
  | command returns => exact sound.command returns
  | timeout later pending => exact sound.of_same ⟨rfl, rfl, rfl⟩

theorem sound_of_reachable {pow : ℚ → ℚ → ℚ} {s : Sys} (reachable : Reachable pow s) :
    Sound s.config s.q := by
  apply reachable.invariant (fun s => Sound s.config s.q) _ Sound.step
  intro start fresh
  rw [fresh]
  exact sound_construct start.config

/-! ### The step as a function -/

/-- The operations of the discipline. -/
def operations (pow : ℚ → ℚ → ℚ) : Operations Config WfqQueue Command where
  enque := Wfq.enque pow
  deque := Wfq.deque
  command := Wfq.command
  timer := WfqQueue.timer
  timeout := Wfq.timeout

private theorem operations_follow (pow : ℚ → ℚ → ℚ) : (operations pow).Follow (Step pow) :=
  ⟨.enque, .deque, .command, .timeout⟩

def Sys.next (pow : ℚ → ℚ → ℚ) : Sys → Event Command → Option Sys := (operations pow).next

theorem Sys.next_sound {pow : ℚ → ℚ → ℚ} {s s' : Sys} {event : Event Command}
    (answers : Sys.next pow s event = some s') : Step pow s event s' :=
  (operations_follow pow).next_sound answers

end MqEcn.Ns2.Wfq
