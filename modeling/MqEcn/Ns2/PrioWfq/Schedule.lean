import MqEcn.Ns2.PrioWfq.Model
import MqEcn.Ns2.StrictPriority
import MqEcn.Ns2.Wfq.Step

/-!
Contract: what the NS2 PRIO_WFQ discipline serves.

Owns: what every operation does to the queues and to the virtual time, in the terms of the WFQ
discipline; the invariant under which no operation exits; strict priority, and the earliest
finish time below the priority queues.

Does not own: the estimates, and the fairness of the WFQ queues.
-/

set_option autoImplicit false

namespace MqEcn.Ns2.PrioWfq

open MqEcn.Library.Transition
open MqEcn.Ns2.Dwrr (MarkedFrom)
open MqEcn.Ns2.PrioDwrr (PacketPrio highest)
open MqEcn.Ns2.StrictPriority (QueueId)
open MqEcn.Ns2.Wfq hiding Enques Deques Step Reachable Initial Sys enque deque admission construct
  markingEcn enqueMarking decayEstimate sampleEstimate setWeight setThresh command Command Config
  defaultConfig enqueMarking_size sameSchedule_decayEstimate sameSchedule_sampleEstimate
  admission_cases enque_cases deque_cases setWeight_cases setThresh_cases

/-! ### Operations -/

/-- The packets of a queue. -/
def packets (q : PrioWfqQueue) : QueueId → List Packet :=
  Sum.elim (PacketPrio.packets ∘ q.prioQueues) (PacketWfq.packets ∘ q.wfq.queues)

/-- No packet is behind the priority queues in use. -/
def PrioInside (config : Config) (q : PrioWfqQueue) : Prop :=
  ∀ i : Fin 8, config.prioQueueNum ≤ i → (q.prioQueues i).packets = []

/-- A packet of a WFQ queue, as a WFQ discipline without priority queues would number it. -/
def asWfq (i : Fin 64) (p : Packet) : Packet := { p with prio := ((i : Nat) : Int) }

/-- How an enque ends. -/
inductive Enques (config : Config) (p : Packet) (q q' : PrioWfqQueue) : Bool → Prop
  | drop (wfq : SameSchedule q.wfq q'.wfq) (prio : q'.prioQueues = q.prioQueues) :
      Enques config p q q' false
  | prio {i : Fin 8} {marked : Packet}
      (target : queueOf config (queueIndex config p) = some (.inl i))
      (marker : MarkedFrom p marked) (wfq : SameSchedule q.wfq q'.wfq)
      (prio : q'.prioQueues = Function.update q.prioQueues i
        { q.prioQueues i with packets := (q.prioQueues i).packets ++ [marked] }) :
      Enques config p q q' true
  | wfq {i : Fin 64} {marked : Packet} {cl : PacketWfq}
      (target : queueOf config (queueIndex config p) = some (.inr i))
      (marker : MarkedFrom p marked)
      (queues : q'.wfq.queues = Function.update q.wfq.queues i cl)
      (content : cl.packets = (q.wfq.queues i).packets ++ [marked])
      (wfq : Wfq.Enques config.toConfig (asWfq i p) q.wfq q'.wfq true)
      (prio : q'.prioQueues = q.prioQueues) : Enques config p q q' true

/-- How a deque ends. -/
inductive Deques (config : Config) (now : ℚ) (q q' : PrioWfqQueue) :
    Option (QueueId × Packet) → Prop
  | prio {i : Fin 8} {pkt : Packet} {rest : List Packet}
      (found : firstPrio config q = some (i, pkt, rest))
      (after : q' = servePrio config now i pkt rest q) :
      Deques config now q q' (some (.inl i, dequeMarking config.toConfig now pkt))
  | wfq {i : Fin 64} {sent : Packet} (idle : ∀ k, (q.prioQueues k).packets = [])
      (wfq : Wfq.Deques config.toConfig now q.wfq q'.wfq (some (i, sent)))
      (prio : q'.prioQueues = q.prioQueues) : Deques config now q q' (some (.inr i, sent))
  | idle (empty : totalByteLength q = 0) (wfq : SameSchedule q.wfq q'.wfq)
      (prio : q'.prioQueues = q.prioQueues) : Deques config now q q' none

section

variable {pow : ℚ → ℚ → ℚ} {config : Config} {now : ℚ} {q q' : PrioWfqQueue} {p : Packet}

private theorem enqueMarking_markedFrom {index : Nat} {marked : Packet}
    (marks : enqueMarking config now index p q = some marked) : MarkedFrom p marked := by
  unfold enqueMarking at marks
  split at marks
  · rcases Option.map_eq_some_iff.mp marks with ⟨mark, _, rfl⟩
    split <;> exact ⟨rfl, rfl⟩
  · cases marks
    split <;> exact ⟨rfl, rfl⟩

/-- Every packet has a queue. -/
theorem exists_queueOf (config : Config) (p : Packet) :
    ∃ queue, queueOf config (queueIndex config p) = some queue := by
  have inside : queueIndex config p < config.queueNum + config.prioQueueNum := by
    have prio := config.prioQueueNum_range.1
    unfold queueIndex Config.portQueueNum
    split <;> omega
  unfold queueOf
  split
  · exact ⟨_, rfl⟩
  · rw [dif_pos (by omega)]
    exact ⟨_, rfl⟩

private theorem queueOf_eq_inl {index : Nat} {i : Fin 8}
    (target : queueOf config index = some (.inl i)) :
    (i : Nat) < config.prioQueueNum := by
  unfold queueOf at target
  split at target
  next inside =>
    cases target
    exact inside
  next => split at target <;> cases target

theorem queueOf_eq_inr {index : Nat} {i : Fin 64} (target : queueOf config index = some (.inr i)) :
    (i : Nat) < config.queueNum := by
  unfold queueOf at target
  split at target
  next => cases target
  next =>
    split at target
    next inside =>
      cases target
      exact inside
    next => cases target

/-- The WFQ discipline finds the queue of the packet where `PRIO_WFQ` does. -/
theorem classify_asWfq {i : Fin 64} (inside : (i : Nat) < config.queueNum) (p : Packet) :
    classify config.toConfig (asWfq i p) = i := by
  have range : 0 ≤ (asWfq i p).prio ∧ (asWfq i p).prio < config.queueNum :=
    ⟨Int.natCast_nonneg _, Int.ofNat_lt.mpr inside⟩
  unfold classify
  rw [dif_pos range]
  exact Fin.ext (Int.toNat_natCast _)

/-- The marker does not exit for a queue in range. -/
theorem enqueMarking_returns {index : Nat} {queue : Fin 8 ⊕ Fin 64}
    (target : queueOf config index = some queue) (now : ℚ) (p : Packet) (q : PrioWfqQueue) :
    ∃ marked, enqueMarking config now index p q = some marked := by
  unfold enqueMarking markingEcn
  split
  · simp only [target, Option.map_some]
    exact ⟨_, rfl⟩
  · exact ⟨_, rfl⟩

theorem sameSchedule_settle (pow : ℚ → ℚ → ℚ) (config : Config) (now : ℚ) (q : PrioWfqQueue) :
    SameSchedule q.wfq (settle pow config now q).wfq := by
  have started := sameSchedule_startTimer config.toConfig q.wfq
  unfold settle decayEstimate
  split
  · exact started.trans ⟨rfl, rfl, rfl⟩
  · exact started

private theorem settle_prioQueues (pow : ℚ → ℚ → ℚ) (config : Config) (now : ℚ) (q : PrioWfqQueue) :
    (settle pow config now q).prioQueues = q.prioQueues := by
  unfold settle decayEstimate
  split <;> rfl

theorem sameSchedule_sampleEstimate (config : Config) (now : ℚ) (q : PrioWfqQueue) :
    SameSchedule q.wfq (sampleEstimate config now q).wfq := by
  unfold sampleEstimate
  split
  · simp only
    split_ifs <;> exact ⟨rfl, rfl, rfl⟩
  · exact ⟨rfl, rfl, rfl⟩

theorem sampleEstimate_prioQueues (config : Config) (now : ℚ) (q : PrioWfqQueue) :
    (sampleEstimate config now q).prioQueues = q.prioQueues := by
  unfold sampleEstimate
  split <;> rfl

private theorem totalWfqByteLength_eq_zero_iff :
    totalWfqByteLength q = 0 ↔ ∀ i, (q.wfq.queues i).packets = [] := by
  unfold totalWfqByteLength
  rw [List.sum_eq_zero_iff_forall_eq_nat]
  simp [byteLength_eq_zero_iff]

private theorem totalPrioByteLength_eq_zero_iff :
    totalPrioByteLength q = 0 ↔ ∀ i, (q.prioQueues i).packets = [] := by
  unfold totalPrioByteLength
  rw [List.sum_eq_zero_iff_forall_eq_nat]
  simp [byteLength_eq_zero_iff]

theorem asks_firstPrio (q : PrioWfqQueue) :
    StrictPriority.Asks (fun i => (q.prioQueues i).packets) fun i =>
      match (q.prioQueues i).packets with
      | [] => none
      | pkt :: rest => some (i, pkt, rest) := fun _ => rfl

/-- An enque on a queue whose estimates have been settled. -/
theorem enques_of_same {config : Wfq.Config} {q settled q' : WfqQueue} {taken : Bool}
    (same : SameSchedule q settled) (enques : Wfq.Enques config p settled q' taken) :
    Wfq.Enques config p q q' taken := by
  cases enques with
  | drop sameAfter => exact .drop (same.trans sameAfter)
  | activate empty positive size stamp queues currTime weightSum =>
      rw [same.queues] at empty positive stamp queues weightSum
      rw [same.currTime] at stamp
      rw [same.weightSum] at weightSum
      exact .activate empty positive size stamp queues currTime weightSum
  | append busy size queues currTime weightSum =>
      rw [same.queues] at busy queues
      exact .append busy size queues (currTime.trans same.currTime)
        (weightSum.trans same.weightSum)

/-- Queues filled in range leave those out of range empty. -/
theorem prioInside_update {i : Fin 8} {cl : PacketPrio} (inside : PrioInside config q)
    (used : (i : Nat) < config.prioQueueNum)
    (prio : q'.prioQueues = Function.update q.prioQueues i cl) : PrioInside config q' := by
  intro k outside
  have apart : k ≠ i := by
    rintro rfl
    omega
  rw [prio, Function.update_of_ne apart]
  exact inside k outside

private theorem prioInside_of_eq (inside : PrioInside config q)
    (prio : q'.prioQueues = q.prioQueues) :
    PrioInside config q' := by
  unfold PrioInside
  rw [prio]
  exact inside

/-! ### No operation exits -/

/-- What the operations rest on. -/
structure Valid (config : Config) (q : PrioWfqQueue) : Prop where
  sound : Sound config.toConfig q.wfq
  inside : PrioInside config q

namespace Valid

/-- A packet of a WFQ queue is stamped where its queue is empty, and appended. -/
theorem push_returns (valid : Valid config q) {i : Fin 64} (inside : (i : Nat) < config.queueNum)
    (p : Packet) :
    ∃ stamped, (if (q.wfq.queues i).packets = [] then activate i p.size q.wfq else some q.wfq) =
        some stamped ∧
      ∀ marked, MarkedFrom p marked →
        Wfq.Enques config.toConfig (asWfq i p) q.wfq (push i marked stamped) true ∧
          ∃ cl, (push i marked stamped).queues = Function.update q.wfq.queues i cl ∧
            cl.packets = (q.wfq.queues i).packets ++ [marked] := by
  have here := classify_asWfq inside p
  by_cases empty : (q.wfq.queues i).packets = []
  · have positive := valid.sound.weights i
    refine ⟨_, (if_pos empty).trans (if_pos positive), fun marked marker => ⟨?_, ?_⟩⟩
    · refine @Wfq.Enques.activate _ _ _ _ marked _ ?_ ?_ marker.1 rfl ?_ ?_ ?_
      · rw [here]
        exact empty
      · rw [here]
        exact positive
      · rw [here]
        simp [push, empty]
        rfl
      · rw [here]
        rfl
      · rw [here]
        rfl
    · exact ⟨_, Function.update_idem _ _ _, by simp⟩
  · refine ⟨q.wfq, if_neg empty, fun marked marker => ⟨?_, _, rfl, rfl⟩⟩
    refine @Wfq.Enques.append _ _ _ _ marked ?_ marker.1 ?_ rfl rfl
    · rw [here]
      exact empty
    · rw [here]
      rfl

/-- An enque comes to its end. -/
theorem enque_returns (valid : Valid config q) (pow : ℚ → ℚ → ℚ) (now : ℚ) (p : Packet) :
    ∃ q' taken, enque pow config now p q = some (q', taken) ∧ Enques config p q q' taken := by
  have same := sameSchedule_settle pow config now q
  have prio := settle_prioQueues pow config now q
  unfold enque
  simp only
  generalize settle pow config now q = settled at same prio ⊢
  split
  · exact ⟨settled, false, rfl, .drop same prio⟩
  · have settledValid : Valid config settled := by
      refine ⟨valid.sound.of_same same, ?_⟩
      unfold PrioInside
      rw [prio]
      exact valid.inside
    obtain ⟨queue, target⟩ := exists_queueOf config p
    unfold admission
    simp only [target]
    cases queue with
    | inl i =>
        obtain ⟨marked, marks⟩ := enqueMarking_returns target now p (pushPrio i p settled)
        refine ⟨pushPrio i marked settled, true, ?_,
          .prio target (enqueMarking_markedFrom marks) same ?_⟩
        · simp only [marks, Option.map_some]
        · show Function.update settled.prioQueues i _ = _
          rw [prio]
    | inr i =>
        obtain ⟨stamped, stamps, pushes⟩ := settledValid.push_returns (queueOf_eq_inr target) p
        obtain ⟨marked, marks⟩ := enqueMarking_returns target now p
          (pushWfq i p { settled with wfq := stamped })
        have marker := enqueMarking_markedFrom marks
        obtain ⟨enques, cl, queues, content⟩ := pushes marked marker
        refine ⟨pushWfq i marked { settled with wfq := stamped }, true, ?_, ?_⟩
        · simp only [stamps, Option.bind_some, marks, Option.map_some]
        · rw [same.queues] at queues content
          exact .wfq target marker queues content (enques_of_same same enques) prio

theorem enque_cases {taken : Bool} (valid : Valid config q)
    (returns : enque pow config now p q = some (q', taken)) : Enques config p q q' taken := by
  obtain ⟨last, code, same, enques⟩ := valid.enque_returns pow now p
  rw [returns] at same
  cases same
  exact enques

/-- While the priority queues hold bytes, the scan finds a packet. -/
theorem exists_firstPrio (valid : Valid config q) (busy : 0 < totalPrioByteLength q) :
    ∃ found, firstPrio config q = some found := by
  cases found : firstPrio config q with
  | some answer => exact ⟨answer, rfl⟩
  | none =>
      have empty := totalPrioByteLength_eq_zero_iff.mpr
        ((asks_firstPrio q).empty_of_not_found valid.inside found)
      omega

/-- While the WFQ queues hold bytes, the search finds a packet. -/
theorem exists_scan (valid : Valid config q) (busy : 0 < totalWfqByteLength q) :
    ∃ i pkt rest, scan config.toConfig q.wfq = some i ∧
      (q.wfq.queues i).packets = pkt :: rest := by
  have nonempty : ∃ k, (q.wfq.queues k).packets ≠ [] := by
    by_contra none
    push Not at none
    have empty := totalWfqByteLength_eq_zero_iff.mpr none
    omega
  obtain ⟨k, holds⟩ := nonempty
  have used : (k : Nat) < config.queueNum := by
    by_contra beyond
    exact holds (valid.sound.outside k (not_lt.mp beyond))
  have searched : (scan config.toConfig q.wfq).isSome := by
    rw [Option.isSome_iff_ne_none, scan_eq_argmin valid.sound.finish, ne_eq, List.argmin_eq_none]
    apply List.ne_nil_of_mem (a := k)
    simpa [mem_indices] using And.intro used holds
  obtain ⟨i, found⟩ := Option.isSome_iff_exists.mp searched
  obtain ⟨pkt, rest, front⟩ := List.exists_cons_of_ne_nil (valid.sound.scan_least found).2.1
  exact ⟨i, pkt, rest, found, front⟩

/-- The WFQ branch does what a deque of the WFQ discipline does, up to the estimate. -/
theorem dequeWfq_returns (valid : Valid config q) (busy : 0 < totalWfqByteLength q) (now : ℚ) :
    ∃ wfq i sent, dequeWfq config now q.wfq = some (wfq, some (.inr i, sent)) ∧
      ∀ sampled, SameSchedule wfq sampled →
        Wfq.Deques config.toConfig now q.wfq sampled (some (i, sent)) := by
  obtain ⟨i, pkt, rest, found, front⟩ := valid.exists_scan busy
  unfold dequeWfq advance
  simp only [found, front, pop, Function.update_self]
  cases rest with
  | nil =>
      refine ⟨_, i, _, rfl, fun sampled same => ?_⟩
      exact .retire found front (same.queues.trans (Function.update_idem _ _ _))
        same.currTime same.weightSum
  | cons next more =>
      have positive := valid.sound.weights i
      simp only [if_pos positive]
      refine ⟨_, i, _, rfl, fun sampled same => ?_⟩
      exact .advance found front positive rfl
        (same.queues.trans (Function.update_idem _ _ _)) same.currTime same.weightSum

/-- A deque comes to its end. -/
theorem deque_returns (valid : Valid config q) (now : ℚ) :
    ∃ q' answer, deque config now q = some (q', answer) ∧ Deques config now q q' answer := by
  unfold deque
  by_cases prioBusy : 0 < totalPrioByteLength q
  · obtain ⟨⟨i, pkt, rest⟩, found⟩ := valid.exists_firstPrio prioBusy
    refine ⟨servePrio config now i pkt rest q, _, ?_, .prio found rfl⟩
    unfold dequePrio
    rw [if_pos prioBusy, found]
  have idle := totalPrioByteLength_eq_zero_iff.mp (Nat.eq_zero_of_not_pos prioBusy)
  by_cases wfqBusy : 0 < totalWfqByteLength q
  · obtain ⟨wfq, i, sent, returns, deques⟩ := valid.dequeWfq_returns wfqBusy now
    have same := sameSchedule_sampleEstimate config now { q with wfq }
    refine ⟨sampleEstimate config now { q with wfq }, some (.inr i, sent), ?_,
      .wfq idle (deques _ same) (sampleEstimate_prioQueues config now { q with wfq })⟩
    rw [if_neg prioBusy, if_pos wfqBusy, returns]
    rfl
  · refine ⟨sampleEstimate config now q, none, ?_, .idle ?_
      (sameSchedule_sampleEstimate config now q) (sampleEstimate_prioQueues config now q)⟩
    · rw [if_neg prioBusy, if_neg wfqBusy]
    · unfold totalByteLength
      omega

theorem deque_cases {answer : Option (QueueId × Packet)} (valid : Valid config q)
    (returns : deque config now q = some (q', answer)) : Deques config now q q' answer := by
  obtain ⟨last, served, same, deques⟩ := valid.deque_returns now
  rw [returns] at same
  cases same
  exact deques

theorem enque {taken : Bool} (valid : Valid config q) (enques : Enques config p q q' taken) :
    Valid config q' := by
  cases enques with
  | drop wfq prio => exact ⟨valid.sound.of_same wfq, prioInside_of_eq valid.inside prio⟩
  | prio target marker wfq prio =>
      exact ⟨valid.sound.of_same wfq,
        prioInside_update valid.inside (queueOf_eq_inl target) prio⟩
  | wfq target marker queues content wfq prio =>
      exact ⟨valid.sound.enque wfq, prioInside_of_eq valid.inside prio⟩

theorem deque {answer : Option (QueueId × Packet)} (valid : Valid config q)
    (deques : Deques config now q q' answer) : Valid config q' := by
  cases deques with
  | @prio i pkt rest found after =>
      subst after
      have used : (i : Nat) < config.prioQueueNum := by
        by_contra beyond
        obtain ⟨front, _⟩ := (asks_firstPrio q).front_of_found valid.inside found
        rw [valid.inside i (not_lt.mp beyond)] at front
        cases front
      exact ⟨valid.sound, prioInside_update valid.inside used rfl⟩
  | wfq idle wfq prio => exact ⟨valid.sound.deque wfq, prioInside_of_eq valid.inside prio⟩
  | idle empty wfq prio => exact ⟨valid.sound.of_same wfq, prioInside_of_eq valid.inside prio⟩

end Valid

/-! ### Commands -/

/-- A command leaves every FIFO and every time as it is. -/
structure SameTimes (q q' : PrioWfqQueue) : Prop where
  prio : ∀ i, (q'.prioQueues i).packets = (q.prioQueues i).packets
  packets : ∀ i, (q'.wfq.queues i).packets = (q.wfq.queues i).packets
  finish : ∀ i, (q'.wfq.queues i).headFinishTime = (q.wfq.queues i).headFinishTime
  currTime : q'.wfq.currTime = q.wfq.currTime

/-- A WFQ queue of the same packets and the same time replaces another. -/
theorem sameTimes_update {i : Fin 64} {cl : PacketWfq}
    (content : cl.packets = (q.wfq.queues i).packets)
    (time : cl.headFinishTime = (q.wfq.queues i).headFinishTime) :
    SameTimes q { q with wfq := { q.wfq with queues := Function.update q.wfq.queues i cl } } := by
  refine ⟨fun _ => rfl, fun k => ?_, fun k => ?_, rfl⟩
  · by_cases same : k = i
    · subst same
      simpa using content
    · simp [Function.update_of_ne same]
  · by_cases same : k = i
    · subst same
      simpa using time
    · simp [Function.update_of_ne same]

theorem command_cases {request : Command} (returns : command config q request = some q') :
    SameTimes q q' ∧ ∃ i cl, q'.wfq.queues = Function.update q.wfq.queues i cl ∧
      (0 < (q.wfq.queues i).weight → 0 < cl.weight) := by
  cases request with
  | setWeight queueId weight =>
      simp only [command, setWeight, Option.dite_none_right_eq_some,
        Option.ite_none_right_eq_some, Option.some.injEq] at returns
      rcases returns with ⟨inside, positive, rfl⟩
      exact ⟨sameTimes_update rfl rfl, _, _, rfl, fun _ => Int.cast_pos.mpr positive⟩
  | setThresh queueId thresh =>
      simp only [command, setThresh, Option.ite_none_right_eq_some,
        Option.map_eq_some_iff] at returns
      rcases returns with ⟨_, queue, _, rfl⟩
      cases queue with
      | inl i =>
          refine ⟨⟨fun k => ?_, fun _ => rfl, fun _ => rfl, rfl⟩, 0, q.wfq.queues 0,
            (Function.update_eq_self 0 q.wfq.queues).symm, fun positive => positive⟩
          show (Function.update q.prioQueues i _ k).packets = _
          by_cases same : k = i
          · subst same
            rw [Function.update_self]
          · rw [Function.update_of_ne same]
      | inr i => exact ⟨sameTimes_update rfl rfl, _, _, rfl, fun positive => positive⟩

theorem Valid.command {request : Command} (valid : Valid config q)
    (returns : PrioWfq.command config q request = some q') : Valid config q' := by
  obtain ⟨same, i, cl, queues, weight⟩ := command_cases returns
  refine ⟨⟨fun k => ?_, fun k beyond => ?_, ?_, fun k => ?_⟩, fun k outside => ?_⟩
  · rw [queues]
    by_cases own : k = i
    · subst own
      simpa using weight (valid.sound.weights k)
    · simpa [Function.update_of_ne own] using valid.sound.weights k
  · rw [same.packets]
    exact valid.sound.outside k beyond
  · rw [same.currTime]
    exact valid.sound.clock
  · rw [same.packets, same.finish]
    exact valid.sound.finish k
  · rw [same.prio]
    exact valid.inside k outside

end

/-! ### Reachable states -/

section

variable {pow : ℚ → ℚ → ℚ} {s s' : Sys} {event : Event}

theorem valid_construct (config : Config) : Valid config construct :=
  ⟨sound_construct config.toConfig, fun _ _ => rfl⟩

theorem Valid.step (step : Step pow s event s') (valid : Valid s.config s.q) :
    Valid s'.config s'.q := by
  cases step with
  | enque later returns => exact valid.enque (valid.enque_cases returns)
  | deque later returns => exact valid.deque (valid.deque_cases returns)
  | command returns => exact valid.command returns
  | timeout later pending => exact ⟨valid.sound.of_same ⟨rfl, rfl, rfl⟩, valid.inside⟩

theorem valid_of_reachable (reachable : Reachable pow s) : Valid s.config s.q := by
  apply reachable.invariant (fun s => Valid s.config s.q) _ Valid.step
  intro start fresh
  rw [fresh]
  exact valid_construct start.config

end

/-! ### Service -/

/-- What an enque does to the queues. -/
def Takes (config : Config) (p : Packet) (q q' : PrioWfqQueue) (taken : Bool) : Prop :=
  StrictPriority.Takes (config.qlim * config.meanPktsize) (queueOf config (queueIndex config p)) p
    (packets q) (packets q') taken

/-- What a deque answers: below the priority queues, a packet of the lowest queue with the earliest
finish time. -/
structure Answers (config : Config) (now : ℚ) (q q' : PrioWfqQueue)
    (answer : Option (QueueId × Packet)) : Prop where
  served : StrictPriority.Answers (dequeMarking config.toConfig now) (packets q) (packets q') answer
  earliest : ∀ i sent, answer = some (.inr i, sent) → ∀ k, (q.wfq.queues k).packets ≠ [] →
    (q.wfq.queues i).headFinishTime ≤ (q.wfq.queues k).headFinishTime
  lowest : ∀ i sent, answer = some (.inr i, sent) → ∀ k < i, (q.wfq.queues k).packets ≠ [] →
    (q.wfq.queues i).headFinishTime < (q.wfq.queues k).headFinishTime

section

variable {pow : ℚ → ℚ → ℚ} {config : Config} {now : ℚ} {q q' : PrioWfqQueue} {p : Packet}

theorem packets_of_prio {i : Fin 8} {cl : PacketPrio}
    (prio : q'.prioQueues = Function.update q.prioQueues i cl)
    (wfq : q'.wfq.queues = q.wfq.queues) :
    packets q' = Function.update (packets q) (.inl i) cl.packets :=
  StrictPriority.elim_of_prio prio (congrArg (PacketWfq.packets ∘ ·) wfq)

theorem packets_servePrio (config : Config) (now : ℚ) (i : Fin 8) (pkt : Packet)
    (rest : List Packet) (q : PrioWfqQueue) :
    packets (servePrio config now i pkt rest q) = Function.update (packets q) (.inl i) rest := by
  have prio : (servePrio config now i pkt rest q).prioQueues =
      Function.update q.prioQueues i _ := rfl
  exact packets_of_prio prio rfl

private theorem packets_of_wfq {i : Fin 64} {cl : PacketWfq} (prio : q'.prioQueues = q.prioQueues)
    (wfq : q'.wfq.queues = Function.update q.wfq.queues i cl) :
    packets q' = Function.update (packets q) (.inr i) cl.packets := by
  apply StrictPriority.elim_of_lower prio
  rw [wfq, Function.comp_update]

theorem packets_of_same (prio : q'.prioQueues = q.prioQueues) (wfq : SameSchedule q.wfq q'.wfq) :
    packets q' = packets q :=
  StrictPriority.elim_of_same prio (congrArg (PacketWfq.packets ∘ ·) wfq.queues)

theorem totalByteLength_eq_stored (q : PrioWfqQueue) :
    totalByteLength q = StrictPriority.stored (packets q) :=
  (StrictPriority.stored_elim _ _).symm

theorem packets_of_settled (pow : ℚ → ℚ → ℚ) (config : Config) (now : ℚ) (q : PrioWfqQueue) :
    packets (settle pow config now q) = packets q :=
  packets_of_same (settle_prioQueues pow config now q) (sameSchedule_settle pow config now q)

/-- A packet is dropped exactly when it does not fit. -/
theorem fits_of_enque {taken : Bool} (returns : enque pow config now p q = some (q', taken)) :
    taken = true ↔
      StrictPriority.stored (packets q) + p.size ≤ config.qlim * config.meanPktsize := by
  rw [← packets_of_settled pow config now q, ← totalByteLength_eq_stored]
  exact StrictPriority.fits_of_tested returns

private theorem Enques.takes {taken : Bool} (returns : enque pow config now p q = some (q', taken))
    (enques : Enques config p q q' taken) : Takes config p q q' taken := by
  have fits := fits_of_enque returns
  cases enques with
  | drop wfq prio => exact ⟨fits, fun _ => packets_of_same prio wfq, by simp⟩
  | prio target marker wfq prio =>
      exact ⟨fits, by simp, fun _ => ⟨_, _, target, marker, packets_of_prio prio wfq.queues⟩⟩
  | wfq target marker queues content wfq prio =>
      refine ⟨fits, by simp, fun _ => ⟨_, _, target, marker, ?_⟩⟩
      rw [packets_of_wfq prio queues, content]
      rfl

/-- A deque of the WFQ queues takes the head of the queue its search ends with. -/
theorem head_of_wfq {i : Fin 64} {sent : Packet} (prio : q'.prioQueues = q.prioQueues)
    (wfq : Wfq.Deques config.toConfig now q.wfq q'.wfq (some (i, sent))) :
    scan config.toConfig q.wfq = some i ∧
      ∃ pkt rest, packets q (.inr i) = pkt :: rest ∧
        sent = dequeMarking config.toConfig now pkt ∧
        packets q' = Function.update (packets q) (.inr i) rest := by
  cases wfq with
  | advance found front positive stamp queues currTime weightSum =>
      exact ⟨found, _, _, front, rfl, packets_of_wfq prio queues⟩
  | retire found front queues currTime weightSum =>
      exact ⟨found, _, _, front, rfl, packets_of_wfq prio queues⟩

private theorem Deques.answers {answer : Option (QueueId × Packet)} (valid : Valid config q)
    (deques : Deques config now q q' answer) : Answers config now q q' answer := by
  cases deques with
  | @prio i pkt rest found after =>
      subst after
      obtain ⟨front, earlier⟩ := (asks_firstPrio q).front_of_found valid.inside found
      exact ⟨⟨earlier, pkt, rest, front, rfl, packets_servePrio config now i pkt rest q⟩,
        (fun _ _ same => nomatch same), fun _ _ same => nomatch same⟩
  | @wfq i sent idle wfq prio =>
      obtain ⟨found, pkt, rest, front, marks, updated⟩ := head_of_wfq prio wfq
      refine ⟨⟨idle, pkt, rest, front, marks, updated⟩, fun k _ same => ?_, fun k _ same => ?_⟩
      · cases same
        exact (valid.sound.scan_least found).2.2
      · cases same
        exact fun lower smaller busy => valid.sound.scan_lowest found busy smaller
  | idle empty wfq prio =>
      rw [totalByteLength_eq_stored] at empty
      exact ⟨⟨empty, packets_of_same prio wfq⟩, (fun _ _ same => nomatch same),
        fun _ _ same => nomatch same⟩

theorem SameTimes.packets_eq (same : SameTimes q q') : PrioWfq.packets q' = PrioWfq.packets q := by
  funext queue
  cases queue with
  | inl k => exact same.prio k
  | inr k => exact same.packets k

/-- The bytes stored fit into the buffer. -/
def Fits (config : Config) (q : PrioWfqQueue) : Prop :=
  StrictPriority.Fits (config.qlim * config.meanPktsize) (packets q)

end

section

variable {pow : ℚ → ℚ → ℚ} {s s' : Sys} {event : Event}

private theorem Fits.step (step : Step pow s event s') (valid : Valid s.config s.q)
    (fits : Fits s.config s.q) : Fits s'.config s'.q := by
  cases step with
  | enque later returns =>
      exact StrictPriority.Fits.takes fits ((valid.enque_cases returns).takes returns)
  | deque later returns =>
      exact StrictPriority.Fits.answers fits ((valid.deque_cases returns).answers valid).served
  | command returns =>
      unfold Fits
      rw [(command_cases returns).1.packets_eq]
      exact fits
  | timeout later pending => exact fits

private theorem fits_of_reachable (reachable : Reachable pow s) : Fits s.config s.q := by
  have both : Valid s.config s.q ∧ Fits s.config s.q := by
    apply reachable.invariant (fun s => Valid s.config s.q ∧ Fits s.config s.q) _
      fun step holds => ⟨holds.1.step step, holds.2.step step holds.1⟩
    intro start fresh
    rw [fresh]
    exact ⟨valid_construct start.config, le_max_left _ _⟩
  exact both.2

/-- **Strict priority and the earliest finish time.** In every state reached the buffer is not
exceeded. An enque comes to its end: it drops the packet exactly when it does not fit, else it
appends it to its queue. A deque comes to its end: it returns nothing only where nothing is
stored, else the head of the first priority queue that holds a packet, and where no priority
queue holds one, the head of the lowest WFQ queue whose finish time is the earliest. -/
theorem strict_priority_and_earliest_finish (reachable : Reachable pow s) :
    (totalByteLength s.q : Int) ≤ max 0 (s.config.qlim * s.config.meanPktsize) ∧
      (∀ now p, ∃ q' taken, enque pow s.config now p s.q = some (q', taken) ∧
        Takes s.config p s.q q' taken) ∧
      ∀ now, ∃ q' answer, deque s.config now s.q = some (q', answer) ∧
        Answers s.config now s.q q' answer := by
  have valid := valid_of_reachable reachable
  refine ⟨?_, fun now p => ?_, fun now => ?_⟩
  · rw [totalByteLength_eq_stored]
    exact fits_of_reachable reachable
  · obtain ⟨q', taken, returns, enques⟩ := valid.enque_returns pow now p
    exact ⟨q', taken, returns, enques.takes returns⟩
  · obtain ⟨q', answer, returns, deques⟩ := valid.deque_returns now
    exact ⟨q', answer, returns, deques.answers valid⟩

end

/-! ### A loaded discipline -/

/-- The operations of the discipline. -/
def operations (pow : ℚ → ℚ → ℚ) : Operations Config PrioWfqQueue Command (Fin 8 ⊕ Fin 64) where
  enque := PrioWfq.enque pow
  deque := PrioWfq.deque
  command := PrioWfq.command
  timer := fun q => q.wfq.timer
  timeout := fun config q => { q with wfq := Wfq.timeout config.toConfig q.wfq }

private theorem operations_follow (pow : ℚ → ℚ → ℚ) : (operations pow).Follow (Step pow) :=
  ⟨.enque, .deque, .command, .timeout⟩

def Sys.next (pow : ℚ → ℚ → ℚ) : Sys → Event → Option Sys := (operations pow).next

theorem Sys.next_sound {pow : ℚ → ℚ → ℚ} {s s' : Sys} {event : Event}
    (answers : Sys.next pow s event = some s') : Step pow s event s' :=
  (operations_follow pow).next_sound answers

def fresh : Sys := ⟨defaultConfig, construct, 0⟩

/-- A packet of the given priority, not ECN-capable. -/
def segment (prio : Int) : Packet := ⟨prio, 1500, false, false, 0, fullSize_pos⟩

/-- A packet of the priority queue arrives behind packets of two WFQ queues and leaves first;
then the one that finishes first. -/
def overtaking : List Event :=
  [.command (.setWeight 2 40000), .enque 0 (segment 1) true, .enque 0 (segment 2) true,
    .enque 1 (segment 0) true, .deque 1 (some (.inl highest, segment 0)),
    .deque 2 (some (.inr 0, segment 1))]

private theorem overtaking_replays :
    (replay (Sys.next wholePow) (fun _ => True) fresh overtaking).isSome = true := by
  decide +kernel

/-- The state they lead to. -/
def overtaken : Sys :=
  (replay (Sys.next wholePow) (fun _ => True) fresh overtaking).get overtaking_replays

theorem overtaken_served :
    (totalByteLength overtaken.q : Int) ≤
        max 0 (overtaken.config.qlim * overtaken.config.meanPktsize) ∧
      (∀ now p, ∃ q' taken, enque wholePow overtaken.config now p overtaken.q = some (q', taken) ∧
        Takes overtaken.config p overtaken.q q' taken) ∧
      ∀ now, ∃ q' answer, deque overtaken.config now overtaken.q = some (q', answer) ∧
        Answers overtaken.config now overtaken.q q' answer :=
  strict_priority_and_earliest_finish ⟨fresh, overtaking, rfl,
    (RunWithin.of_replay_isSome Sys.next_sound overtaking_replays).run⟩

end MqEcn.Ns2.PrioWfq
