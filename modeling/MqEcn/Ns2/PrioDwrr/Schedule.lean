import MqEcn.Library.RingFairness
import MqEcn.Ns2.Dwrr.Schedule
import MqEcn.Ns2.PrioDwrr.Idle
import MqEcn.Ns2.StrictPriority

/-!
Contract: what the NS2 PRIO_DWRR discipline serves.

Owns: what every operation does to the queues and to the active list, the invariant they
keep, strict priority, the progress of `deque`, and the fairness of the DWRR queues under any
priority traffic.

Does not own: the estimates.
-/

set_option autoImplicit false

namespace MqEcn.Ns2.PrioDwrr

open MqEcn.Library
open MqEcn.Library.LinkedList
open MqEcn.Library.RingSchedule
open MqEcn.Library.Transition
open MqEcn.Ns2.Dwrr
open Relation (ReflTransGen)

/-! ### Operations -/

/-- The packets of the queue a deque names. -/
def packets (q : PrioDwrrQueue) : Fin 8 ⊕ Fin 64 → List Packet :=
  Sum.elim (PacketPrio.packets ∘ q.prioQueues) (PacketDwrr.packets ∘ q.dwrr.queues)

/-- What the schedule rests on; the active list goes through `ring`. -/
structure Valid (config : Config) (q : PrioDwrrQueue) (ring : List (Fin 64)) : Prop where
  lists : Lists q.dwrr ring
  ordered : Ordered (slots q.dwrr) ring
  inside : PrioInside config q

/-- How an enque ends: `q'` is left behind, and its active list goes through `ring'`. -/
inductive Enques (config : Config) (p : Packet) (q : PrioDwrrQueue) (ring : List (Fin 64))
    (q' : PrioDwrrQueue) : Bool → List (Fin 64) → Prop
  | drop (dwrr : SameSchedule q.dwrr q'.dwrr) (prio : q'.prioQueues = q.prioQueues) :
      Enques config p q ring q' false ring
  | prio {i : Fin 8} {marked : Packet}
      (target : queueOf config (queueIndex config p) = some (.inl i))
      (marker : MarkedFrom p marked) (dwrr : SameSchedule q.dwrr q'.dwrr)
      (prio : q'.prioQueues = Function.update q.prioQueues i
        { q.prioQueues i with packets := (q.prioQueues i).packets ++ [marked] }) :
      Enques config p q ring q' true ring
  | dwrr {i : Fin 64} {marked : Packet} {ring' : List (Fin 64)}
      (target : queueOf config (queueIndex config p) = some (.inr i))
      (marker : MarkedFrom p marked)
      (joins : Joins i marked (slots q.dwrr) ring (slots q'.dwrr) ring')
      (lists : Lists q'.dwrr ring') (prio : q'.prioQueues = q.prioQueues) :
      Enques config p q ring q' true ring'

/-- How a deque ends. -/
inductive Deques (config : Config) (now : ℚ) (q : PrioDwrrQueue) (ring : List (Fin 64))
    (q' : PrioDwrrQueue) : Option ((Fin 8 ⊕ Fin 64) × Packet) → List (Fin 64) → Prop
  | prio {i : Fin 8} {pkt : Packet} {rest : List Packet}
      (found : firstPrio config q = some (i, pkt, rest))
      (after : q' = servePrio config now i pkt rest q) :
      Deques config now q ring q' (some (.inl i, dequeMarking config now pkt)) ring
  | dwrr {middle : Fin 64 → Slot} {choice : Choice} {tail : List (Fin 64)}
      (idle : ∀ i, (q.prioQueues i).packets = [])
      (passes : ReflTransGen Passes (slots q.dwrr, ring) (middle, choice.queue :: tail))
      (front : (middle choice.queue).packets = choice.pkt :: choice.rest)
      (affordable : choice.pkt.size ≤ (middle choice.queue).credit)
      (after : slots q'.dwrr = Function.update middle choice.queue
        ((middle choice.queue).visit.sent choice.pkt.size choice.rest))
      (lists : Lists q'.dwrr (if choice.rest = [] then tail else choice.queue :: tail))
      (prio : q'.prioQueues = q.prioQueues) :
      Deques config now q ring q'
        (some (.inr choice.queue, dequeMarking config now choice.pkt))
        (if choice.rest = [] then tail else choice.queue :: tail)
  | idle (empty : totalByteLength q = 0) (dwrr : SameSchedule q.dwrr q'.dwrr)
      (prio : q'.prioQueues = q.prioQueues) : Deques config now q ring q' none ring

section

variable {pow : ℚ → ℚ → ℚ} {config : Config} {now : ℚ} {q q' : PrioDwrrQueue}
  {ring ring' : List (Fin 64)} {p : Packet}

private theorem enqueMarking_markedFrom {index : Nat} {marked : Packet}
    (marks : enqueMarking config now index p q = some marked) : MarkedFrom p marked := by
  unfold enqueMarking at marks
  split at marks
  · rcases Option.map_eq_some_iff.mp marks with ⟨mark, _, rfl⟩
    split <;> exact ⟨rfl, rfl⟩
  · cases marks
    split <;> exact ⟨rfl, rfl⟩

theorem dequeMarking_markedFrom (config : Config) (now : ℚ) (pkt : Packet) :
    MarkedFrom pkt (dequeMarking config now pkt) := by
  unfold dequeMarking
  split
  · exact latencyMark_markedFrom _ _ _
  · exact ⟨rfl, rfl⟩

/-- Every packet has a queue. -/
theorem exists_queueOf (config : Config) (p : Packet) :
    ∃ queue, queueOf config (queueIndex config p) = some queue := by
  have inside : queueIndex config p < config.dwrrQueueNum + config.prioQueueNum := by
    have prio := config.prioQueueNum_range.1
    unfold queueIndex Config.queueNum
    split <;> omega
  unfold queueOf
  split
  · exact ⟨_, rfl⟩
  · rw [dif_pos (by omega)]
    exact ⟨_, rfl⟩

/-- The marker does not exit for a queue in range. -/
theorem enqueMarking_returns {index : Nat} {queue : Fin 8 ⊕ Fin 64}
    (target : queueOf config index = some queue) (now : ℚ) (p : Packet) (q : PrioDwrrQueue) :
    ∃ marked, enqueMarking config now index p q = some marked := by
  unfold enqueMarking markingEcn
  split
  · simp only [target, Option.map_some]
    exact ⟨_, rfl⟩
  · exact ⟨_, rfl⟩

theorem sameSchedule_settle (pow : ℚ → ℚ → ℚ) (config : Config) (now : ℚ) (q : PrioDwrrQueue) :
    SameSchedule q.dwrr (settle pow config now q).dwrr := by
  unfold settle
  generalize decide (totalDwrrByteLength q = 0) = idle
  exact (sameSchedule_startTimer config.toTuning q.dwrr).trans
    (sameSchedule_decayIdle pow config.toTuning now idle _)

theorem sameSchedule_finishIdle (config : Config) (now : ℚ) (q : PrioDwrrQueue) :
    SameSchedule q.dwrr (finishIdle config now q).dwrr := by
  unfold finishIdle
  generalize decide (totalDwrrByteLength q = 0) = idle
  exact sameSchedule_finish config.toTuning now idle q.dwrr

private theorem settle_prioQueues (pow : ℚ → ℚ → ℚ) (config : Config) (now : ℚ)
    (q : PrioDwrrQueue) :
    (settle pow config now q).prioQueues = q.prioQueues := by
  unfold settle
  generalize decide (totalDwrrByteLength q = 0) = idle
  rfl

theorem finishIdle_prioQueues (config : Config) (now : ℚ) (q : PrioDwrrQueue) :
    (finishIdle config now q).prioQueues = q.prioQueues := by
  unfold finishIdle
  generalize decide (totalDwrrByteLength q = 0) = idle
  rfl

namespace Valid

private theorem active_iff (valid : Valid config q ring) (k : Fin 64) :
    (slots q.dwrr k).active = true ↔ k ∈ ring :=
  (valid.ordered.active_iff k).trans (valid.ordered.mem_iff k).symm

theorem busy (valid : Valid config q ring) : ∀ k ∈ ring, (slots q.dwrr k).packets ≠ [] :=
  fun k => (valid.ordered.mem_iff k).mp

theorem totalDwrrByteLength_eq_zero_iff (valid : Valid config q ring) :
    totalDwrrByteLength q = 0 ↔ ring = [] := by
  rw [PrioDwrr.totalDwrrByteLength_eq_zero_iff, List.eq_nil_iff_forall_not_mem]
  constructor
  · intro idle i member
    exact valid.busy i member (idle i)
  · intro unlisted i
    by_contra busy
    exact unlisted i ((valid.ordered.mem_iff i).mpr busy)

/-- An enque comes to its end. -/
theorem enque_returns (valid : Valid config q ring) (pow : ℚ → ℚ → ℚ) (now : ℚ) (p : Packet) :
    ∃ q' taken ring', enque pow config now p q = some (q', taken) ∧
      Enques config p q ring q' taken ring' := by
  have same := sameSchedule_settle pow config now q
  have prio := settle_prioQueues pow config now q
  unfold enque
  simp only
  generalize settle pow config now q = settled at same prio ⊢
  split
  · exact ⟨settled, false, ring, rfl, .drop same prio⟩
  · obtain ⟨queue, target⟩ := exists_queueOf config p
    unfold admission
    simp only [target]
    cases queue with
    | inl i =>
        obtain ⟨marked, marks⟩ := enqueMarking_returns target now p (pushPrio i p settled)
        refine ⟨pushPrio i marked settled, true, ring, ?_,
          .prio target (enqueMarking_markedFrom marks) same ?_⟩
        · simp only [marks, Option.map_some]
        · show Function.update settled.prioQueues i _ = _
          rw [prio]
    | inr i =>
        have active_iff := valid.active_iff
        rw [← same.slots] at active_iff
        obtain ⟨activated, ring', activates, admits⟩ :=
          admit_of_lists now i (same.lists valid.lists) active_iff
        obtain ⟨marked, marks⟩ := enqueMarking_returns target now p
          (pushDwrr i p { settled with dwrr := activated })
        rcases admits marked with ⟨joins, lists, _⟩
        rw [same.slots] at joins
        refine ⟨pushDwrr i marked { settled with dwrr := activated }, true, ring', ?_,
          .dwrr target (enqueMarking_markedFrom marks) joins lists prio⟩
        simp only [activates, Option.bind_some, marks, Option.map_some]

theorem enque_cases {taken : Bool} (valid : Valid config q ring)
    (returns : enque pow config now p q = some (q', taken)) :
    ∃ ring', Enques config p q ring q' taken ring' := by
  obtain ⟨last, code, ring', same, enques⟩ := valid.enque_returns pow now p
  rw [returns] at same
  cases same
  exact ⟨ring', enques⟩

/-- While the priority queues hold bytes, the scan finds a packet. -/
theorem exists_firstPrio (valid : Valid config q ring) (busy : 0 < totalPrioByteLength q) :
    ∃ taken, firstPrio config q = some taken := by
  cases found : firstPrio config q with
  | some taken => exact ⟨taken, rfl⟩
  | none =>
      have empty : totalPrioByteLength q = 0 := by
        rw [totalPrioByteLength_eq_zero_iff]
        intro i
        rcases Nat.lt_or_ge (i : Nat) config.prioQueueNum with used | unused
        · exact firstPrio_eq_none found used
        · exact valid.inside i unused
      omega

/-- What a deque answers once the loop has selected a packet. -/
theorem dwrr_of_selects {middle : Fin 64 → Slot} {choice : Choice} {tail : List (Fin 64)}
    {visited : DwrrQueue} (now : ℚ) (idle : ∀ i, (q.prioQueues i).packets = [])
    (selects : Selects q.dwrr ring visited choice middle tail) :
    ∃ dwrr, retire config.toTuning now choice
        (measure config.toTuning now choice (pop choice visited)) = some dwrr ∧
      Deques config now q ring (finishIdle config now { q with dwrr })
        (some (.inr choice.queue, dequeMarking config now choice.pkt))
        (if choice.rest = [] then tail else choice.queue :: tail) := by
  obtain ⟨dwrr, retires, after, lists, _⟩ := retire_of_selected config.toTuning now selects.lists
  rw [selects.after, Function.update_self, Function.update_idem] at after
  have same := sameSchedule_finishIdle config now { q with dwrr }
  exact ⟨dwrr, retires, .dwrr idle selects.passes selects.front selects.affordable
    (same.slots.trans after) (same.lists lists) (finishIdle_prioQueues config now { q with dwrr })⟩

theorem deque_cases {fuel : Nat} {pkt : Option ((Fin 8 ⊕ Fin 64) × Packet)}
    (valid : Valid config q ring) (returns : deque config now fuel q = some (q', pkt)) :
    ∃ ring', Deques config now q ring q' pkt ring' := by
  unfold deque at returns
  split at returns
  next busy =>
    obtain ⟨⟨i, head, rest⟩, found⟩ := valid.exists_firstPrio busy
    unfold dequePrio at returns
    rw [found] at returns
    cases returns
    exact ⟨ring, .prio found rfl⟩
  next quiet =>
    have idle := totalPrioByteLength_eq_zero_iff.mp (Nat.eq_zero_of_not_pos quiet)
    split at returns
    next busy =>
      rcases Option.map_eq_some_iff.mp returns with ⟨answer, body, finishes⟩
      unfold dequeDwrr at body
      rcases Option.bind_eq_some_iff.mp body with ⟨⟨visited, choice⟩, found, rest⟩
      have nonempty : ring ≠ [] := mt valid.totalDwrrByteLength_eq_zero_iff.mpr (by omega)
      rcases select_cases valid.lists nonempty valid.busy found with ⟨middle, tail, selects⟩
      obtain ⟨dwrr, retires, deques⟩ := @dwrr_of_selects config _ _ _ _ _ _ now idle selects
      simp only [retires, Option.map_some, Option.some.injEq] at rest
      cases rest
      cases finishes
      exact ⟨_, deques⟩
    next empty =>
      cases returns
      refine ⟨ring, .idle ?_ (sameSchedule_finishIdle config now q)
        (finishIdle_prioQueues config now q)⟩
      unfold totalByteLength
      omega

/-- A deque comes to its end, and the same one for all sufficient fuel. -/
theorem deque_returns (valid : Valid config q ring) (now : ℚ) :
    ∃ fuel₀ q' pkt, (∀ fuel ≥ fuel₀, deque config now fuel q = some (q', pkt)) ∧
      (pkt.isSome = true ↔ 0 < totalByteLength q) := by
  by_cases prioBusy : 0 < totalPrioByteLength q
  · obtain ⟨⟨i, head, rest⟩, found⟩ := valid.exists_firstPrio prioBusy
    refine ⟨0, servePrio config now i head rest q, some (.inl i, dequeMarking config now head),
      fun fuel _ => ?_, ?_⟩
    · unfold deque dequePrio
      rw [if_pos prioBusy, found]
    · unfold totalByteLength
      simp only [Option.isSome_some, true_iff]
      omega
  by_cases dwrrBusy : 0 < totalDwrrByteLength q
  · have idle := totalPrioByteLength_eq_zero_iff.mp (Nat.eq_zero_of_not_pos prioBusy)
    have nonempty : ring ≠ [] := mt valid.totalDwrrByteLength_eq_zero_iff.mpr (by omega)
    obtain ⟨visited, choice, found⟩ := select_returns config.toTuning now valid.lists nonempty
      valid.busy valid.ordered.quantum (Nat.lt_succ_self _)
    rcases select_cases valid.lists nonempty valid.busy found with ⟨middle, tail, selects⟩
    obtain ⟨dwrr, retires, _⟩ := @dwrr_of_selects config _ _ _ _ _ _ now idle selects
    refine ⟨∑ k, (slots q.dwrr k).shortfall + 1, finishIdle config now { q with dwrr },
      some (.inr choice.queue, dequeMarking config now choice.pkt), fun fuel enough => ?_, ?_⟩
    · unfold deque dequeDwrr
      rw [if_neg prioBusy, if_pos dwrrBusy, select_mono found enough, Option.bind_some]
      simp only
      rw [retires, Option.map_some, Option.map_some]
    · unfold totalByteLength
      simp only [Option.isSome_some, true_iff]
      omega
  · refine ⟨0, finishIdle config now q, none, fun fuel _ => ?_, ?_⟩
    · unfold deque
      rw [if_neg prioBusy, if_neg dwrrBusy]
    · unfold totalByteLength
      simp only [Option.isSome_none, Bool.false_eq_true, false_iff]
      omega

theorem enque {taken : Bool} (valid : Valid config q ring)
    (enques : Enques config p q ring q' taken ring') (inside : PrioInside config q') :
    Valid config q' ring' := by
  cases enques with
  | drop dwrr prio | prio target marker dwrr prio =>
      refine ⟨dwrr.lists valid.lists, ?_, inside⟩
      rw [dwrr.slots]
      exact valid.ordered
  | dwrr target marker joins lists prio => exact ⟨lists, valid.ordered.joins joins, inside⟩

theorem deque {pkt : Option ((Fin 8 ⊕ Fin 64) × Packet)} (valid : Valid config q ring)
    (deques : Deques config now q ring q' pkt ring') (inside : PrioInside config q') :
    Valid config q' ring' := by
  cases deques with
  | prio found after =>
      subst after
      exact ⟨valid.lists, valid.ordered, inside⟩
  | @dwrr middle choice tail idle passes front affordable after lists prio =>
      refine ⟨lists, ?_, inside⟩
      rw [after]
      exact (valid.ordered.passes passes).send choice.rest affordable
  | idle empty dwrr prio =>
      refine ⟨dwrr.lists valid.lists, ?_, inside⟩
      rw [dwrr.slots]
      exact valid.ordered

end Valid

/-- A command changes at most a quantum in the schedule. -/
theorem command_effect {request : Command} (returns : command config q request = some q') :
    links q'.dwrr = links q.dwrr ∧ (∀ i, (q'.prioQueues i).packets = (q.prioQueues i).packets) ∧
      ∃ i quantum, (0 < (slots q.dwrr i).quantum → 0 < quantum) ∧
        slots q'.dwrr = Function.update (slots q.dwrr) i { slots q.dwrr i with quantum } := by
  cases request with
  | setQuantum queueId quantum =>
      simp only [command, setQuantum, Option.dite_none_right_eq_some,
        Option.ite_none_right_eq_some, Option.some.injEq] at returns
      rcases returns with ⟨inside, positive, rfl⟩
      obtain ⟨i, here⟩ : ∃ i : Fin 64, i =
          ⟨(queueId - config.prioQueueNum).toNat, config.dwrr_lt inside.2⟩ := ⟨_, rfl⟩
      rw [← here]
      have queues : DwrrQueue.queues
          { q.dwrr with
            queues := Function.update q.dwrr.queues i { q.dwrr.queues i with quantum } } =
          Function.update q.dwrr.queues i _ := rfl
      exact ⟨links_update queues rfl rfl, fun k => rfl, i, quantum, fun _ => positive,
        slots_update queues⟩
  | setThresh queueId thresh =>
      simp only [command, setThresh, Option.ite_none_right_eq_some,
        Option.map_eq_some_iff] at returns
      rcases returns with ⟨_, queue, _, rfl⟩
      cases queue with
      | inl i =>
          refine ⟨rfl, fun k => ?_, 0, (slots q.dwrr 0).quantum, id, ?_⟩
          · show (Function.update q.prioQueues i _ k).packets = _
            by_cases same : k = i
            · subst same
              rw [Function.update_self]
            · rw [Function.update_of_ne same]
          · exact (Function.update_eq_self 0 (slots q.dwrr)).symm
      | inr i =>
          have queues : DwrrQueue.queues
              { q.dwrr with
                queues := Function.update q.dwrr.queues i { q.dwrr.queues i with thresh } } =
              Function.update q.dwrr.queues i _ := rfl
          have after := slots_update queues
          exact ⟨links_update queues rfl rfl, fun k => rfl, i, (slots q.dwrr i).quantum, id, after⟩

theorem Valid.command {request : Command} (valid : Valid config q ring)
    (returns : PrioDwrr.command config q request = some q') : Valid config q' ring := by
  obtain ⟨sameLinks, _, i, quantum, positive, after⟩ := command_effect returns
  refine ⟨valid.lists.of_links sameLinks, ?_, (command_cases returns).2.1 valid.inside⟩
  rw [after]
  exact valid.ordered.update_of_flags_eq rfl (valid.ordered.deficit i)
    (positive (valid.ordered.quantum i))

/-- It leaves every FIFO as it is. -/
theorem packets_of_command {request : Command} (returns : command config q request = some q') :
    packets q' = packets q := by
  obtain ⟨_, prio, i, quantum, _, after⟩ := command_effect returns
  funext queue
  cases queue with
  | inl k => exact prio k
  | inr k =>
      show (slots q'.dwrr k).packets = (slots q.dwrr k).packets
      rw [after]
      by_cases own : k = i
      · subst own
        rw [Function.update_self]
      · rw [Function.update_of_ne own]

end

/-! ### Reachable states -/

section

variable {pow : ℚ → ℚ → ℚ} {s s' : Sys} {event : Event}

theorem valid_construct (config : Config) : Valid config construct [] :=
  ⟨.nil, (Dwrr.valid_construct Dwrr.defaultConfig).ordered, fun _ _ => rfl⟩

theorem valid_step (step : Step pow s event s') (valid : ∃ ring, Valid s.config s.q ring) :
    ∃ ring', Valid s'.config s'.q ring' := by
  rcases valid with ⟨ring, valid⟩
  have inside := PrioInside.step step valid.inside
  cases step with
  | enque later returns =>
      rcases valid.enque_cases returns with ⟨ring', enques⟩
      exact ⟨ring', valid.enque enques inside⟩
  | deque later returns =>
      rcases valid.deque_cases returns with ⟨ring', deques⟩
      exact ⟨ring', valid.deque deques inside⟩
  | command returns => exact ⟨ring, valid.command returns⟩
  | timeout later pending => exact ⟨ring, valid.lists, valid.ordered, inside⟩

theorem valid_of_reachable (reachable : Reachable pow s) : ∃ ring, Valid s.config s.q ring := by
  apply reachable.invariant (fun s => ∃ ring, Valid s.config s.q ring) _ valid_step
  intro start fresh
  rw [fresh]
  exact ⟨[], valid_construct start.config⟩

end

/-! ### Service -/

/-- What an enque does to the queues. -/
def Takes (config : Config) (p : Packet) (q q' : PrioDwrrQueue) (taken : Bool) : Prop :=
  StrictPriority.Takes (config.qlim * config.meanPktsize) (queueOf config (queueIndex config p)) p
    (packets q) (packets q') taken

/-- What a deque answers. -/
def Answers (config : Config) (now : ℚ) (q q' : PrioDwrrQueue)
    (answer : Option ((Fin 8 ⊕ Fin 64) × Packet)) : Prop :=
  StrictPriority.Answers (dequeMarking config now) (packets q) (packets q') answer

section

variable {pow : ℚ → ℚ → ℚ} {config : Config} {now : ℚ} {q q' : PrioDwrrQueue}
  {ring ring' : List (Fin 64)} {p : Packet}

theorem asks_firstPrio (q : PrioDwrrQueue) :
    StrictPriority.Asks (fun i => (q.prioQueues i).packets) fun i =>
      match (q.prioQueues i).packets with
      | [] => none
      | pkt :: rest => some (i, pkt, rest) := fun _ => rfl

theorem packets_of_prio {i : Fin 8} {cl : PacketPrio}
    (prio : q'.prioQueues = Function.update q.prioQueues i cl)
    (dwrr : slots q'.dwrr = slots q.dwrr) :
    packets q' = Function.update (packets q) (.inl i) cl.packets :=
  StrictPriority.elim_of_prio prio (congrArg (Slot.packets ∘ ·) dwrr)

private theorem packets_of_dwrr {i : Fin 64} {middle : Fin 64 → Slot} {slot : Slot}
    (prio : q'.prioQueues = q.prioQueues)
    (dwrr : slots q'.dwrr = Function.update middle i slot)
    (frame : ∀ k, (middle k).packets = (slots q.dwrr k).packets) :
    packets q' = Function.update (packets q) (.inr i) slot.packets := by
  apply StrictPriority.elim_of_lower prio
  calc Slot.packets ∘ slots q'.dwrr
      = Function.update (Slot.packets ∘ middle) i slot.packets := by rw [dwrr, Function.comp_update]
    _ = _ := by rw [show Slot.packets ∘ middle = Slot.packets ∘ slots q.dwrr from funext frame]; rfl

theorem packets_servePrio (config : Config) (now : ℚ) (i : Fin 8) (pkt : Packet)
    (rest : List Packet) (q : PrioDwrrQueue) :
    packets (servePrio config now i pkt rest q) = Function.update (packets q) (.inl i) rest := by
  have prio : (servePrio config now i pkt rest q).prioQueues =
      Function.update q.prioQueues i _ := rfl
  exact packets_of_prio prio rfl

theorem packets_of_same (prio : q'.prioQueues = q.prioQueues) (dwrr : SameSchedule q.dwrr q'.dwrr) :
    packets q' = packets q :=
  StrictPriority.elim_of_same prio (congrArg (Slot.packets ∘ ·) dwrr.slots)

private theorem Joins.packets_eq {i : Fin 64} {marked : Packet} {slots slots' : Fin 64 → Slot}
    (joins : Joins i marked slots ring slots' ring') :
    ∃ slot, slots' = Function.update slots i slot ∧
      slot.packets = (slots i).packets ++ [marked] := by
  cases joins with
  | activate | append => exact ⟨_, rfl, rfl⟩

theorem totalByteLength_eq_stored (q : PrioDwrrQueue) :
    totalByteLength q = StrictPriority.stored (packets q) :=
  (StrictPriority.stored_elim _ _).symm

theorem packets_of_settled (pow : ℚ → ℚ → ℚ) (config : Config) (now : ℚ) (q : PrioDwrrQueue) :
    packets (settle pow config now q) = packets q :=
  packets_of_same (settle_prioQueues pow config now q) (sameSchedule_settle pow config now q)

/-- A packet is dropped exactly when it does not fit. -/
theorem fits_of_enque {taken : Bool} (returns : enque pow config now p q = some (q', taken)) :
    taken = true ↔
      StrictPriority.stored (packets q) + p.size ≤ config.qlim * config.meanPktsize := by
  rw [← packets_of_settled pow config now q, ← totalByteLength_eq_stored]
  exact StrictPriority.fits_of_tested returns

private theorem Enques.takes {taken : Bool} (returns : enque pow config now p q = some (q', taken))
    (enques : Enques config p q ring q' taken ring') : Takes config p q q' taken := by
  have fits := fits_of_enque returns
  cases enques with
  | drop dwrr prio => exact ⟨fits, fun _ => packets_of_same prio dwrr, by simp⟩
  | prio target marker dwrr prio =>
      exact ⟨fits, by simp, fun _ => ⟨_, _, target, marker, packets_of_prio prio dwrr.slots⟩⟩
  | dwrr target marker joins lists prio =>
      obtain ⟨slot, after, stored⟩ := Joins.packets_eq joins
      refine ⟨fits, by simp, fun _ => ⟨_, _, target, marker, ?_⟩⟩
      rw [packets_of_dwrr prio after fun _ => rfl, stored]
      rfl

private theorem Deques.answers {answer : Option ((Fin 8 ⊕ Fin 64) × Packet)}
    (inside : PrioInside config q) (deques : Deques config now q ring q' answer ring') :
    Answers config now q q' answer := by
  cases deques with
  | prio found after =>
      subst after
      obtain ⟨front, earlier⟩ := (asks_firstPrio q).front_of_found inside found
      exact ⟨earlier, _, _, front, rfl, packets_servePrio config now _ _ _ q⟩
  | @dwrr middle choice tail idle passes front affordable after lists prio =>
      have frame := passes_frame_of_run passes
      refine ⟨idle, choice.pkt, choice.rest, ?_, rfl, ?_⟩
      · rw [← front, (frame choice.queue).1]
        rfl
      · rw [packets_of_dwrr prio after fun k => (frame k).1, Slot.visit_sent_packets]
  | idle empty dwrr prio =>
      rw [totalByteLength_eq_stored] at empty
      exact ⟨empty, packets_of_same prio dwrr⟩

/-- The bytes stored fit into the buffer. -/
def Fits (config : Config) (q : PrioDwrrQueue) : Prop :=
  StrictPriority.Fits (config.qlim * config.meanPktsize) (packets q)

end

section

variable {pow : ℚ → ℚ → ℚ} {s s' : Sys} {event : Event}

private theorem Fits.step (step : Step pow s event s') (valid : ∃ ring, Valid s.config s.q ring)
    (fits : Fits s.config s.q) : Fits s'.config s'.q := by
  rcases valid with ⟨ring, valid⟩
  cases step with
  | enque later returns =>
      rcases valid.enque_cases returns with ⟨ring', enques⟩
      exact StrictPriority.Fits.takes fits (enques.takes returns)
  | deque later returns =>
      rcases valid.deque_cases returns with ⟨ring', deques⟩
      exact StrictPriority.Fits.answers fits (deques.answers valid.inside)
  | @command request q' returns =>
      unfold Fits
      rw [packets_of_command returns]
      exact fits
  | timeout later pending => exact fits

private theorem fits_of_reachable (reachable : Reachable pow s) : Fits s.config s.q := by
  have both : (∃ ring, Valid s.config s.q ring) ∧ Fits s.config s.q := by
    apply reachable.invariant (fun s => (∃ ring, Valid s.config s.q ring) ∧ Fits s.config s.q) _
      fun step holds => ⟨valid_step step holds.1, holds.2.step step holds.1⟩
    intro start fresh
    rw [fresh]
    exact ⟨⟨[], valid_construct start.config⟩, le_max_left _ _⟩
  exact both.2

/-- **Strict priority and progress.** In every state reached the active list goes through the
DWRR queues that hold packets, each once, and the buffer is not exceeded. An enque comes to its
end: it drops the packet exactly when it does not fit, else it appends it to its queue. A deque
comes to its end: it returns nothing only where nothing is stored, else the head of the first
priority queue that holds a packet, and a packet of a DWRR queue only where no priority queue
holds one. -/
theorem strict_priority_and_progress (reachable : Reachable pow s) :
    (∃ ring, WellLinked s.q.dwrr ring) ∧
      (totalByteLength s.q : Int) ≤ max 0 (s.config.qlim * s.config.meanPktsize) ∧
      (∀ now p, ∃ q' taken, enque pow s.config now p s.q = some (q', taken) ∧
        Takes s.config p s.q q' taken) ∧
      ∀ now, ∃ fuel₀ q' answer,
        (∀ fuel ≥ fuel₀, deque s.config now fuel s.q = some (q', answer)) ∧
          Answers s.config now s.q q' answer := by
  rcases valid_of_reachable reachable with ⟨ring, valid⟩
  have linked : WellLinked s.q.dwrr ring :=
    ⟨valid.lists, valid.ordered.nodup,
      fun i => (valid.ordered.mem_iff i).trans List.length_pos_iff.symm,
      fun i => (valid.ordered.active_iff i).trans List.length_pos_iff.symm,
      valid.ordered.current, valid.ordered.deficit⟩
  have fits : (totalByteLength s.q : Int) ≤ max 0 (s.config.qlim * s.config.meanPktsize) := by
    rw [totalByteLength_eq_stored]
    exact fits_of_reachable reachable
  refine ⟨⟨ring, linked⟩, fits, fun now p => ?_, fun now => ?_⟩
  · obtain ⟨q', taken, ring', returns, enques⟩ := valid.enque_returns pow now p
    exact ⟨q', taken, returns, enques.takes returns⟩
  · obtain ⟨fuel₀, q', answer, returns, _⟩ := valid.deque_returns now
    rcases valid.deque_cases (returns fuel₀ le_rfl) with ⟨ring', deques⟩
    exact ⟨fuel₀, q', answer, returns, deques.answers valid.inside⟩

end

/-! ### A loaded discipline -/

def fresh : Sys := ⟨defaultConfig, construct, 0⟩

/-- A packet of the priority queue arrives behind packets of two DWRR queues and leaves first. -/
def overtaking : List Event :=
  [.enque 0 (segment 1 1500 fullSize_pos) true, .enque 0 (segment 2 1500 fullSize_pos) true,
    .enque 1 (segment 0 1500 fullSize_pos) true,
    .deque 1 (some (.inl highest, segment 0 1500 fullSize_pos)),
    .deque 2 (some (.inr 0, segment 1 1500 fullSize_pos))]

theorem overtaking_replays :
    (replay (Sys.next wholePow 8) (fun _ => True) fresh overtaking).isSome = true := by
  decide +kernel

/-- The state they lead to. -/
def overtaken : Sys :=
  (replay (Sys.next wholePow 8) (fun _ => True) fresh overtaking).get overtaking_replays

theorem priority_of_overtaken :
    (∃ ring, WellLinked overtaken.q.dwrr ring) ∧
      (totalByteLength overtaken.q : Int) ≤
        max 0 (overtaken.config.qlim * overtaken.config.meanPktsize) ∧
      (∀ now p, ∃ q' taken, enque wholePow overtaken.config now p overtaken.q = some (q', taken) ∧
        Takes overtaken.config p overtaken.q q' taken) ∧
      ∀ now, ∃ fuel₀ q' answer,
        (∀ fuel ≥ fuel₀, deque overtaken.config now fuel overtaken.q = some (q', answer)) ∧
          Answers overtaken.config now overtaken.q q' answer :=
  strict_priority_and_progress ⟨fresh, overtaking, rfl,
    (RunWithin.of_replay_isSome Sys.next_sound overtaking_replays).run⟩

end MqEcn.Ns2.PrioDwrr
