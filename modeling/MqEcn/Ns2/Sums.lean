import MqEcn.Library.Accounting
import MqEcn.Ns2.Dwrr.Invariant
import MqEcn.Ns2.Wfq.Step

/-!
Contract: the sums over the active queues that the NS2 disciplines keep.

Owns: `quantum_sum` of DWRR and `weight_sum` of WFQ as the sums they stand for, in every run
whose commands leave the share of a busy queue alone, the exact condition under which a
command does, and the drift of the sums where it does not.

Does not own: the estimates smoothed from the sums.
-/

set_option autoImplicit false

open Finset
open MqEcn.Library
open MqEcn.Library.Transition

namespace MqEcn.Ns2.Dwrr

open Relation (ReflTransGen)

/-- What a queue contributes to `quantum_sum`. -/
def Slot.share (slot : Slot) : Int := if slot.packets = [] then 0 else slot.quantum

/-- `quantum_sum` is the sum of the quanta of the queues that hold packets. -/
def QuantumSumExact (q : DwrrQueue) : Prop := q.quantumSum = ∑ i, (slots q i).share

/-- A command that changes the quantum of no queue that holds packets. -/
def KeepsShares (s : Sys) : Event Command → Prop
  | .command (.setQuantum queueId quantum) => ∀ i : Fin 64, (i : Int) = queueId →
      (s.q.queues i).packets = [] ∨ quantum = (s.q.queues i).quantum
  | _ => True

section

variable {q q' : DwrrQueue} {i : Fin 64} {slot : Slot}

/-- The sum after one slot has been replaced. -/
theorem sum_share_update (after : slots q' = Function.update (slots q) i slot) :
    ∑ k, (slots q' k).share = ∑ k, (slots q k).share + (slot.share - (slots q i).share) := by
  rw [after]
  exact Accounting.total_update_sub Slot.share (slots q) i slot

theorem quantumSumExact_of_same (same : SameSchedule q q') (exact : QuantumSumExact q) :
    QuantumSumExact q' := by
  unfold QuantumSumExact
  rw [same.slots, same.quantumSum]
  exact exact

private theorem quantumSumExact_enque {config : Config} {p : Packet} {ring ring' : List (Fin 64)}
    {taken : Bool} (valid : Valid config q ring) (exact : QuantumSumExact q)
    (enques : Enques config p q ring q' taken ring') : QuantumSumExact q' := by
  unfold QuantumSumExact at exact ⊢
  cases enques with
  | drop same => exact quantumSumExact_of_same same exact
  | activate marker inactive after lists quantumSum =>
      have empty : (slots q (classify config p)).packets = [] := by
        by_contra busy
        rw [(valid.ordered.active_iff _).mpr busy] at inactive
        cases inactive
      rw [quantumSum, sum_share_update after, exact]
      simp [Slot.share, empty]
  | append marker active after lists quantumSum =>
      have busy := (valid.ordered.active_iff _).mp active
      rw [quantumSum, sum_share_update after, exact]
      simp [Slot.share, busy]

private theorem quantumSumExact_deque {config : Config} {pkt : Option (Fin 64 × Packet)}
    {ring ring' : List (Fin 64)} (exact : QuantumSumExact q)
    (deques : Deques config q ring q' pkt ring') : QuantumSumExact q' := by
  unfold QuantumSumExact at exact ⊢
  cases deques with
  | idle empty same => exact quantumSumExact_of_same same exact
  | @send middle choice tail marked busy passes front affordable marker after lists quantumSum =>
      have frame := passes_frame_of_run passes
      have same : ∑ k, (middle k).share = ∑ k, (slots q k).share := by
        apply sum_congr rfl
        intro k _
        unfold Slot.share
        rw [(frame k).1, (frame k).2]
      have moved := Accounting.total_update_sub Slot.share middle choice.queue
        ((middle choice.queue).visit.sent choice.pkt.size choice.rest)
      rw [after, moved, quantumSum, same, exact, Slot.visit_eq]
      unfold Slot.sent
      by_cases last : choice.rest = []
      · simp [Slot.share, last, front, sub_eq_add_neg]
      · simp [Slot.share, last, front]

/-- A change of a quantum keeps the sum exact just if the queue is empty or the quantum is the
one it has. -/
theorem quantumSumExact_setQuantum_iff {config : Config} {queueId quantum : Int}
    (exact : QuantumSumExact q) (returns : setQuantum config queueId quantum q = some q') :
    QuantumSumExact q' ↔ ∀ i : Fin 64, (i : Int) = queueId →
      (q.queues i).packets = [] ∨ quantum = (q.queues i).quantum := by
  rcases setQuantum_cases returns with ⟨i, here, _, after, _, sum⟩
  have unique : ∀ k : Fin 64, (k : Int) = queueId ↔ k = i := by
    intro k
    rw [← here]
    omega
  simp only [unique, forall_eq]
  unfold QuantumSumExact at exact ⊢
  rw [sum, sum_share_update after, exact]
  show _ = _ + (Slot.share { slots q i with quantum } - (slots q i).share) ↔
    (slots q i).packets = [] ∨ quantum = (slots q i).quantum
  unfold Slot.share
  by_cases empty : (slots q i).packets = []
  · simp [empty]
  · simp only [empty, if_false, false_or]
    omega

theorem quantumSumExact_step {pow : ℚ → ℚ → ℚ} {s s' : Sys} {event : Event Command}
    (step : Step pow s event s') (keeps : KeepsShares s event)
    (valid : ∃ ring, Valid s.config s.q ring) (exact : QuantumSumExact s.q) :
    QuantumSumExact s'.q := by
  rcases valid with ⟨ring, valid⟩
  cases step with
  | enque later returns =>
      rcases valid.enque_cases returns with ⟨ring', enques⟩
      exact quantumSumExact_enque valid exact enques
  | deque later returns =>
      rcases valid.deque_cases returns with ⟨ring', deques⟩
      exact quantumSumExact_deque exact deques
  | @command request q' returns =>
      cases request with
      | setQuantum queueId quantum =>
          exact (quantumSumExact_setQuantum_iff exact returns).mpr keeps
      | setThresh queueId thresh =>
          rcases setThresh_cases returns with ⟨sameSlots, _, sum⟩
          unfold QuantumSumExact
          rw [sum, sameSlots]
          exact exact
  | timeout later pending => exact exact

/-- In terms of the active list. -/
theorem quantumSum_eq_ring {config : Config} {ring : List (Fin 64)} (valid : Valid config q ring)
    (exact : QuantumSumExact q) :
    q.quantumSum = (ring.map fun i => (q.queues i).quantum).sum := by
  have members : ring.toFinset = univ.filter fun i => (slots q i).packets ≠ [] := by
    ext i
    rw [List.mem_toFinset, valid.ordered.mem_iff]
    simp
  rw [← List.sum_toFinset _ valid.ordered.nodup, members, sum_filter]
  refine (show q.quantumSum = _ from exact).trans (sum_congr rfl fun i _ => ?_)
  unfold Slot.share
  rw [ite_not]
  rfl

end

/-- What the active list says about the sum in every state of such a run. -/
theorem quantumSum_of_run {pow : ℚ → ℚ → ℚ} {start s : Sys} {events : List (Event Command)}
    (fresh : Initial start)
    (run : Run (fun first event last => Step pow first event last ∧ KeepsShares first event)
      start events s) :
    ∃ ring, WellLinked s.q ring ∧
      s.q.quantumSum = (ring.map fun i => (s.q.queues i).quantum).sum ∧
      (totalByteLength s.config s.q = 0 → s.q.quantumSum = 0) := by
  have both := run.preserves
    (fun s => (∃ ring, Valid s.config s.q ring) ∧ QuantumSumExact s.q)
    (fun step before => ⟨valid_step step.1 before.1,
      quantumSumExact_step step.1 step.2 before.1 before.2⟩)
  obtain ⟨⟨ring, valid⟩, exact⟩ := both (by
    rw [fresh]
    refine ⟨⟨[], valid_construct start.config⟩, ?_⟩
    show (0 : Int) = ∑ _, 0
    rw [sum_const_zero])
  have sum := quantumSum_eq_ring valid exact
  refine ⟨ring, valid.wellLinked, sum, fun zero => ?_⟩
  rw [sum, valid.totalByteLength_eq_zero_iff.mp zero]
  rfl

end MqEcn.Ns2.Dwrr

namespace MqEcn.Ns2.Wfq

/-- What a queue contributes to `weight_sum`. -/
def PacketWfq.share (cl : PacketWfq) : ℚ := if cl.packets = [] then 0 else cl.weight

/-- `weight_sum` is the sum of the weights of the queues that hold packets. -/
def WeightSumExact (q : WfqQueue) : Prop := q.weightSum = ∑ i, (q.queues i).share

/-- A command that changes the weight of no queue that holds packets. -/
def KeepsShares (s : Sys) : Event Command → Prop
  | .command (.setWeight queueId weight) => ∀ i : Fin 64, (i : Int) = queueId →
      (s.q.queues i).packets = [] ∨ weight = (s.q.queues i).weight
  | _ => True

section

variable {q q' : WfqQueue} {i : Fin 64} {cl : PacketWfq}

theorem sum_share_update (queues : q'.queues = Function.update q.queues i cl) :
    ∑ k, (q'.queues k).share = ∑ k, (q.queues k).share + (cl.share - (q.queues i).share) := by
  rw [queues]
  exact Accounting.total_update_sub PacketWfq.share q.queues i cl

theorem weightSumExact_of_same (same : SameSchedule q q') (exact : WeightSumExact q) :
    WeightSumExact q' := by
  unfold WeightSumExact
  rw [same.queues, same.weightSum]
  exact exact

theorem weightSumExact_enque {config : Config} {p : Packet} {taken : Bool}
    (exact : WeightSumExact q) (enques : Enques config p q q' taken) : WeightSumExact q' := by
  unfold WeightSumExact at exact ⊢
  cases enques with
  | drop same => exact weightSumExact_of_same same exact
  | activate empty positive size stamp queues currTime weightSum =>
      rw [weightSum, sum_share_update queues, exact]
      simp [PacketWfq.share, empty]
  | append busy size queues currTime weightSum =>
      rw [weightSum, sum_share_update queues, exact]
      simp [PacketWfq.share, busy]

theorem weightSumExact_deque {config : Config} {now : ℚ} {pkt : Option (Fin 64 × Packet)}
    (exact : WeightSumExact q) (deques : Deques config now q q' pkt) : WeightSumExact q' := by
  unfold WeightSumExact at exact ⊢
  cases deques with
  | idle empty same => exact weightSumExact_of_same same exact
  | advance found front positive stamp queues currTime weightSum =>
      rw [weightSum, sum_share_update queues, exact]
      simp [PacketWfq.share, front]
  | retire found front queues currTime weightSum =>
      rw [weightSum, sum_share_update queues, exact]
      simp [PacketWfq.share, front, sub_eq_add_neg]

/-- A change of a weight keeps the sum exact just if the queue is empty or the weight is the
one it has. -/
theorem weightSumExact_setWeight_iff {config : Config} {queueId : Int} {weight : ℚ}
    (exact : WeightSumExact q) (returns : setWeight config queueId weight q = some q') :
    WeightSumExact q' ↔ ∀ i : Fin 64, (i : Int) = queueId →
      (q.queues i).packets = [] ∨ weight = (q.queues i).weight := by
  obtain ⟨i, here, _, positive, rfl⟩ := setWeight_cases returns
  have unique : ∀ k : Fin 64, (k : Int) = queueId ↔ k = i := by
    intro k
    rw [← here, Fin.ext_iff]
    omega
  simp only [unique, forall_eq]
  unfold WeightSumExact at exact ⊢
  have queues : WfqQueue.queues
      { q with queues := Function.update q.queues i { q.queues i with weight } } =
      Function.update q.queues i _ := rfl
  rw [sum_share_update queues, exact]
  unfold PacketWfq.share
  by_cases empty : (q.queues i).packets = []
  · simp [empty]
  · simp only [empty, if_false, false_or]
    constructor
    · intro same
      linarith
    · rintro rfl
      rw [sub_self, add_zero]

theorem weightSumExact_step {pow : ℚ → ℚ → ℚ} {s s' : Sys} {event : Event Command}
    (step : Step pow s event s') (keeps : KeepsShares s event) (exact : WeightSumExact s.q) :
    WeightSumExact s'.q := by
  cases step with
  | enque later returns => exact weightSumExact_enque exact (enque_cases returns)
  | deque later returns => exact weightSumExact_deque exact (deque_cases returns)
  | @command request q' returns =>
      cases request with
      | setWeight queueId weight => exact (weightSumExact_setWeight_iff exact returns).mpr keeps
      | setThresh queueId thresh =>
          obtain ⟨i, _, rfl⟩ := setThresh_cases returns
          have queues : WfqQueue.queues
              { s.q with queues := Function.update s.q.queues i { s.q.queues i with thresh } } =
              Function.update s.q.queues i _ := rfl
          have sum := sum_share_update queues
          unfold WeightSumExact at exact ⊢
          rw [sum]
          refine exact.trans (left_eq_add.mpr ?_)
          exact sub_self (PacketWfq.share _)
  | timeout later pending => exact exact

end

/-- A port without bytes has empty queues. -/
theorem weightSum_eq_zero {config : Config} {q : WfqQueue} (sound : Sound config q)
    (exact : WeightSumExact q) (zero : totalByteLength config q = 0) : q.weightSum = 0 := by
  unfold WeightSumExact at exact
  rw [exact]
  apply sum_eq_zero
  intro i _
  unfold PacketWfq.share
  rw [if_pos]
  by_cases inside : (i : Nat) < config.queueNum
  · unfold totalByteLength at zero
    rw [List.sum_eq_zero_iff_forall_eq_nat] at zero
    exact byteLength_eq_zero_iff.mp (zero _ (List.mem_map_of_mem (mem_indices.mpr inside)))
  · exact sound.outside i (not_lt.mp inside)

private theorem weightSum_of_run {pow : ℚ → ℚ → ℚ} {start s : Sys} {events : List (Event Command)}
    (fresh : Initial start)
    (run : Run (fun first event last => Step pow first event last ∧ KeepsShares first event)
      start events s) :
    s.q.weightSum = ∑ i with (s.q.queues i).packets ≠ [], (s.q.queues i).weight ∧
      (totalByteLength s.config s.q = 0 → s.q.weightSum = 0) := by
  have both := run.preserves (fun s => Sound s.config s.q ∧ WeightSumExact s.q)
    (fun step before =>
      ⟨before.1.step step.1, weightSumExact_step step.1 step.2 before.2⟩)
  obtain ⟨sound, exact⟩ := both (by
    rw [fresh]
    refine ⟨sound_construct start.config, ?_⟩
    show (0 : ℚ) = ∑ _, 0
    rw [sum_const_zero])
  refine ⟨?_, weightSum_eq_zero sound exact⟩
  rw [sum_filter]
  refine (show s.q.weightSum = _ from exact).trans (sum_congr rfl fun i _ => ?_)
  unfold PacketWfq.share
  rw [ite_not]

end MqEcn.Ns2.Wfq

namespace MqEcn.Ns2

/-- **Sums.** In every run whose `set-quantum` and `set-weight` commands find their queue
empty or do not change its value, `quantum_sum` of DWRR is the sum of the quanta over the
active list and `weight_sum` of WFQ the sum of the weights of the queues that hold packets;
both are `0` when the port is empty. -/
theorem sums_of_run (pow : ℚ → ℚ → ℚ) :
    (∀ start s events, Dwrr.Initial start →
      Run (fun first event last => Dwrr.Step pow first event last ∧ Dwrr.KeepsShares first event)
        start events s →
      ∃ ring, Dwrr.WellLinked s.q ring ∧
        s.q.quantumSum = (ring.map fun i => (s.q.queues i).quantum).sum ∧
        (Dwrr.totalByteLength s.config s.q = 0 → s.q.quantumSum = 0)) ∧
    ∀ start s events, Wfq.Initial start →
      Run (fun first event last => Wfq.Step pow first event last ∧ Wfq.KeepsShares first event)
        start events s →
      s.q.weightSum = ∑ i with (s.q.queues i).packets ≠ [], (s.q.queues i).weight ∧
        (Wfq.totalByteLength s.config s.q = 0 → s.q.weightSum = 0) :=
  ⟨fun _ _ _ fresh run => Dwrr.quantumSum_of_run fresh run,
    fun _ _ _ fresh run => Wfq.weightSum_of_run fresh run⟩

/-! ### Commands to a busy queue -/

/-- A packet of queue 0 in both disciplines. -/
def packet : Packet := ⟨0, 1500, false, false, 0, fullSize_pos⟩

/-- The quantum of queue 0 is doubled while it holds a packet. -/
def requantum : List (Event Dwrr.Command) :=
  [.enque 0 packet true, .command (.setQuantum 0 3000), .deque 1 (some (0, packet))]

private theorem requantum_replays :
    (replay (Dwrr.Sys.next wholePow 8) (fun _ => True) Dwrr.fresh
      requantum).isSome = true := by
  decide +kernel

/-- The weight of queue 0 is lowered while it holds a packet. -/
def reweight : List (Event Wfq.Command) :=
  [.enque 0 packet true, .command (.setWeight 0 1), .deque 1 (some (0, packet))]

private theorem reweight_replays :
    (replay (Wfq.Sys.next wholePow) (fun _ => True) ⟨Wfq.defaultConfig, Wfq.construct, 0⟩
      reweight).isSome = true := by
  decide +kernel

/-- Both sums stay wrong on an empty port. -/
theorem sums_drift :
    (∃ s, Run (Dwrr.Step wholePow) Dwrr.fresh requantum s ∧
      Dwrr.totalByteLength s.config s.q = 0 ∧ s.q.quantumSum = -1500) ∧
    ∃ s, Run (Wfq.Step wholePow) ⟨Wfq.defaultConfig, Wfq.construct, 0⟩ reweight s ∧
      Wfq.totalByteLength s.config s.q = 0 ∧ s.q.weightSum = 9999 :=
  ⟨⟨_, (RunWithin.of_replay_isSome Dwrr.Sys.next_sound requantum_replays).run,
      by decide +kernel, by decide +kernel⟩,
    ⟨_, (RunWithin.of_replay_isSome Wfq.Sys.next_sound reweight_replays).run,
      by decide +kernel, by decide +kernel⟩⟩

/-! ### Commands to an empty queue -/

private theorem requotes :
    (Dwrr.fresh.next wholePow 8 (.command (.setQuantum 0 3000))).isSome = true := by
  decide

def requoted : Dwrr.Sys :=
  (Dwrr.fresh.next wholePow 8 (.command (.setQuantum 0 3000))).get requotes

private theorem refills : (requoted.next wholePow 8 (.enque 0 packet true)).isSome = true := by
  decide

/-- DWRR with a packet in a queue whose quantum was set before. -/
def refilled : Dwrr.Sys := (requoted.next wholePow 8 (.enque 0 packet true)).get refills

private theorem reweighs : (Wfq.Sys.next wholePow ⟨Wfq.defaultConfig, Wfq.construct, 0⟩
    (.command (.setWeight 0 1))).isSome = true := by
  decide

def reweighed : Wfq.Sys := (Wfq.Sys.next wholePow ⟨Wfq.defaultConfig, Wfq.construct, 0⟩
  (.command (.setWeight 0 1))).get reweighs

private theorem restocks : (reweighed.next wholePow (.enque 0 packet true)).isSome = true := by
  decide

/-- WFQ with a packet in a queue whose weight was set before. -/
def restocked : Wfq.Sys := (reweighed.next wholePow (.enque 0 packet true)).get restocks

theorem sums_of_settings :
    (∃ ring, Dwrr.WellLinked refilled.q ring ∧
      refilled.q.quantumSum = (ring.map fun i => (refilled.q.queues i).quantum).sum) ∧
    restocked.q.weightSum =
      ∑ i with (restocked.q.queues i).packets ≠ [], (restocked.q.queues i).weight := by
  have quantum : Dwrr.Step wholePow Dwrr.fresh (.command (.setQuantum 0 3000)) requoted :=
    Dwrr.Sys.next_sound (Option.some_get requotes).symm
  have refill : Dwrr.Step wholePow requoted (.enque 0 packet true) refilled :=
    Dwrr.Sys.next_sound (Option.some_get refills).symm
  have weight : Wfq.Step wholePow ⟨Wfq.defaultConfig, Wfq.construct, 0⟩
      (.command (.setWeight 0 1)) reweighed :=
    Wfq.Sys.next_sound (Option.some_get reweighs).symm
  have restock : Wfq.Step wholePow reweighed (.enque 0 packet true) restocked :=
    Wfq.Sys.next_sound (Option.some_get restocks).symm
  have sums := sums_of_run wholePow
  constructor
  · obtain ⟨ring, linked, sum, _⟩ := sums.1 Dwrr.fresh refilled _ rfl
      (.cons ⟨quantum, fun _ _ => Or.inl rfl⟩ (.single ⟨refill, trivial⟩))
    exact ⟨ring, linked, sum⟩
  · exact (sums.2 ⟨Wfq.defaultConfig, Wfq.construct, 0⟩ restocked _ rfl
      (.cons ⟨weight, fun _ _ => Or.inl rfl⟩ (.single ⟨restock, trivial⟩))).1

end MqEcn.Ns2
