import Mathlib.Algebra.Order.BigOperators.Group.Finset
import Mathlib.Data.Fintype.Card
import Mathlib.Logic.Relation
import Mathlib.Tactic.Linarith
import MqEcn.Ns2.Dwrr.Model

/-!
Contract: what each operation of the NS2 DWRR discipline can do, said once.

Owns: the part of a queue the schedule depends on, the effect of every operation on it, on
the chain of the active list and on `quantum_sum`, and the step relation as a function of
the event.

Does not own: the invariants derived from these facts.
-/

set_option autoImplicit false

namespace MqEcn.Ns2.Dwrr

open Finset
open MqEcn.Library.LinkedList

/-! ### Slots -/

/-- What the schedule depends on in a queue. -/
structure Slot where
  quantum : Int
  deficitCounter : Int
  active : Bool
  current : Bool
  packets : List Packet

def PacketDwrr.slot (cl : PacketDwrr) : Slot :=
  ⟨cl.quantum, cl.deficitCounter, cl.active, cl.current, cl.packets⟩

def slots (q : DwrrQueue) : Fin 64 → Slot := fun i => (q.queues i).slot

/-- The active list goes through `ring`. -/
def Lists (q : DwrrQueue) (ring : List (Fin 64)) : Prop :=
  Chain (links q).next (links q).first ring

/-- What estimation and timers leave as it is. -/
structure SameSchedule (q q' : DwrrQueue) : Prop where
  queues : q'.queues = q.queues
  activeList : q'.activeList = q.activeList
  quantumSum : q'.quantumSum = q.quantumSum

namespace SameSchedule

variable {q q' q'' : DwrrQueue}

theorem trans (first : SameSchedule q q') (second : SameSchedule q' q'') : SameSchedule q q'' :=
  ⟨second.queues.trans first.queues, second.activeList.trans first.activeList,
    second.quantumSum.trans first.quantumSum⟩

theorem slots (same : SameSchedule q q') : slots q' = Dwrr.slots q := by
  unfold Dwrr.slots
  rw [same.queues]

theorem lists (same : SameSchedule q q') {ring : List (Fin 64)} (lists : Lists q ring) :
    Lists q' ring := by
  unfold Lists links at lists ⊢
  rw [same.queues, same.activeList]
  exact lists

end SameSchedule

theorem sameSchedule_startTimer (tuning : Tuning) (q : DwrrQueue) :
    SameSchedule q (startTimer tuning q) := by
  unfold startTimer
  split
  · exact ⟨rfl, rfl, rfl⟩
  · exact ⟨rfl, rfl, rfl⟩

theorem sameSchedule_decayIdle (pow : ℚ → ℚ → ℚ) (tuning : Tuning) (now : ℚ) (idle : Bool)
    (q : DwrrQueue) : SameSchedule q (decayIdle pow tuning now idle q) := by
  unfold decayIdle
  simp only
  split
  · exact ⟨rfl, rfl, rfl⟩
  · split
    · exact ⟨rfl, rfl, rfl⟩
    · exact ⟨rfl, rfl, rfl⟩

/-- What the round time of an idle port and its start are read from. -/
theorem startTimer_roundTime (tuning : Tuning) (q : DwrrQueue) :
    (startTimer tuning q).roundTime = q.roundTime ∧
      (startTimer tuning q).lastIdleTime = q.lastIdleTime := by
  unfold startTimer
  split
  · exact ⟨rfl, rfl⟩
  · exact ⟨rfl, rfl⟩

/-- The round time of an idle port decays by whole idle slots. -/
theorem decayIdle_of_rounds (pow : ℚ → ℚ → ℚ) {tuning : Tuning}
    (scheme : tuning.markingScheme = mqMarkingRr)
    (positive : 0 < tuning.estimateRoundIdleIntervalBytes ∧ 0 < tuning.linkCapacity) (now : ℚ)
    (q : DwrrQueue) :
    decayIdle pow tuning now true q =
      { q with
        roundTime :=
          q.roundTime * pow tuning.estimateQuantumAlpha
            (truncate ((now - q.lastIdleTime) /
              (tuning.estimateRoundIdleIntervalBytes * 8 / tuning.linkCapacity)))
        lastUpdateTime := now } := by
  have gener : ¬tuning.markingScheme = mqMarkingGener := by
    rw [scheme]
    decide
  unfold decayIdle
  simp only
  rw [if_neg fun both => gener both.2.1, if_pos ⟨trivial, scheme⟩, if_pos positive]

/-- The estimate of the quanta of an idle port decays by the idle time in slots. -/
theorem decayIdle_of_quanta (pow : ℚ → ℚ → ℚ) {tuning : Tuning}
    (scheme : tuning.markingScheme = mqMarkingGener)
    (timer : tuning.estimateQuantumEnableTimer = false)
    (positive : 0 < tuning.estimateQuantumIntervalBytes ∧ 0 < tuning.linkCapacity) (now : ℚ)
    (q : DwrrQueue) :
    decayIdle pow tuning now true q =
      { q with
        quantumSumEstimate :=
          q.quantumSumEstimate * pow tuning.estimateQuantumAlpha
            ((now - q.lastIdleTime) /
              (tuning.estimateQuantumIntervalBytes * 8 / tuning.linkCapacity))
        lastUpdateTime := now } := by
  have stopped : ¬tuning.estimateQuantumEnableTimer = true := by
    rw [timer]
    exact Bool.false_ne_true
  unfold decayIdle
  simp only
  rw [if_pos ⟨trivial, scheme, stopped⟩, if_pos positive]

theorem sameSchedule_finish (tuning : Tuning) (now : ℚ) (idle : Bool) (q : DwrrQueue) :
    SameSchedule q (finish tuning now idle q) := by
  unfold finish sampleEstimate
  simp only
  split_ifs <;> exact ⟨rfl, rfl, rfl⟩

section

variable {q q' : DwrrQueue} {i : Fin 64} {ring tail : List (Fin 64)}

/-- One queue replaced by another, in the list as before. -/
theorem slots_update {cl : PacketDwrr} (queues : q'.queues = Function.update q.queues i cl) :
    slots q' = Function.update (slots q) i cl.slot := by
  funext k
  unfold slots
  rw [queues]
  by_cases same : k = i
  · subst same
    simp
  · simp [same]

theorem links_update {cl : PacketDwrr} (queues : q'.queues = Function.update q.queues i cl)
    (next : cl.next = (q.queues i).next) (activeList : q'.activeList = q.activeList) :
    links q' = links q := by
  unfold links
  rw [queues, activeList]
  congr 1
  funext k
  by_cases same : k = i
  · subst same
    simpa using next
  · simp [same]

/-! ### The active list -/

/-- The same pointers go through the same queues. -/
theorem Lists.of_links (lists : Lists q ring) (same : links q' = links q) : Lists q' ring := by
  unfold Lists
  rw [same]
  exact lists

/-- A list of queues without repetition ends within the fuel of the walk. -/
theorem length_lt_of_lists (lists : Lists q ring) : ring.length < maxQueueNum + 1 := by
  have bound := List.Nodup.length_le_card (Chain.nodup lists)
  rw [Fintype.card_fin] at bound
  unfold maxQueueNum
  omega

private theorem insertTailList_of_lists (lists : Lists q ring) (fresh : i ∉ ring) :
    ∃ q', insertTailList i q = some q' ∧ Lists q' (ring ++ [i]) ∧ slots q' = slots q ∧
      q'.quantumSum = q.quantumSum := by
  obtain ⟨links', walks, chain⟩ :=
    Links.insertTail_head lists fresh (length_lt_of_lists lists)
  refine ⟨relink q links', ?_, chain, rfl, rfl⟩
  unfold insertTailList
  rw [walks]
  rfl

private theorem removeHeadList_of_lists (lists : Lists q (i :: tail)) :
    ∃ q', removeHeadList q = some (i, q') ∧ Lists q' tail ∧ slots q' = slots q ∧
      q'.quantumSum = q.quantumSum := by
  rcases Links.removeHead_of_chain lists with ⟨removes, chain⟩
  refine ⟨relink q { links q with first := (links q).next i }, ?_, chain, rfl, rfl⟩
  unfold removeHeadList
  rw [removes]
  rfl

end

/-! ### Markers -/

/-- What a marker can make of a packet: the same packet with other flags and another time
stamp. -/
def MarkedFrom (p marked : Packet) : Prop := marked.size = p.size ∧ marked.prio = p.prio

private theorem enqueMarking_markedFrom {config : Config} {now : ℚ} {i : Fin 64} {p marked : Packet}
    {q : DwrrQueue} (marks : enqueMarking config now i p q = some marked) :
    MarkedFrom p marked := by
  unfold enqueMarking at marks
  split at marks
  · split at marks
    · cases marks
      exact ⟨rfl, rfl⟩
    · rcases Option.map_eq_some_iff.mp marks with ⟨mark, _, rfl⟩
      split
      · exact ⟨rfl, rfl⟩
      · exact ⟨rfl, rfl⟩
  · cases marks
    split
    · exact ⟨rfl, rfl⟩
    · exact ⟨rfl, rfl⟩

theorem latencyMark_markedFrom (tuning : Tuning) (now : ℚ) (pkt : Packet) :
    MarkedFrom pkt (latencyMark tuning now pkt) := by
  unfold latencyMark
  simp only
  split_ifs <;> exact ⟨rfl, rfl⟩

theorem dequeMarking_markedFrom {config : Config} {now : ℚ} {i : Fin 64} {pkt marked : Packet}
    {q : DwrrQueue} (marks : dequeMarking config now i pkt q = some marked) :
    MarkedFrom pkt marked := by
  unfold dequeMarking at marks
  split at marks
  · split at marks
    · rcases Option.map_eq_some_iff.mp marks with ⟨mark, _, rfl⟩
      split
      · exact ⟨rfl, rfl⟩
      · exact ⟨rfl, rfl⟩
    · cases marks
      exact ⟨rfl, rfl⟩
  · cases marks
    exact latencyMark_markedFrom _ _ _

/-- The marker does not exit for a queue in range. -/
theorem markingEcn_returns {config : Config} {i : Fin 64} (inside : (i : Nat) < config.queueNum)
    (q : DwrrQueue) : ∃ marks, markingEcn config q i = some marks := by
  unfold markingEcn
  simp only [if_neg (not_le.mpr inside)]
  split_ifs <;> exact ⟨_, rfl⟩

private theorem enqueMarking_returns {config : Config} {i : Fin 64}
    (inside : (i : Nat) < config.queueNum) (now : ℚ) (p : Packet) (q : DwrrQueue) :
    ∃ marked, enqueMarking config now i p q = some marked := by
  unfold enqueMarking
  rcases markingEcn_returns inside q with ⟨marks, returns⟩
  rw [returns]
  split_ifs <;> exact ⟨_, rfl⟩

private theorem dequeMarking_returns {config : Config} {i : Fin 64}
    (inside : (i : Nat) < config.queueNum) (now : ℚ) (pkt : Packet) (q : DwrrQueue) :
    ∃ marked, dequeMarking config now i pkt q = some marked := by
  unfold dequeMarking
  rcases markingEcn_returns inside q with ⟨marks, returns⟩
  rw [returns]
  split_ifs <;> exact ⟨_, rfl⟩

/-! ### Classification and lengths -/

theorem classify_lt (config : Config) (p : Packet) :
    (classify config p : Nat) < config.queueNum := by
  have range := config.queueNum_range.1
  unfold classify
  split
  · show p.prio.toNat < config.queueNum
    omega
  · show config.queueNum - 1 < config.queueNum
    omega

private theorem mem_indices {config : Config} {i : Fin 64} :
    i ∈ config.indices ↔ (i : Nat) < config.queueNum := by
  simp [Config.indices]

theorem totalByteLength_eq_zero_iff {config : Config} {q : DwrrQueue} :
    totalByteLength config q = 0 ↔
      ∀ i : Fin 64, (i : Nat) < config.queueNum → (q.queues i).packets = [] := by
  unfold totalByteLength
  rw [List.sum_eq_zero_iff_forall_eq_nat]
  constructor
  · intro zero i inside
    apply byteLength_eq_zero_iff.mp
    apply zero
    exact List.mem_map_of_mem (mem_indices.mpr inside)
  · intro empty bytes member
    rcases List.mem_map.mp member with ⟨i, listed, rfl⟩
    rw [empty i (mem_indices.mp listed)]
    rfl

/-! ### Enque -/

/-- How an enque ends: `q'` is left behind, and its active list goes through `ring'`. -/
inductive Enques (config : Config) (p : Packet) (q : DwrrQueue) (ring : List (Fin 64))
    (q' : DwrrQueue) : Bool → List (Fin 64) → Prop
  | drop (same : SameSchedule q q') : Enques config p q ring q' false ring
  | activate {marked : Packet} (marker : MarkedFrom p marked)
      (inactive : (slots q (classify config p)).active = false)
      (after : slots q' = Function.update (slots q) (classify config p)
        { slots q (classify config p) with
          deficitCounter := 0, active := true, current := false,
          packets := (slots q (classify config p)).packets ++ [marked] })
      (lists : Lists q' (ring ++ [classify config p]))
      (quantumSum : q'.quantumSum = q.quantumSum + (slots q (classify config p)).quantum) :
      Enques config p q ring q' true (ring ++ [classify config p])
  | append {marked : Packet} (marker : MarkedFrom p marked)
      (active : (slots q (classify config p)).active = true)
      (after : slots q' = Function.update (slots q) (classify config p)
        { slots q (classify config p) with
          packets := (slots q (classify config p)).packets ++ [marked] })
      (lists : Lists q' ring) (quantumSum : q'.quantumSum = q.quantumSum) :
      Enques config p q ring q' true ring

section

variable {q : DwrrQueue} {i : Fin 64} {ring tail : List (Fin 64)}

private theorem push_effect (i : Fin 64) (p : Packet) (q : DwrrQueue) :
    slots (push i p q) =
        Function.update (slots q) i { slots q i with packets := (slots q i).packets ++ [p] } ∧
      links (push i p q) = links q := by
  have queues : (push i p q).queues = Function.update q.queues i _ := rfl
  exact ⟨slots_update queues, links_update queues rfl rfl⟩

private theorem activate_of_lists (now : ℚ) (lists : Lists q ring)
    (inactive : (slots q i).active = false) (fresh : i ∉ ring) :
    ∃ q', activate now i q = some q' ∧ Lists q' (ring ++ [i]) ∧
      slots q' = Function.update (slots q) i
        { slots q i with deficitCounter := 0, active := true, current := false } ∧
      q'.quantumSum = q.quantumSum + (slots q i).quantum := by
  obtain ⟨opened, isOpened⟩ : ∃ opened : DwrrQueue, opened =
      { q with
        queues :=
          Function.update q.queues i
            { q.queues i with
              deficitCounter := 0, active := true, current := false, startTime := now } } :=
    ⟨_, rfl⟩
  have queues : opened.queues = Function.update q.queues i _ := congrArg DwrrQueue.queues isOpened
  have activeList : opened.activeList = q.activeList := by rw [isOpened]
  have openedLists : Lists opened ring := lists.of_links (links_update queues rfl activeList)
  have openedSlots : slots opened = Function.update (slots q) i
      { slots q i with deficitCounter := 0, active := true, current := false } :=
    slots_update queues
  obtain ⟨linked, inserts, linkedLists, linkedSlots, sum⟩ :=
    insertTailList_of_lists openedLists fresh
  refine ⟨{ linked with quantumSum := linked.quantumSum + (q.queues i).quantum }, ?_, linkedLists,
    ?_, ?_⟩
  · unfold activate
    have off : (q.queues i).active = false := inactive
    simp only [off, Bool.false_eq_true, if_false]
    rw [← isOpened, inserts]
    rfl
  · exact linkedSlots.trans openedSlots
  · show linked.quantumSum + (q.queues i).quantum = q.quantumSum + (q.queues i).quantum
    rw [sum, isOpened]

/-- Queue `i` takes a packet: its first one, or one behind others. -/
inductive Joins (i : Fin 64) (marked : Packet) (slots : Fin 64 → Slot) (ring : List (Fin 64)) :
    (Fin 64 → Slot) → List (Fin 64) → Prop
  | activate (inactive : (slots i).active = false) :
      Joins i marked slots ring
        (Function.update slots i
          { slots i with
            deficitCounter := 0, active := true, current := false,
            packets := (slots i).packets ++ [marked] })
        (ring ++ [i])
  | append (active : (slots i).active = true) :
      Joins i marked slots ring
        (Function.update slots i { slots i with packets := (slots i).packets ++ [marked] }) ring

/-- A queue that is activated where it has to be takes any packet. -/
theorem admit_of_lists (now : ℚ) (i : Fin 64) (lists : Lists q ring)
    (active_iff : ∀ i, (slots q i).active = true ↔ i ∈ ring) :
    ∃ activated ring', activate now i q = some activated ∧ ∀ marked,
      Joins i marked (slots q) ring (slots (push i marked activated)) ring' ∧
        Lists (push i marked activated) ring' ∧
        (push i marked activated).quantumSum =
          if (slots q i).active then q.quantumSum else q.quantumSum + (slots q i).quantum := by
  by_cases active : (slots q i).active = true
  · refine ⟨q, ring, if_pos active, fun marked => ?_⟩
    rcases push_effect i marked q with ⟨after, sameLinks⟩
    rw [after, if_pos active]
    exact ⟨.append active, lists.of_links sameLinks, rfl⟩
  · have inactive : (slots q i).active = false := by simpa using active
    have fresh : i ∉ ring := by
      rw [← active_iff]
      exact active
    obtain ⟨activated, activates, activatedLists, activatedSlots, sum⟩ :=
      activate_of_lists now lists inactive fresh
    refine ⟨activated, ring ++ [i], activates, fun marked => ?_⟩
    rcases push_effect i marked activated with ⟨after, sameLinks⟩
    rw [activatedSlots, Function.update_self, Function.update_idem] at after
    rw [after, if_neg active]
    exact ⟨.activate inactive, activatedLists.of_links sameLinks, sum⟩

/-- An enque that finds a list of the active queues comes to its end. -/
theorem enque_returns (pow : ℚ → ℚ → ℚ) (config : Config) (now : ℚ) (p : Packet)
    (lists : Lists q ring) (active_iff : ∀ i, (slots q i).active = true ↔ i ∈ ring) :
    ∃ q' taken ring', enque pow config now p q = some (q', taken) ∧
      Enques config p q ring q' taken ring' := by
  have same := (sameSchedule_startTimer config.toTuning q).trans
    (sameSchedule_decayIdle pow config.toTuning now (totalByteLength config q = 0)
      (startTimer config.toTuning q))
  unfold enque
  simp only
  generalize decayIdle pow config.toTuning now (totalByteLength config q = 0)
    (startTimer config.toTuning q) = settled at same ⊢
  split
  · exact ⟨settled, false, ring, rfl, .drop same⟩
  · rw [← same.slots] at active_iff
    obtain ⟨activated, ring', activates, admits⟩ :=
      admit_of_lists now (classify config p) (same.lists lists) active_iff
    obtain ⟨marked, marks⟩ := enqueMarking_returns (classify_lt config p) now p
      (push (classify config p) p activated)
    have marker := enqueMarking_markedFrom marks
    refine ⟨push (classify config p) marked activated, true, ring', ?_, ?_⟩
    · unfold admission
      simp only [activates, Option.bind_some, marks, Option.map_some]
    · rcases admits marked with ⟨joins, lists', sum⟩
      generalize result : slots (push (classify config p) marked activated) = after at joins
      rw [same.slots, same.quantumSum] at sum
      rw [same.slots] at joins
      cases joins with
      | activate inactive =>
          rw [inactive, if_neg Bool.false_ne_true] at sum
          exact .activate marker inactive result lists' sum
      | append active =>
          rw [active, if_pos rfl] at sum
          exact .append marker active result lists' sum

end

/-! ### Deque -/

/-- What a queue may send before its next turn ends: the quantum of a visit counts as soon as
the visit is due. -/
def Slot.credit (slot : Slot) : Int :=
  slot.deficitCounter + if slot.current then 0 else slot.quantum

/-- A slot once its visit has started. -/
def Slot.visit (slot : Slot) : Slot :=
  if slot.current then slot
  else { slot with deficitCounter := slot.deficitCounter + slot.quantum, current := true }

theorem Slot.visit_eq (slot : Slot) :
    slot.visit = { slot with deficitCounter := slot.credit, current := true } := by
  unfold Slot.visit Slot.credit
  split
  next current => rw [add_zero, ← current]
  next => rfl

/-- A slot at the end of a visit that leaves packets behind. -/
def Slot.turned (slot : Slot) : Slot :=
  { slot with deficitCounter := slot.credit, current := false }

@[simp] theorem Slot.turned_credit (slot : Slot) :
    slot.turned.credit = slot.credit + slot.quantum := by
  unfold Slot.turned Slot.credit
  simp

@[simp] theorem Slot.turned_packets (slot : Slot) : slot.turned.packets = slot.packets := rfl

@[simp] theorem Slot.turned_quantum (slot : Slot) : slot.turned.quantum = slot.quantum := rfl

/-- A slot once it has sent a packet of `size` bytes and keeps `rest`. -/
def Slot.sent (slot : Slot) (size : Nat) (rest : List Packet) : Slot :=
  if rest = [] then
    { slot with deficitCounter := 0, active := false, current := false, packets := rest }
  else { slot with deficitCounter := slot.deficitCounter - size, packets := rest }

/-- One pass of the loop that moves the head of the active list to the tail. -/
inductive Passes : (Fin 64 → Slot) × List (Fin 64) → (Fin 64 → Slot) × List (Fin 64) → Prop
  | intro {slots : Fin 64 → Slot} {i : Fin 64} {tail : List (Fin 64)} {pkt : Packet}
      {rest : List Packet} (front : (slots i).packets = pkt :: rest)
      (blocked : (slots i).credit < pkt.size) :
      Passes (slots, i :: tail)
        (Function.update slots i (slots i).turned, tail ++ [i])

section

variable {q q' : DwrrQueue} {i : Fin 64} {ring tail : List (Fin 64)}

private theorem refresh_effect (i : Fin 64) (q : DwrrQueue) :
    slots (refresh i q) = Function.update (slots q) i (slots q i).visit ∧
      links (refresh i q) = links q ∧ (refresh i q).quantumSum = q.quantumSum := by
  unfold refresh Slot.visit
  simp only
  by_cases current : (q.queues i).current = true
  · have same : (slots q i).current = true := current
    rw [if_pos current, if_pos same, Function.update_eq_self]
    exact ⟨rfl, rfl, rfl⟩
  · have same : ¬(slots q i).current = true := current
    rw [if_neg current, if_neg same]
    have queues : DwrrQueue.queues
        { q with
          queues :=
            Function.update q.queues i
              { q.queues i with
                deficitCounter := (q.queues i).deficitCounter + (q.queues i).quantum
                current := true } } = Function.update q.queues i _ := rfl
    exact ⟨slots_update queues, links_update queues rfl rfl, rfl⟩

private theorem rotate_of_lists (tuning : Tuning) (now : ℚ) (lists : Lists q (i :: tail)) :
    ∃ q', rotate tuning now q = some q' ∧ Lists q' (tail ++ [i]) ∧
      slots q' = Function.update (slots q) i { slots q i with current := false } ∧
      q'.quantumSum = q.quantumSum := by
  obtain ⟨unlinked, removes, unlinkedLists, unlinkedSlots, unlinkedSum⟩ :=
    removeHeadList_of_lists lists
  obtain ⟨closed, isClosed⟩ : ∃ closed : DwrrQueue, closed =
      { unlinked with
        roundTime := smoothRoundTime tuning unlinked.roundTime (now - (unlinked.queues i).startTime)
        queues :=
          Function.update unlinked.queues i
            { unlinked.queues i with current := false, startTime := now } } := ⟨_, rfl⟩
  have queues : closed.queues = Function.update unlinked.queues i _ :=
    congrArg DwrrQueue.queues isClosed
  have activeList : closed.activeList = unlinked.activeList := by rw [isClosed]
  have closedLists : Lists closed tail :=
    unlinkedLists.of_links (links_update queues rfl activeList)
  have closedSlots := slots_update queues
  have fresh : i ∉ tail := (List.nodup_cons.mp (Chain.nodup lists)).1
  rcases insertTailList_of_lists closedLists fresh with ⟨q', inserts, lists', sameSlots, sum⟩
  refine ⟨q', ?_, lists', ?_, sum.trans ?_⟩
  · unfold rotate
    rw [removes, Option.bind_some]
    simp only
    rw [← isClosed]
    exact inserts
  · rw [sameSlots, closedSlots, unlinkedSlots]
    have same : slots unlinked i = slots q i := by rw [unlinkedSlots]
    rw [← same]
    rfl
  · rw [isClosed]
    exact unlinkedSum

/-- What the loop selects: after some passes, the head packet of the head queue. -/
structure Selects (q : DwrrQueue) (ring : List (Fin 64)) (q' : DwrrQueue) (choice : Choice)
    (middle : Fin 64 → Slot) (tail : List (Fin 64)) : Prop where
  passes : Relation.ReflTransGen Passes (slots q, ring) (middle, choice.queue :: tail)
  front : (middle choice.queue).packets = choice.pkt :: choice.rest
  affordable : choice.pkt.size ≤ (middle choice.queue).credit
  after : slots q' = Function.update middle choice.queue (middle choice.queue).visit
  lists : Lists q' (choice.queue :: tail)
  quantumSum : q'.quantumSum = q.quantumSum

/-- One iteration of the loop from a list of queues that hold packets. -/
theorem select_succ (tuning : Tuning) (now : ℚ) (fuel : Nat) {pkt : Packet} {rest : List Packet}
    (lists : Lists q (i :: tail)) (front : (slots q i).packets = pkt :: rest) :
    (pkt.size ≤ (slots q i).credit ∧
      ∃ q', select tuning now (fuel + 1) q = some (q', ⟨i, pkt, rest⟩) ∧
        Selects q (i :: tail) q' ⟨i, pkt, rest⟩ (slots q) tail) ∨
    ∃ q', select tuning now (fuel + 1) q = select tuning now fuel q' ∧
      Passes (slots q, i :: tail) (slots q', tail ++ [i]) ∧ Lists q' (tail ++ [i]) ∧
      q'.quantumSum = q.quantumSum := by
  rcases refresh_effect i q with ⟨visitedSlots, visitedLinks, visitedSum⟩
  have visitedLists : Lists (refresh i q) (i :: tail) := lists.of_links visitedLinks
  have head : q.activeList = some i := (Chain.eq_some lists).1
  have stored : (q.queues i).packets = pkt :: rest := front
  have counter : ((refresh i q).queues i).deficitCounter = (slots q i).credit := by
    have here := congrFun visitedSlots i
    rw [Function.update_self, Slot.visit_eq] at here
    exact congrArg Slot.deficitCounter here
  by_cases affordable : (pkt.size : Int) ≤ (slots q i).credit
  · left
    refine ⟨affordable, refresh i q, ?_, .refl, front, affordable, visitedSlots, visitedLists,
      visitedSum⟩
    simp only [select, head, stored, counter, if_pos affordable]
  · right
    rcases rotate_of_lists tuning now visitedLists with ⟨q', rotates, lists', after, sum⟩
    rw [visitedSlots, Function.update_self, Function.update_idem, Slot.visit_eq] at after
    refine ⟨q', ?_, ?_, lists', sum.trans visitedSum⟩
    · simp only [select, head, stored, counter, if_neg affordable, rotates, Option.bind_some]
    · rw [after]
      exact .intro front (by omega)

theorem passes_frame {before after : (Fin 64 → Slot) × List (Fin 64)} (pass : Passes before after) :
    (∀ k, (after.1 k).packets = (before.1 k).packets ∧ (after.1 k).quantum = (before.1 k).quantum) ∧
      ∀ k, k ∈ after.2 ↔ k ∈ before.2 := by
  cases pass with
  | @intro slots i tail pkt rest front blocked =>
      constructor
      · intro k
        by_cases same : k = i
        · subst same
          simp
        · simp [same]
      · intro k
        simp [or_comm]

/-- The loop returns only what it selects. -/
theorem select_cases {tuning : Tuning} {now : ℚ} {fuel : Nat} {choice : Choice}
    (lists : Lists q ring) (nonempty : ring ≠ []) (busy : ∀ k ∈ ring, (slots q k).packets ≠ [])
    (returns : select tuning now fuel q = some (q', choice)) :
    ∃ middle tail, Selects q ring q' choice middle tail := by
  induction fuel generalizing q ring with
  | zero => cases returns
  | succ fuel inductionHypothesis =>
      cases ring with
      | nil => exact absurd rfl nonempty
      | cons i tail =>
          rcases List.exists_cons_of_ne_nil (busy i List.mem_cons_self) with ⟨pkt, rest, front⟩
          rcases select_succ tuning now fuel lists front with
            ⟨_, last, found, selects⟩ | ⟨next, continues, pass, nextLists, sum⟩
          · rw [found] at returns
            cases returns
            exact ⟨slots q, tail, selects⟩
          · rw [continues] at returns
            rcases passes_frame pass with ⟨same, members⟩
            have nextBusy : ∀ k ∈ tail ++ [i], (slots next k).packets ≠ [] := by
              intro k member
              rw [(same k).1]
              exact busy k ((members k).mp member)
            obtain ⟨middle, rest, selects⟩ :=
              inductionHypothesis nextLists (by simp) nextBusy returns
            exact ⟨middle, rest, .head pass selects.passes, selects.front, selects.affordable,
              selects.after, selects.lists, selects.quantumSum.trans sum⟩

/-- What the head packet of a queue lacks to be sent in the visit that is due. -/
def Slot.shortfall (slot : Slot) : Nat :=
  match slot.packets with
  | [] => 0
  | pkt :: _ => (pkt.size - slot.credit).toNat

/-- Every pass lowers the total shortfall. -/
theorem passes_shortfall_lt {before after : (Fin 64 → Slot) × List (Fin 64)}
    (quantum : ∀ k, 0 < (before.1 k).quantum) (pass : Passes before after) :
    ∑ k, (after.1 k).shortfall < ∑ k, (before.1 k).shortfall := by
  cases pass with
  | @intro slots i tail pkt rest front blocked =>
      have positive : 0 < (slots i).quantum := quantum i
      have lower : (slots i).turned.shortfall < (slots i).shortfall := by
        unfold Slot.shortfall
        rw [Slot.turned_packets, Slot.turned_credit, front]
        simp only
        omega
      show ∑ k, (Function.update slots i (slots i).turned k).shortfall < ∑ k, (slots k).shortfall
      apply sum_lt_sum
      · intro k _
        by_cases same : k = i
        · subst same
          rw [Function.update_self]
          exact lower.le
        · rw [Function.update_of_ne same]
      · refine ⟨i, mem_univ i, ?_⟩
        rw [Function.update_self]
        exact lower

/-- With more fuel than the total shortfall the loop returns. -/
theorem select_returns (tuning : Tuning) (now : ℚ) {fuel : Nat} (lists : Lists q ring)
    (nonempty : ring ≠ []) (busy : ∀ k ∈ ring, (slots q k).packets ≠ [])
    (quantum : ∀ k, 0 < (slots q k).quantum) (enough : ∑ k, (slots q k).shortfall < fuel) :
    ∃ q' choice, select tuning now fuel q = some (q', choice) := by
  induction fuel generalizing q ring with
  | zero => omega
  | succ fuel inductionHypothesis =>
      cases ring with
      | nil => exact absurd rfl nonempty
      | cons i tail =>
          rcases List.exists_cons_of_ne_nil (busy i List.mem_cons_self) with ⟨pkt, rest, front⟩
          rcases select_succ tuning now fuel lists front with
            ⟨_, last, found, _⟩ | ⟨next, continues, pass, nextLists, _⟩
          · exact ⟨last, _, found⟩
          · rcases passes_frame pass with ⟨same, members⟩
            have lower := passes_shortfall_lt quantum pass
            rw [continues]
            apply inductionHypothesis nextLists (by simp)
            · intro k member
              rw [(same k).1]
              exact busy k ((members k).mp member)
            · intro k
              rw [(same k).2]
              exact quantum k
            · simp only at lower
              omega

/-- More fuel does not change what the loop returns. -/
theorem select_mono {tuning : Tuning} {now : ℚ} {fuel more : Nat} {result : DwrrQueue × Choice}
    (returns : select tuning now fuel q = some result) (le : fuel ≤ more) :
    select tuning now more q = some result := by
  induction fuel generalizing q more with
  | zero => cases returns
  | succ fuel inductionHypothesis =>
      obtain ⟨more, rfl⟩ : ∃ less, more = less + 1 := ⟨more - 1, by omega⟩
      unfold select at returns ⊢
      split at returns
      · cases returns
      next i head =>
        split at returns
        next empty => exact inductionHypothesis returns (by omega)
        next pkt rest front =>
          simp only at returns ⊢
          split at returns
          next affordable => rw [if_pos affordable]; exact returns
          next blocked =>
            rw [if_neg blocked]
            rcases Option.bind_eq_some_iff.mp returns with ⟨next, rotates, continues⟩
            rw [rotates, Option.bind_some]
            exact inductionHypothesis continues (by omega)

private theorem pop_effect (choice : Choice) (q : DwrrQueue) :
    slots (pop choice q) = Function.update (slots q) choice.queue
        { slots q choice.queue with
          deficitCounter := (slots q choice.queue).deficitCounter - choice.pkt.size,
          packets := choice.rest } ∧
      links (pop choice q) = links q := by
  have queues : (pop choice q).queues = Function.update q.queues choice.queue _ := rfl
  exact ⟨slots_update queues, links_update queues rfl rfl⟩

private theorem measure_effect (tuning : Tuning) (now : ℚ) (choice : Choice) (q : DwrrQueue) :
    slots (measure tuning now choice q) = slots q ∧
      links (measure tuning now choice q) = links q := by
  have queues : (measure tuning now choice q).queues =
    Function.update q.queues choice.queue _ := rfl
  refine ⟨(slots_update queues).trans ?_, links_update queues rfl rfl⟩
  exact Function.update_eq_self choice.queue (slots q)

/-- The queue that has sent its last packet leaves the list. -/
theorem retire_of_empty (tuning : Tuning) (now : ℚ) {choice : Choice}
    (lists : Lists q (choice.queue :: tail)) (empty : (slots q choice.queue).packets = []) :
    ∃ q', retire tuning now choice q = some q' ∧ Lists q' tail ∧
      slots q' = Function.update (slots q) choice.queue
        { slots q choice.queue with deficitCounter := 0, active := false, current := false } ∧
      q'.quantumSum = q.quantumSum - (slots q choice.queue).quantum := by
  have last : (q.queues choice.queue).packets = [] := empty
  obtain ⟨charged, isCharged⟩ : ∃ charged : DwrrQueue, charged =
      { q with
        roundTime :=
          smoothRoundTime tuning q.roundTime
            (now - (q.queues choice.queue).startTime +
              choice.pkt.size * 8 / tuning.linkCapacity)
        quantumSum := q.quantumSum - (q.queues choice.queue).quantum } := ⟨_, rfl⟩
  have chargedLinks : links charged = links q := by
    rw [isCharged]
    rfl
  have chargedSlots : slots charged = slots q := by
    rw [isCharged]
    rfl
  obtain ⟨unlinked, removes, unlinkedLists, unlinkedSlots, sum⟩ :=
    removeHeadList_of_lists (lists.of_links chargedLinks)
  obtain ⟨closed, isClosed⟩ : ∃ closed : DwrrQueue, closed =
      { unlinked with
        queues :=
          Function.update unlinked.queues choice.queue
            { unlinked.queues choice.queue with
              deficitCounter := 0, active := false, current := false } } := ⟨_, rfl⟩
  have closedQueues : closed.queues = Function.update unlinked.queues choice.queue _ :=
    congrArg DwrrQueue.queues isClosed
  have closedList : closed.activeList = unlinked.activeList := by rw [isClosed]
  refine ⟨closed, ?_, unlinkedLists.of_links (links_update closedQueues rfl closedList), ?_, ?_⟩
  · unfold retire
    simp only [if_pos last, ← isCharged, removes, Option.map_some, ← isClosed]
  · have same : slots unlinked = slots q := unlinkedSlots.trans chargedSlots
    rw [slots_update closedQueues, same, ← congrFun same choice.queue]
    rfl
  · have sumClosed : closed.quantumSum = unlinked.quantumSum := by rw [isClosed]
    rw [sumClosed, sum, isCharged]
    rfl

private theorem retire_of_lists (tuning : Tuning) (now : ℚ) {choice : Choice}
    (lists : Lists q (choice.queue :: tail)) :
    ∃ q', retire tuning now choice q = some q' ∧
      Lists q' (if (slots q choice.queue).packets = [] then tail else choice.queue :: tail) ∧
      slots q' = Function.update (slots q) choice.queue
        (if (slots q choice.queue).packets = [] then
          { slots q choice.queue with deficitCounter := 0, active := false, current := false }
        else slots q choice.queue) ∧
      q'.quantumSum =
        if (slots q choice.queue).packets = [] then q.quantumSum - (slots q choice.queue).quantum
        else q.quantumSum := by
  by_cases empty : (slots q choice.queue).packets = []
  · rw [if_pos empty, if_pos empty, if_pos empty]
    exact retire_of_empty tuning now lists empty
  · rw [if_neg empty, if_neg empty, if_neg empty, Function.update_eq_self]
    refine ⟨q, ?_, lists, rfl, rfl⟩
    have more : ¬(q.queues choice.queue).packets = [] := empty
    unfold retire
    rw [if_neg more]

/-- What sending the selected packet does. -/
structure Serves (q : DwrrQueue) (choice : Choice) (tail : List (Fin 64)) (q' : DwrrQueue)
    (marked : Packet) : Prop where
  marker : MarkedFrom choice.pkt marked
  after : slots q' = Function.update (slots q) choice.queue
    ((slots q choice.queue).sent choice.pkt.size choice.rest)
  lists : Lists q' (if choice.rest = [] then tail else choice.queue :: tail)
  quantumSum : q'.quantumSum =
    if choice.rest = [] then q.quantumSum - (slots q choice.queue).quantum else q.quantumSum

/-- What removing the selected packet does. -/
theorem retire_of_selected (tuning : Tuning) (now : ℚ) {choice : Choice}
    (lists : Lists q (choice.queue :: tail)) :
    ∃ q', retire tuning now choice (measure tuning now choice (pop choice q)) = some q' ∧
      slots q' = Function.update (slots q) choice.queue
        ((slots q choice.queue).sent choice.pkt.size choice.rest) ∧
      Lists q' (if choice.rest = [] then tail else choice.queue :: tail) ∧
      q'.quantumSum =
        if choice.rest = [] then q.quantumSum - (slots q choice.queue).quantum
        else q.quantumSum := by
  rcases pop_effect choice q with ⟨poppedSlots, poppedLinks⟩
  obtain ⟨measuredSlots, measuredLinks⟩ := measure_effect tuning now choice (pop choice q)
  have measuredLists : Lists (measure tuning now choice (pop choice q)) (choice.queue :: tail) :=
    lists.of_links (measuredLinks.trans poppedLinks)
  rcases retire_of_lists tuning now measuredLists with ⟨q', retires, lists', after, sum⟩
  rw [measuredSlots, poppedSlots] at lists' after sum
  simp only [Function.update_self, Function.update_idem] at lists' after sum
  exact ⟨q', retires, after, lists', sum⟩

theorem serve_returns {config : Config} (now : ℚ) {choice : Choice}
    (inside : (choice.queue : Nat) < config.queueNum) (lists : Lists q (choice.queue :: tail)) :
    ∃ q' marked, serve config now choice q = some (q', marked) ∧
      Serves q choice tail q' marked := by
  rcases dequeMarking_returns inside now choice.pkt (pop choice q) with ⟨marked, marks⟩
  obtain ⟨q', retires, after, lists', sum⟩ := retire_of_selected config.toTuning now lists
  refine ⟨q', marked, ?_, dequeMarking_markedFrom marks, after, lists', sum⟩
  unfold serve
  simp only
  rw [marks, Option.bind_some, retires, Option.map_some]

/-! ### Commands -/

theorem exists_setQuantum_eq {config : Config} {queueId quantum : Int}
    (returns : setQuantum config queueId quantum q = some q') :
    ∃ i : Fin 64, (i : Int) = queueId ∧ 0 < quantum ∧
      q' = { q with queues := Function.update q.queues i { q.queues i with quantum } } := by
  unfold setQuantum at returns
  split_ifs at returns with inside positive
  obtain rfl := Option.some.inj returns
  exact ⟨⟨queueId.toNat, config.toNat_lt inside.1⟩, Int.toNat_of_nonneg inside.2, positive, rfl⟩

theorem exists_setThresh_eq {config : Config} {queueId : Int} {thresh : ℚ}
    (returns : setThresh config queueId thresh q = some q') :
    ∃ i : Fin 64,
      q' = { q with queues := Function.update q.queues i { q.queues i with thresh } } := by
  unfold setThresh at returns
  split_ifs at returns with inside nonneg
  obtain rfl := Option.some.inj returns
  exact ⟨_, rfl⟩

theorem setQuantum_cases {config : Config} {queueId quantum : Int}
    (returns : setQuantum config queueId quantum q = some q') :
    ∃ i : Fin 64, (i : Int) = queueId ∧ 0 < quantum ∧
      slots q' = Function.update (slots q) i { slots q i with quantum } ∧ links q' = links q ∧
      q'.quantumSum = q.quantumSum := by
  obtain ⟨i, here, positive, rfl⟩ := exists_setQuantum_eq returns
  have queues : DwrrQueue.queues
      { q with queues := Function.update q.queues i { q.queues i with quantum } } =
      Function.update q.queues i _ := rfl
  exact ⟨i, here, positive, slots_update queues, links_update queues rfl rfl, rfl⟩

theorem setThresh_cases {config : Config} {queueId : Int} {thresh : ℚ}
    (returns : setThresh config queueId thresh q = some q') :
    slots q' = slots q ∧ links q' = links q ∧ q'.quantumSum = q.quantumSum := by
  obtain ⟨i, rfl⟩ := exists_setThresh_eq returns
  have queues : DwrrQueue.queues
      { q with queues := Function.update q.queues i { q.queues i with thresh } } =
      Function.update q.queues i _ := rfl
  refine ⟨(slots_update queues).trans ?_, links_update queues rfl rfl, rfl⟩
  exact Function.update_eq_self _ (slots q)

end

/-! ### The step as a function -/

/-- The operations of the discipline, with `fuel` for the loop of a deque. -/
def operations (pow : ℚ → ℚ → ℚ) (fuel : Nat) : Operations Config DwrrQueue Command where
  enque := Dwrr.enque pow
  deque := fun config now => Dwrr.deque config now fuel
  command := Dwrr.command
  timer := DwrrQueue.timer
  timeout := fun config => Dwrr.timeout config.toTuning

private theorem operations_follow (pow : ℚ → ℚ → ℚ) (fuel : Nat) :
    (operations pow fuel).Follow (Step pow) :=
  ⟨.enque, .deque, .command, .timeout⟩

def Sys.next (pow : ℚ → ℚ → ℚ) (fuel : Nat) : Sys → Event Command → Option Sys :=
  (operations pow fuel).next

theorem Sys.next_sound {pow : ℚ → ℚ → ℚ} {fuel : Nat} {s s' : Sys} {event : Event Command}
    (answers : Sys.next pow fuel s event = some s') : Step pow s event s' :=
  (operations_follow pow fuel).next_sound answers

/-! ### A port just constructed -/

def fresh : Sys := ⟨defaultConfig, construct, 0⟩

/-- A packet of the given priority and size, not ECN-capable. -/
def segment (prio : Int) (size : Nat) (positive : 0 < size) : Packet :=
  ⟨prio, size, false, false, 0, positive⟩

end MqEcn.Ns2.Dwrr
