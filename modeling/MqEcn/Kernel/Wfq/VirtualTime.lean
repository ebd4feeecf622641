import MqEcn.Kernel.Wfq.Bookkeeping
import MqEcn.Library.FinishTime

/-!
Contract: the virtual times of `sch_wfq`.

Owns: the reading of the 64-bit virtual time of a priority and of the finish times of
its queues as integers that do not wrap, under which each operation is a move of the
least-finish-tag scheduler; and the invariant this gives the qdisc itself.

Does not own: the chained-gap argument, which is that of the abstract scheduler.
-/

set_option autoImplicit false

namespace MqEcn.Kernel.Wfq

open Finset
open MqEcn.Kernel
open MqEcn.Library
open MqEcn.Library.Transition
open MqEcn.Library.Word

/-! ### Wrap-aware comparison -/

/-- On readings that lie less than half the range apart, `wfq_time_before` is the order
of what they are readings of. -/
theorem wfqTimeBefore_iff {x y : Int} (near : |x - y| < 2 ^ 63) :
    wfqTimeBefore (u64OfInt x) (u64OfInt y) = true ↔ x < y := by
  rw [abs_lt] at near
  unfold wfqTimeBefore u64OfInt
  simp only [Nat.one_shiftLeft]
  split_ifs <;> simp <;> omega

/-! ### The reading -/

/-- The queues of priority `prio` that hold packets are the backlogged flows, and the
64-bit times are the integer times modulo `2 ^ 64`. -/
structure Tracks (prio : Fin 8) (q : WfqSchedData) (tags : FinishTime.State (Fin 8) Int) :
    Prop where
  backlogged : ∀ i, i ∈ tags.backlogged ↔ (q.queues i).prio = prio ∧ (q.queues i).qdisc ≠ []
  finish : ∀ i ∈ tags.backlogged, (q.queues i).headFinTime = u64OfInt (tags.finish i)
  clock : q.virtualTime prio = u64OfInt tags.clock

/-- Every packet up to `limit` bytes advances a queue by at most its width. -/
def Covers (limit : Nat) (params : Params) (width : Fin 8 → Int) : Prop :=
  ∀ i, ((limit / params.queueWeight i : Nat) : Int) ≤ width i

/-- No stored packet is accounted with more than `limit` bytes. -/
def StoredWithin (limit : Nat) (q : WfqSchedData) : Prop :=
  ∀ i, ∀ skb ∈ (q.queues i).qdisc, skbSize skb ≤ limit

/-- The widths are so small that compared times stay close. -/
structure Narrow (width : Fin 8 → Int) : Prop where
  nonneg : ∀ i, 0 ≤ width i
  total : ∑ i, width i < 2 ^ 63

section

variable {params : Params} {now result : Int} {limit : Nat} {width : Fin 8 → Int}
  {prio other i : Fin 8} {skb : Skb} {rest : List Skb} {q : WfqSchedData}
  {tags : FinishTime.State (Fin 8) Int}

/-- A frame advances its queue by at least one unit: no weight exceeds the smallest
frame. -/
theorem increment_range (covers : Covers limit params width) (small : 84 ≤ skbSize skb)
    (large : skbSize skb ≤ limit) (i : Fin 8) :
    0 < ((skbSize skb / params.queueWeight i : Nat) : Int) ∧
      ((skbSize skb / params.queueWeight i : Nat) : Int) ≤ width i := by
  have weight := (params.queueWeight_range i).2
  constructor
  · have positive : 0 < skbSize skb / params.queueWeight i :=
      Nat.div_pos (by omega) (by omega)
    exact_mod_cast positive
  · have below : skbSize skb / params.queueWeight i ≤ limit / params.queueWeight i :=
      Nat.div_le_div_right large
    exact le_trans (by exact_mod_cast below) (covers i)

/-! ### Selection -/

theorem Narrow.near (narrow : Narrow width) (chained : FinishTime.Chained width tags) {j : Fin 8}
    (iMember : i ∈ tags.backlogged) (jMember : j ∈ tags.backlogged) :
    |tags.finish i - tags.finish j| < 2 ^ 63 :=
  lt_of_le_of_lt (chained.abs_finish_sub_le narrow.nonneg iMember jMember) narrow.total

/-- A new stamp of a backlogged queue stays close to the virtual time. -/
theorem Narrow.near_stamp (narrow : Narrow width) (chained : FinishTime.Chained width tags)
    (member : i ∈ tags.backlogged) {increment : Int} (nonneg : 0 ≤ increment)
    (bounded : increment ≤ width i) : |tags.clock - (tags.finish i + increment)| < 2 ^ 63 := by
  have below := chained.clock_sub_finish_le narrow.nonneg member
  have above := chained.greatest i member
  have others : ∑ k ∈ tags.backlogged.erase i, width k ≤ ∑ k, width k :=
    sum_le_sum_of_subset_of_nonneg (subset_univ _) fun k _ _ => narrow.nonneg k
  have own := single_le_sum (f := width) (fun k _ => narrow.nonneg k) (mem_univ i)
  have total := narrow.total
  rw [abs_lt]
  constructor <;> omega

/-- The scan of `wfq_dequeue` ends with a queue whose finish time is the least. -/
theorem Tracks.least (balanced : (view q).Balanced) (narrow : Narrow width)
    (tracks : Tracks prio q tags) (chained : FinishTime.Chained width tags)
    (found : scan q prio = some i) : FinishTime.Least tags i := by
  have member : ∀ k, Candidate q prio k ↔ k ∈ tags.backlogged := fun k =>
    (candidate_iff balanced).trans (tracks.backlogged k).symm
  refine ⟨(member i).mp (scan_candidate found), fun k inside => ?_⟩
  apply scan_least tags.finish _ found k ((member k).mpr inside)
  intro j l jCandidate lCandidate
  have jMember := (member j).mp jCandidate
  have lMember := (member l).mp lCandidate
  unfold Earlier
  rw [tracks.finish j jMember, tracks.finish l lMember]
  exact wfqTimeBefore_iff (narrow.near chained jMember lMember)

/-! ### Enqueue -/

/-- An accepted packet activates an empty queue in its priority and moves nothing
elsewhere. -/
theorem Tracks.store (covers : Covers limit params width) (small : 84 ≤ skbSize skb)
    (large : skbSize skb ≤ limit) (tracks : Tracks prio q tags) :
    ∃ moves tags', Run (FinishTime.Step width) tags moves tags' ∧
      Tracks prio (wfqAdmit params now i skb q) tags' ∧
      ∀ k ∈ tags.backlogged, FinishTime.advanced k moves = 0 ∧ .retire k ∉ moves := by
  by_cases activates : (q.queues i).qdisc = [] ∧ params.queuePrio i = prio
  · obtain ⟨idle, here⟩ := activates
    subst here
    have absent : i ∉ tags.backlogged := fun member => ((tracks.backlogged i).mp member).2 idle
    have range := increment_range covers small large i
    have time : u64 (skbSize skb / params.queueWeight i + q.virtualTime (params.queuePrio i)) =
        u64OfInt (tags.clock + (skbSize skb / params.queueWeight i : Nat)) := by
      rw [tracks.clock, u64_add_u64OfInt]
    refine ⟨[.activate i _], _, .single (.activate absent range.1 range.2),
      ⟨fun k => ?_, fun k member => ?_, ?_⟩, fun k _ => ⟨rfl, by simp⟩⟩
    · rw [mem_insert, tracks.backlogged k, wfqAdmit_busy]
      simp [idle]
    · rw [wfqAdmit_headFinTime]
      by_cases same : k = i
      · subst same
        rw [if_pos ⟨rfl, idle⟩, time]
        simp
      · rw [if_neg fun both => same both.1]
        have old := tracks.finish k ((mem_insert.mp member).resolve_left same)
        simpa [Function.update_of_ne same] using old
    · rw [wfqAdmit_virtualTime, if_pos idle, Function.update_self, time]
  · refine ⟨[], tags, .nil tags, ⟨fun k => ?_, fun k member => ?_, ?_⟩,
      fun k _ => ⟨rfl, List.not_mem_nil⟩⟩
    · rw [tracks.backlogged k, wfqAdmit_busy]
      simp [activates]
    · rw [wfqAdmit_headFinTime, if_neg]
      · exact tracks.finish k member
      · intro both
        exact ((tracks.backlogged k).mp member).2 (both.1 ▸ both.2)
    · rw [wfqAdmit_virtualTime]
      split
      next idle =>
        rw [Function.update_of_ne fun here => activates ⟨idle, here.symm⟩]
        exact tracks.clock
      next => exact tracks.clock

/-! ### Dequeue -/

/-- What a departure does to the FIFOs and leaves of the priorities. -/
theorem transmit_fields (params : Params) (now : Int) (prio i : Fin 8) (skb : Skb)
    (rest : List Skb) (result : Int) (q : WfqSchedData) (k : Fin 8) :
    ((wfqTransmit params now prio i skb rest result q).1.queues k).prio = (q.queues k).prio ∧
      ((wfqTransmit params now prio i skb rest result q).1.queues k).qdisc =
        if k = i then rest else (q.queues k).qdisc := by
  by_cases same : k = i
  · subst same
    simp [wfqTransmit]
  · simp [wfqTransmit, same]

private theorem Tracks.transmit_elsewhere (elsewhere : other ≠ prio) (tracks : Tracks prio q tags)
    (own : (q.queues i).prio = other) :
    Tracks prio (wfqTransmit params now other i skb rest result q).1 tags := by
  have absent : i ∉ tags.backlogged := fun member =>
    elsewhere (own.symm.trans ((tracks.backlogged i).mp member).1)
  refine ⟨fun k => ?_, fun k member => ?_, ?_⟩
  · obtain ⟨prioK, qdiscK⟩ := transmit_fields params now other i skb rest result q k
    rw [prioK, qdiscK, tracks.backlogged k]
    by_cases same : k = i
    · subst same
      simp [own, elsewhere]
    · simp [same]
  · have different : k ≠ i := fun equal => absent (equal ▸ member)
    rw [wfqTransmit_headFinTime_of_ne _ _ _ _ _ _ _ different]
    exact tracks.finish k member
  · rw [wfqTransmit_virtualTime_of_ne _ _ _ _ _ _ _ (Ne.symm elsewhere)]
    exact tracks.clock

/-- A successor is still counted once the head has left. -/
theorem stored_after_head {next : Skb} (balanced : (view q).Balanced)
    (front : (q.queues i).qdisc = skb :: next :: rest) :
    0 < u32Sub (q.queues i).lenBytes (skbSize skb) := by
  have inside : next ∈ (q.queues i).qdisc := by simp [front]
  have size := (balanced.stored_size inside).1
  have total : (q.queues i).lenBytes = storedBytes (q.queues i).qdisc := balanced.lenBytes i
  have small : (q.queues i).lenBytes < 2 ^ 32 := balanced.lenBytes_lt i
  rw [front, storedBytes_cons, storedBytes_cons] at total
  rw [u32Sub_of_le small (by omega)]
  omega

/-- A packet with a successor advances the tag of its queue, by the successor's size. -/
theorem Tracks.transmit_advance {next : Skb} (balanced : (view q).Balanced) (narrow : Narrow width)
    (covers : Covers limit params width) (stored : StoredWithin limit q)
    (tracks : Tracks prio q tags) (chained : FinishTime.Chained width tags)
    (found : scan q prio = some i) (front : (q.queues i).qdisc = skb :: next :: rest) :
    ∃ tags', FinishTime.Step width tags
        (.advance i ((skbSize next / params.queueWeight i : Nat) : Int)) tags' ∧
      Tracks prio (wfqTransmit params now prio i skb (next :: rest) result q).1 tags' := by
  have least := tracks.least balanced narrow chained found
  have inside : next ∈ (q.queues i).qdisc := by simp [front]
  have size := (balanced.stored_size inside).1
  have range := increment_range covers size (stored i next inside) i
  have positive := stored_after_head balanced front
  obtain ⟨headTime, virtualTime⟩ :=
    wfqTransmit_next params now prio i skb next rest result q positive
  rw [tracks.finish i least.1, u64_u64OfInt_add] at headTime virtualTime
  refine ⟨_, .advance least range.1 range.2, fun k => ?_, fun k member => ?_, ?_⟩
  · obtain ⟨prioK, qdiscK⟩ := transmit_fields params now prio i skb (next :: rest) result q k
    rw [prioK, qdiscK, tracks.backlogged k]
    by_cases same : k = i
    · subst same
      simp [front]
    · simp [same]
  · by_cases same : k = i
    · subst same
      simpa using headTime
    · rw [wfqTransmit_headFinTime_of_ne _ _ _ _ _ _ _ same]
      simpa [Function.update_of_ne same] using tracks.finish k member
  · have near := narrow.near_stamp chained least.1 range.1.le range.2
    rw [virtualTime, tracks.clock]
    by_cases overtakes : tags.clock < tags.finish i + (skbSize next / params.queueWeight i : Nat)
    · rw [if_pos ((wfqTimeBefore_iff near).mpr overtakes), max_eq_right overtakes.le]
    · rw [if_neg (fun before => overtakes ((wfqTimeBefore_iff near).mp before)),
        max_eq_left (not_lt.mp overtakes)]

/-- A packet without a successor retires its queue. -/
theorem Tracks.transmit_retire (balanced : (view q).Balanced) (narrow : Narrow width)
    (tracks : Tracks prio q tags) (chained : FinishTime.Chained width tags)
    (found : scan q prio = some i) :
    ∃ tags', FinishTime.Step width tags (.retire i) tags' ∧
      Tracks prio (wfqTransmit params now prio i skb [] result q).1 tags' := by
  have least := tracks.least balanced narrow chained found
  obtain ⟨headTime, virtualTime⟩ := wfqTransmit_last params now prio i skb result q
  refine ⟨_, .retire least, fun k => ?_, fun k member => ?_, ?_⟩
  · obtain ⟨prioK, qdiscK⟩ := transmit_fields params now prio i skb [] result q k
    rw [prioK, qdiscK, mem_erase, tracks.backlogged k]
    by_cases same : k = i
    · subst same
      simp
    · simp [same]
  · obtain ⟨different, old⟩ := mem_erase.mp member
    rw [wfqTransmit_headFinTime_of_ne _ _ _ _ _ _ _ different]
    exact tracks.finish k old
  · rw [virtualTime]
    exact tracks.clock

end

/-! ### Operations as moves -/

/-- Units of virtual time the head of a FIFO takes at a weight. -/
def headUnits (weight : Nat) : List Skb → Nat
  | [] => 0
  | skb :: _ => skbSize skb / weight

/-- The queue an outcome took a packet from. -/
def servedQueue : Dequeued → Option (Fin 8)
  | .packet i _ => some i
  | _ => none

section

variable {bfifo : Bfifo} {params : Params} {now : Int} {limit : Nat} {width : Fin 8 → Int}
  {prio : Fin 8} {skb : Skb} {q q' : WfqSchedData} {ret : NetXmit} {outcome : Dequeued}
  {tags : FinishTime.State (Fin 8) Int}

theorem Tracks.enqueue (covers : Covers limit params width) (bounded : bfifo.Bounded)
    (returns : wfqEnqueue bfifo params now skb q = (q', ret))
    (accepted : ret = .success → skbSize skb ≤ limit) (tracks : Tracks prio q tags) :
    ∃ moves tags', Run (FinishTime.Step width) tags moves tags' ∧ Tracks prio q' tags' ∧
      ∀ k ∈ tags.backlogged, FinishTime.advanced k moves = 0 ∧ .retire k ∉ moves := by
  rcases wfqEnqueue_cases returns with ⟨_, rfl⟩ | ⟨success, taken, rfl⟩
  · exact ⟨[], tags, .nil tags, tracks, fun k _ => ⟨rfl, List.not_mem_nil⟩⟩
  · have small : skb.len ≤ maxBufferBytes := (Nat.le_add_left _ _).trans (bounded _ _ taken)
    exact tracks.store covers (skbSize_range small).1 (accepted success)

/-- A dequeue moves only the queue it serves: to its next head while it has one. -/
theorem Tracks.dequeue (narrow : Narrow width) (covers : Covers limit params width)
    (balanced : (view q).Balanced) (stored : StoredWithin limit q)
    (returns : wfqDequeue params now q = (q', outcome)) (tracks : Tracks prio q tags)
    (chained : FinishTime.Chained width tags) :
    ∃ moves tags', Run (FinishTime.Step width) tags moves tags' ∧ Tracks prio q' tags' ∧
      ∀ k ∈ tags.backlogged, (q'.queues k).qdisc ≠ [] →
        FinishTime.advanced k moves =
            (if servedQueue outcome = some k then
              (headUnits (params.queueWeight k) (q'.queues k).qdisc : Int) else 0) ∧
          .retire k ∉ moves := by
  cases wfqDequeue_cases returns with
  | idle | fault | null | throttled =>
      exact ⟨[], tags, .nil tags, tracks, fun k _ _ => ⟨rfl, List.not_mem_nil⟩⟩
  | @packet served i skb rest selected found front enough =>
      have own := (scan_candidate found).1
      by_cases here : served = prio
      · subst here
        have fields := transmit_fields params now served i skb rest
          (tbfSchedule params (skbSize skb) q now) q
        cases rest with
        | nil =>
            obtain ⟨tags', step, tracked⟩ :=
              @Tracks.transmit_retire params now _ _ _ _ _ _ _ balanced narrow tracks chained found
            refine ⟨_, tags', .single step, tracked, fun k _ nonempty => ?_⟩
            have different : i ≠ k := by
              rintro rfl
              rw [(fields i).2, if_pos rfl] at nonempty
              exact nonempty rfl
            simp [FinishTime.advanced, servedQueue, different, Ne.symm different]
        | cons next rest =>
            obtain ⟨tags', step, tracked⟩ :=
              tracks.transmit_advance balanced narrow covers stored chained found front
            refine ⟨_, tags', .single step, tracked, fun k _ _ => ⟨?_, by simp⟩⟩
            by_cases same : i = k
            · subst same
              simp [FinishTime.advanced, servedQueue, headUnits, (fields i).2]
            · simp [FinishTime.advanced, servedQueue, same]
      · refine ⟨[], tags, .nil tags, tracks.transmit_elsewhere here own, fun k member _ => ?_⟩
        have different : i ≠ k := by
          rintro rfl
          exact here (own.symm.trans ((tracks.backlogged i).mp member).1)
        simp [FinishTime.advanced, servedQueue, different]

private theorem StoredWithin.enqueue (returns : wfqEnqueue bfifo params now skb q = (q', ret))
    (accepted : ret = .success → skbSize skb ≤ limit) (stored : StoredWithin limit q) :
    StoredWithin limit q' := by
  rcases wfqEnqueue_cases returns with ⟨_, rfl⟩ | ⟨success, _, rfl⟩
  · exact stored
  · obtain ⟨marked, sameLen, fifo⟩ := wfqAdmit_qdisc params now (wfqClassify params skb) skb q
    intro k packet member
    rw [fifo k, List.mem_append, List.mem_ite_nil_right, List.mem_singleton] at member
    rcases member with old | ⟨_, rfl⟩
    · exact stored k packet old
    · rw [skbSize_eq_of_len_eq sameLen]
      exact accepted success

private theorem StoredWithin.dequeue (returns : wfqDequeue params now q = (q', outcome))
    (stored : StoredWithin limit q) : StoredWithin limit q' := by
  cases wfqDequeue_cases returns with
  | idle | fault | null | throttled => exact stored
  | @packet prio i skb rest selected found front enough =>
      intro k packet member
      rw [(transmit_fields _ _ _ _ _ _ _ _ k).2] at member
      split at member
      next same =>
        subst same
        exact stored k packet (by rw [front]; exact List.mem_cons_of_mem _ member)
      next => exact stored k packet member

theorem StoredWithin.step {s s' : Sys} {event : Event Param} (step : Step bfifo s event s')
    (accepted : event.acceptedSize ≤ limit) (stored : StoredWithin limit s.q) :
    StoredWithin limit s'.q := by
  cases step with
  | enqueue later returns =>
      apply stored.enqueue returns
      intro success
      subst success
      exact accepted
  | dequeue later returns => exact stored.dequeue returns
  | sysctl => exact stored
  | change => exact stored

end

/-! ### The invariant -/

/-- The counters are exact, no packet is above the limit, and the times of every
priority are the reading of a chained state. -/
structure Timed (limit : Nat) (width : Fin 8 → Int) (q : WfqSchedData) : Prop where
  balanced : (view q).Balanced
  stored : StoredWithin limit q
  times : ∀ prio, ∃ tags, Tracks prio q tags ∧ FinishTime.Chained width tags

section

variable {bfifo : Bfifo} {params : Params} {now : Int} {limit : Nat} {width : Fin 8 → Int}
  {skb : Skb} {q q' : WfqSchedData} {ret : NetXmit} {outcome : Dequeued}

theorem Timed.enqueue (bounded : bfifo.Bounded) (narrow : Narrow width)
    (covers : Covers limit params width) (returns : wfqEnqueue bfifo params now skb q = (q', ret))
    (accepted : ret = .success → skbSize skb ≤ limit) (timed : Timed limit width q) :
    Timed limit width q' where
  balanced := balanced_enqueue bounded returns timed.balanced
  stored := timed.stored.enqueue returns accepted
  times := fun prio => by
    obtain ⟨tags, tracks, chained⟩ := timed.times prio
    obtain ⟨moves, tags', run, tracked, _⟩ := tracks.enqueue covers bounded returns accepted
    exact ⟨tags', tracked, chained.run narrow.nonneg run⟩

theorem Timed.dequeue (narrow : Narrow width) (covers : Covers limit params width)
    (returns : wfqDequeue params now q = (q', outcome)) (timed : Timed limit width q) :
    Timed limit width q' where
  balanced := balanced_dequeue returns timed.balanced
  stored := timed.stored.dequeue returns
  times := fun prio => by
    obtain ⟨tags, tracks, chained⟩ := timed.times prio
    obtain ⟨moves, tags', run, tracked, _⟩ :=
      tracks.dequeue narrow covers timed.balanced timed.stored returns chained
    exact ⟨tags', tracked, chained.run narrow.nonneg run⟩

theorem Timed.change (timed : Timed limit width q) (rate : Nat) :
    Timed limit width (wfqChange rate q) where
  balanced := timed.balanced
  stored := timed.stored
  times := fun prio => by
    obtain ⟨tags, tracks, chained⟩ := timed.times prio
    exact ⟨tags, ⟨tracks.backlogged, tracks.finish, tracks.clock⟩, chained⟩

theorem Timed.step {s s' : Sys} {event : Event Param} (bounded : bfifo.Bounded)
    (narrow : Narrow width) (step : Step bfifo s event s') (covers : Covers limit s.params width)
    (accepted : event.acceptedSize ≤ limit) (timed : Timed limit width s.q) :
    Timed limit width s'.q := by
  cases step with
  | enqueue later returns =>
      exact timed.enqueue bounded narrow covers returns fun success => by
        subst success
        exact accepted
  | dequeue later returns => exact timed.dequeue narrow covers returns
  | sysctl => exact timed
  | change rate => exact timed.change rate

theorem timed_wfqInit (limit : Nat) (width : Fin 8 → Int) (now : Int) (rate : Nat) :
    Timed limit width (wfqInit now rate) where
  balanced := balanced_wfqInit now rate
  stored := fun _ _ member => absurd member List.not_mem_nil
  times := fun prio => by
    refine ⟨⟨∅, fun _ => 0, 0⟩, ⟨fun i => ?_, fun i member => ?_, rfl⟩,
      FinishTime.chained_of_idle rfl⟩
    · simp [wfqInit, wfqChange]
    · exact absurd member (notMem_empty i)

end

end MqEcn.Kernel.Wfq
