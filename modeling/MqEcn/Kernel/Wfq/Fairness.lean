import Mathlib.Algebra.Order.Field.Rat
import Mathlib.Algebra.BigOperators.Field
import Mathlib.Data.Nat.Cast.Order.Field
import Mathlib.Tactic.Ring
import MqEcn.Kernel.Wfq.Invariant

/-!
Contract: weighted fairness of `sch_wfq`.

Owns: the simulation of the qdisc, seen from one priority, by the least-finish-tag
scheduler along a run; the account of a queue's tag against the packets it sends, which
the integer division of sizes by weights enters; the fairness of two queues that stay
backlogged, up to what that division rounds off; and a run on which the rounded-off part
exceeds every bound of the form that leaves it out.

Does not own: the fairness of the tags.
-/

set_option autoImplicit false

namespace MqEcn.Kernel.Wfq

open Finset
open MqEcn.Kernel
open MqEcn.Library
open MqEcn.Library.Transition
open MqEcn.Library.Word

/-- Constant weights. -/
def Steady (weight : Fin 8 → Nat) (s : Sys) : Prop := ∀ i, s.params.queueWeight i = weight i

/-- The queue holds a packet. -/
def Backlogged (i : Fin 8) (s : Sys) : Prop := (s.q.queues i).qdisc ≠ []

instance (i : Fin 8) (s : Sys) : Decidable (Backlogged i s) :=
  inferInstanceAs (Decidable ((s.q.queues i).qdisc ≠ []))

/-- Moves that answer events for the queues that stay backlogged: such a queue does not
retire, and its tag advances by the units of its packets, from the second on, up to and
including its new head. -/
def Answers (weight : Fin 8 → Nat) (watched : Fin 8 → Prop) (first : Sys)
    (events : List (Event Param)) (last : Sys) (moves : List (FinishTime.Move (Fin 8) Int)) :
    Prop :=
  ∀ k, watched k →
    FinishTime.advanced k moves + headUnits (weight k) (first.q.queues k).qdisc =
        sentUnits (weight k) k events + headUnits (weight k) (last.q.queues k).qdisc ∧
      .retire k ∉ moves

private theorem Answers.cons {weight : Fin 8 → Nat} {watched : Fin 8 → Prop}
    {first middle last : Sys} {event : Event Param} {events : List (Event Param)}
    {moves rest : List (FinishTime.Move (Fin 8) Int)}
    (head : Answers weight watched first [event] middle moves)
    (tail : Answers weight watched middle events last rest) :
    Answers weight watched first (event :: events) last (moves ++ rest) := by
  intro k isWatched
  obtain ⟨headAdvanced, headStays⟩ := head k isWatched
  obtain ⟨tailAdvanced, tailStays⟩ := tail k isWatched
  constructor
  · simp only [sentUnits, List.map_cons, List.map_nil, List.sum_cons, List.sum_nil,
      FinishTime.advanced_append, Nat.cast_add, Nat.cast_zero] at headAdvanced tailAdvanced ⊢
    linarith
  · simp [headStays, tailStays]

/-- The relation one event preserves. -/
structure Relates (limit : Nat) (width : Fin 8 → Int) (prio : Fin 8) (watched : Fin 8 → Prop)
    (s : Sys) (tags : FinishTime.State (Fin 8) Int) : Prop where
  balanced : (view s.q).Balanced
  stored : StoredWithin limit s.q
  tracks : Tracks prio s.q tags
  chained : FinishTime.Chained width tags
  linked : ∀ k, watched k → k ∈ tags.backlogged

/-- A packet stored behind a head does not change the head. -/
theorem headUnits_append {weight : Nat} {fifo : List Skb} (busy : fifo ≠ []) (more : List Skb) :
    headUnits weight (fifo ++ more) = headUnits weight fifo := by
  obtain ⟨skb, rest, rfl⟩ := List.exists_cons_of_ne_nil busy
  rfl

section

variable {bfifo : Bfifo} {params : Params} {now : Int} {skb : Skb} {q q' : WfqSchedData}
  {ret : NetXmit} {outcome : Dequeued} {weight : Nat} {k : Fin 8}

private theorem headUnits_enqueue (returns : wfqEnqueue bfifo params now skb q = (q', ret))
    (busy : (q.queues k).qdisc ≠ []) :
    headUnits weight (q'.queues k).qdisc = headUnits weight (q.queues k).qdisc := by
  rcases wfqEnqueue_cases returns with ⟨_, rfl⟩ | ⟨_, _, rfl⟩
  · rfl
  · obtain ⟨marked, _, fifo⟩ := wfqAdmit_qdisc params now (wfqClassify params skb) skb q
    rw [fifo k]
    exact headUnits_append busy _

/-- What a dequeue takes from a queue is its head. -/
theorem headUnits_dequeue (returns : wfqDequeue params now q = (q', outcome)) :
    headUnits weight (q.queues k).qdisc =
      (Event.dequeue now outcome : Event Param).sentFrom k / weight +
        if servedQueue outcome = some k then 0 else headUnits weight (q'.queues k).qdisc := by
  cases wfqDequeue_cases returns with
  | idle | fault | null | throttled => simp [Event.sentFrom, servedQueue]
  | @packet prio i skb rest selected found front enough =>
      have size := skbSize_eq_of_len_eq (wfqTransmit_markedFrom params now prio i skb rest
        (tbfSchedule params (skbSize skb) q now) q).len_eq
      have fifo := (transmit_fields params now prio i skb rest
        (tbfSchedule params (skbSize skb) q now) q k).2
      by_cases same : i = k
      · subst same
        simp only [Event.sentFrom, servedQueue, if_true, size, front, headUnits, Nat.add_zero]
      · simp only [Event.sentFrom, servedQueue, Option.some.injEq, same, if_false, Nat.zero_div,
          Nat.zero_add, fifo, Ne.symm same]

end

section

variable {bfifo : Bfifo} {limit : Nat} {width : Fin 8 → Int} {weight : Fin 8 → Nat} {prio : Fin 8}
  {watched : Fin 8 → Prop} {s s' : Sys} {event : Event Param}
  {tags : FinishTime.State (Fin 8) Int}

/-- Every event is answered by moves of the least-finish-tag scheduler. -/
theorem Relates.moves (bounded : bfifo.Bounded) (narrow : Narrow width)
    (step : Step bfifo s event s') (steady : Steady weight s)
    (covers : Covers limit s.params width) (accepted : event.acceptedSize ≤ limit)
    (relates : Relates limit width prio watched s tags)
    (busy : ∀ k, watched k → Backlogged k s) (stays : ∀ k, watched k → Backlogged k s') :
    ∃ moves tags', Run (FinishTime.Step width) tags moves tags' ∧ Tracks prio s'.q tags' ∧
      Answers weight watched s [event] s' moves := by
  obtain ⟨balanced, stored, tracks, chained, linked⟩ := relates
  cases step with
  | @enqueue now skb q' ret later returns =>
      have taken : ret = .success → skbSize skb ≤ limit := by
        intro success
        subst success
        exact accepted
      obtain ⟨moves, tags', run, tracked, still⟩ := tracks.enqueue covers bounded returns taken
      refine ⟨moves, tags', run, tracked, fun k isWatched => ?_⟩
      obtain ⟨advanced, notRetired⟩ := still k (linked k isWatched)
      refine ⟨?_, notRetired⟩
      rw [advanced, headUnits_enqueue returns (busy k isWatched)]
      simp [sentUnits, Event.sentFrom]
  | @dequeue now q' outcome later returns =>
      obtain ⟨moves, tags', run, tracked, served⟩ :=
        tracks.dequeue narrow covers balanced stored returns chained
      refine ⟨moves, tags', run, tracked, fun k isWatched => ?_⟩
      obtain ⟨advanced, notRetired⟩ := served k (linked k isWatched) (stays k isWatched)
      refine ⟨?_, notRetired⟩
      rw [advanced, steady k, @headUnits_dequeue _ _ _ _ _ (weight k) k returns]
      simp only [sentUnits, List.map_cons, List.map_nil, List.sum_cons, List.sum_nil, Nat.add_zero]
      split
      · push_cast
        linarith
      · push_cast
        linarith
  | sysctl =>
      refine ⟨[], tags, .nil tags, tracks, fun k _ => ⟨?_, List.not_mem_nil⟩⟩
      simp [FinishTime.advanced, sentUnits, Event.sentFrom]
  | change =>
      refine ⟨[], tags, .nil tags, ⟨tracks.backlogged, tracks.finish, tracks.clock⟩,
        fun k _ => ⟨?_, List.not_mem_nil⟩⟩
      simp [FinishTime.advanced, sentUnits, Event.sentFrom, wfqChange]

private theorem Relates.answer (bounded : bfifo.Bounded) (narrow : Narrow width)
    (step : Step bfifo s event s') (steady : Steady weight s)
    (covers : Covers limit s.params width) (accepted : event.acceptedSize ≤ limit)
    (relates : Relates limit width prio watched s tags)
    (busy : ∀ k, watched k → Backlogged k s) (stays : ∀ k, watched k → Backlogged k s') :
    ∃ moves tags', Run (FinishTime.Step width) tags moves tags' ∧
      Relates limit width prio watched s' tags' ∧
      Answers weight watched s [event] s' moves := by
  obtain ⟨moves, tags', run, tracked, answers⟩ :=
    relates.moves bounded narrow step steady covers accepted busy stays
  refine ⟨moves, tags', run, ⟨balanced_step bounded step relates.balanced,
    relates.stored.step step accepted, tracked, relates.chained.run narrow.nonneg run,
    fun k isWatched => ?_⟩, answers⟩
  exact (FinishTime.finish_eq_add_advanced run (relates.linked k isWatched)
    (answers k isWatched).2).1

/-- A run during which the watched queues stay backlogged is a run of the
least-finish-tag scheduler that answers it. -/
theorem Relates.run {first last : Sys} {events : List (Event Param)}
    (relates : Relates limit width prio watched first tags) (bounded : bfifo.Bounded)
    (narrow : Narrow width) (covers : ∀ s, Steady weight s → Covers limit s.params width)
    (run : RunWithin (fun s => Steady weight s ∧ ∀ k, watched k → Backlogged k s)
      (Step bfifo) first events last)
    (accepted : ∀ event ∈ events, event.acceptedSize ≤ limit) :
    ∃ moves tags', Run (FinishTime.Step width) tags moves tags' ∧
      Relates limit width prio watched last tags' ∧
      Answers weight watched first events last moves := by
  apply RunWithin.simulate (FinishTime.Step width) (Relates limit width prio watched)
    (Answers weight watched) _ Answers.cons run accepted relates
  · intro first last event start before step after small related
    exact related.answer bounded narrow step before.1 (covers first before.1) small before.2 after.2
  · intro state k isWatched
    exact ⟨by simp [FinishTime.advanced, sentUnits], List.not_mem_nil⟩

end

/-! ### Fairness -/

/-- A qdisc just created tracks the idle scheduler. -/
theorem relates_initial (limit : Nat) (width : Fin 8 → Int) (prio : Fin 8) {start : Sys}
    (fresh : Initial start) :
    Relates limit width prio (fun _ => False) start ⟨∅, fun _ => 0, 0⟩ := by
  obtain ⟨rate, initial⟩ := fresh
  refine ⟨?_, ?_, ⟨fun i => ?_, fun i member => ?_, ?_⟩, FinishTime.chained_of_idle rfl,
    fun k isWatched => isWatched.elim⟩
  · rw [initial]
    exact balanced_wfqInit _ _
  · rw [initial]
    exact fun _ _ member => absurd member List.not_mem_nil
  · simp [initial, wfqInit, wfqChange]
  · exact absurd member (notMem_empty i)
  · rw [initial]
    rfl

/-- Units of virtual time a packet up to `limit` bytes takes. -/
def unitWidth (limit : Nat) (weight : Fin 8 → Nat) (i : Fin 8) : Int :=
  ((limit / weight i : Nat) : Int)

theorem narrow_unitWidth {limit : Nat} (small : limit ≤ 2000024) (weight : Fin 8 → Nat) :
    Narrow (unitWidth limit weight) where
  nonneg := fun i => Int.natCast_nonneg _
  total := by
    have each : ∀ i ∈ univ, unitWidth limit weight i ≤ 2000024 := by
      intro i _
      have whole := Nat.div_le_self limit (weight i)
      unfold unitWidth
      omega
    calc ∑ i, unitWidth limit weight i ≤ #(univ : Finset (Fin 8)) • (2000024 : Int) :=
          sum_le_card_nsmul _ _ _ each
      _ < 2 ^ 63 := by decide

private theorem headUnits_le {limit weight : Nat} {fifo : List Skb}
    (stored : ∀ skb ∈ fifo, skbSize skb ≤ limit) : headUnits weight fifo ≤ limit / weight := by
  cases fifo with
  | nil => exact Nat.zero_le _
  | cons skb rest => exact Nat.div_le_div_right (stored skb List.mem_cons_self)

/-- Whole units are what the rounded-off part leaves of the bytes. -/
theorem sentUnits_eq_div {Label : Type} {weight : Nat} (positive : 0 < weight) (i : Fin 8)
    (events : List (Event Label)) :
    (sentUnits weight i events : ℚ) =
      ((sentBytes i events : ℚ) - sentResidue weight i events) / weight := by
  have nonzero : (weight : ℚ) ≠ 0 := by exact_mod_cast positive.ne'
  rw [eq_div_iff nonzero, sentBytes_eq_units_add_residue weight i events]
  push_cast
  ring

/-- While two queues stay backlogged, the units they send differ by no more than twice
the widths of all queues and their own two. -/
theorem abs_sentUnits_sub_le {limit : Nat} {weight : Fin 8 → Nat} {prio i j : Fin 8}
    {first last : Sys} {interval : List (Event Param)}
    {tags tags' : FinishTime.State (Fin 8) Int} {moves : List (FinishTime.Move (Fin 8) Int)}
    (narrow : Narrow (unitWidth limit weight))
    (before : Relates limit (unitWidth limit weight) prio (fun k => k = i ∨ k = j) first tags)
    (run : Run (FinishTime.Step (unitWidth limit weight)) tags moves tags')
    (after : Relates limit (unitWidth limit weight) prio (fun k => k = i ∨ k = j) last tags')
    (answers : Answers weight (fun k => k = i ∨ k = j) first interval last moves) :
    |(sentUnits (weight i) i interval : Int) - sentUnits (weight j) j interval| ≤
      2 * ∑ k, unitWidth limit weight k + unitWidth limit weight i + unitWidth limit weight j := by
  have head : ∀ k (s : Sys), StoredWithin limit s.q →
      0 ≤ (headUnits (weight k) (s.q.queues k).qdisc : Int) ∧
        (headUnits (weight k) (s.q.queues k).qdisc : Int) ≤ unitWidth limit weight k := by
    intro k s stored
    have small := @headUnits_le limit (weight k) _ (stored k)
    unfold unitWidth
    omega
  have fair := @FinishTime.abs_sent_sub_le _ _ _ _ _ _ _ _ narrow.nonneg _ _ _ i j run
    before.chained after.chained before.linked (fun k isWatched => (answers k isWatched).2)
    (fun k => sentUnits (weight k) k interval)
    (fun k => headUnits (weight k) (first.q.queues k).qdisc)
    (fun k => headUnits (weight k) (last.q.queues k).qdisc)
    (fun k isWatched => (answers k isWatched).1) (fun k _ => head k first before.stored)
    (fun k _ => head k last after.stored)
  rwa [← two_mul] at fair

/-- **Weighted fairness.** With constant weights, two queues of one priority that stay
backlogged over an interval of a run are dequeued by byte counts that, once the division
of packet sizes by weights has rounded off its part, differ in weight units by at most
twice the largest packet in the units of every queue and in their own two, whatever else
happens in the interval. -/
theorem wfq_weighted_fairness {bfifo : Bfifo} (bounded : bfifo.Bounded) {weight : Fin 8 → Nat}
    {i j : Fin 8} {start first last : Sys} {history interval : List (Event Param)}
    (fresh : Initial start)
    (before : RunWithin (Steady weight) (Step bfifo) start history first)
    (during : RunWithin (fun s => Steady weight s ∧ Backlogged i s ∧ Backlogged j s)
      (Step bfifo) first interval last)
    (samePrio : (first.q.queues i).prio = (first.q.queues j).prio) :
    |((sentBytes i interval : ℚ) - sentResidue (weight i) i interval) / weight i -
        ((sentBytes j interval : ℚ) - sentResidue (weight j) j interval) / weight j| ≤
      2 * ∑ k, (largestSize (history ++ interval) : ℚ) / weight k +
        (largestSize (history ++ interval) : ℚ) / weight i +
        (largestSize (history ++ interval) : ℚ) / weight j := by
  set limit := largestSize (history ++ interval) with limitIs
  have positive : ∀ k, 0 < weight k := by
    intro k
    rw [← during.1.1 k]
    exact (first.params.queueWeight_range k).2.1
  have whole : Run (Step bfifo) start (history ++ interval) last := before.run.append during.run
  have narrow : Narrow (unitWidth limit weight) := by
    apply narrow_unitWidth
    exact largestSize_le (whole.forall_label (acceptedSize_le bounded))
  have covers : ∀ s, Steady weight s → Covers limit s.params (unitWidth limit weight) := by
    intro s steady k
    rw [steady k]
    exact le_rfl
  -- the history brings the scheduler to the start of the interval
  obtain ⟨joined, tags, historyRun, reached, _⟩ :=
    (relates_initial limit _ (first.q.queues i).prio fresh).run bounded narrow covers
      (before.mono fun s steady => ⟨steady, fun _ isWatched => isWatched.elim⟩)
      fun event member => acceptedSize_le_largestSize (List.mem_append_left _ member)
  have iMember := (reached.tracks.backlogged i).mpr ⟨rfl, during.1.2.1⟩
  have jMember := (reached.tracks.backlogged j).mpr ⟨samePrio.symm, during.1.2.2⟩
  have watching : Relates limit (unitWidth limit weight) (first.q.queues i).prio
      (fun k => k = i ∨ k = j) first tags :=
    ⟨reached.balanced, reached.stored, reached.tracks, reached.chained,
      by simpa using ⟨iMember, jMember⟩⟩
  -- in the interval neither queue retires
  obtain ⟨moves, tags', intervalRun, related, answers⟩ :=
    watching.run bounded narrow covers
      (during.mono fun s both => ⟨both.1, by simpa using both.2⟩)
      fun event member => acceptedSize_le_largestSize (List.mem_append_right _ member)
  have units := abs_sentUnits_sub_le narrow watching intervalRun related answers
  have unitWidth_le : ∀ k, ((unitWidth limit weight k : Int) : ℚ) ≤ (limit : ℚ) / weight k := by
    intro k
    exact_mod_cast Nat.cast_div_le
  have total : ((∑ k, unitWidth limit weight k : Int) : ℚ) ≤ ∑ k, (limit : ℚ) / weight k := by
    push_cast
    exact sum_le_sum fun k _ => unitWidth_le k
  rw [← sentUnits_eq_div (positive i), ← sentUnits_eq_div (positive j)]
  calc |(sentUnits (weight i) i interval : ℚ) - sentUnits (weight j) j interval|
      ≤ 2 * ((∑ k, unitWidth limit weight k : Int) : ℚ) + (unitWidth limit weight i : ℚ) +
          (unitWidth limit weight j : ℚ) := by exact_mod_cast units
    _ ≤ _ := by linarith [unitWidth_le i, unitWidth_le j]

/-! ### What the rounding adds up to -/

/-- The default parameters with every weight at its maximum. -/
def evenParams : Params where
  value := fun
    | .queueWeight _ => 64
    | param => paramsInit.value param
  admissible := by
    intro param
    cases param with
    | queueWeight queue =>
        show (handler (.queueWeight queue)).Admits 64
        rw [handler_queueWeight]
        decide
    | _ => exact paramsInit.admissible _

/-- A frame of queue 0 of 127 accounted bytes: one unit, and 63 bytes rounded off. -/
def lossy : Skb := ⟨103, some 0, 0, .ect0, by decide, by decide⟩

/-- A frame of queue 1 of 128 accounted bytes: two units. -/
def exactly : Skb := ⟨104, some 4, 0, .ect0, by decide, by decide⟩

/-- Two frames in either queue, at 1 Gbit/s. -/
def duelHistory : List (Event Param) :=
  [.enqueue 0 lossy .success, .enqueue 0 exactly .success, .enqueue 0 lossy .success,
    .enqueue 0 exactly .success, .dequeue 50000 (.packet 0 lossy), .enqueue 50000 lossy .success]

/-- Two lossy frames are sent for one exact one, and the queues are filled up again. -/
def duelRound (now : Int) : List (Event Param) :=
  [.dequeue (now + 20000) (.packet 0 lossy), .enqueue (now + 20000) lossy .success,
    .dequeue (now + 40000) (.packet 0 lossy), .enqueue (now + 40000) lossy .success,
    .dequeue (now + 60000) (.packet 1 exactly), .enqueue (now + 60000) exactly .success]

def duelRounds : Nat → Int → List (Event Param)
  | 0, _ => []
  | count + 1, now => duelRound now ++ duelRounds count (now + 60000)

instance (weight : Fin 8 → Nat) : DecidablePred (Steady weight) := fun s =>
  inferInstanceAs (Decidable (∀ i, s.params.queueWeight i = weight i))

def duelStart : Sys := ⟨evenParams, wfqInit 0 125000000, 0⟩

private theorem duelHistory_replays :
    (replay (Sys.next byteLimit) (Steady fun _ => 64) duelStart duelHistory).isSome = true := by
  decide

def duel : Sys :=
  (replay (Sys.next byteLimit) (Steady fun _ => 64) duelStart duelHistory).get duelHistory_replays

theorem duelRounds_replay :
    (replay (Sys.next byteLimit) (fun s => Steady (fun _ => 64) s ∧ Backlogged 0 s ∧ Backlogged 1 s)
      duel (duelRounds 19 50000)).isSome = true := by
  decide +kernel

private theorem duel_before :
    RunWithin (Steady fun _ => 64) (Step byteLimit) duelStart duelHistory duel :=
  .of_replay_isSome Sys.next_sound duelHistory_replays

private theorem duel_during :
    RunWithin (fun s => Steady (fun _ => 64) s ∧ Backlogged 0 s ∧ Backlogged 1 s) (Step byteLimit)
      duel (duelRounds 19 50000) (Option.get _ duelRounds_replay) :=
  .of_replay_isSome Sys.next_sound duelRounds_replay

private theorem duel_samePrio : (duel.q.queues 0).prio = (duel.q.queues 1).prio := by
  decide

theorem duel_weighted_fairness :
    |((sentBytes 0 (duelRounds 19 50000) : ℚ) - sentResidue 64 0 (duelRounds 19 50000)) /
          (64 : Nat) -
        ((sentBytes 1 (duelRounds 19 50000) : ℚ) - sentResidue 64 1 (duelRounds 19 50000)) /
          (64 : Nat)| ≤
      2 * ∑ _k : Fin 8, (largestSize (duelHistory ++ duelRounds 19 50000) : ℚ) / (64 : Nat) +
        (largestSize (duelHistory ++ duelRounds 19 50000) : ℚ) / (64 : Nat) +
        (largestSize (duelHistory ++ duelRounds 19 50000) : ℚ) / (64 : Nat) := by
  have fair := @wfq_weighted_fairness byteLimit byteLimit_bounded (fun _ => 64) 0 1 duelStart duel
    _ duelHistory (duelRounds 19 50000) ⟨_, rfl⟩ duel_before duel_during duel_samePrio
  beta_reduce at fair
  exact fair

/-- The bytes themselves drift apart: the rounded-off part adds up. -/
theorem sentBytes_drift :
    ¬ ∀ (weight : Fin 8 → Nat) (i j : Fin 8) (start first last : Sys)
      (history interval : List (Event Param)), Initial start →
      RunWithin (Steady weight) (Step byteLimit) start history first →
      RunWithin (fun s => Steady weight s ∧ Backlogged i s ∧ Backlogged j s) (Step byteLimit)
        first interval last →
      (first.q.queues i).prio = (first.q.queues j).prio →
      |(sentBytes i interval : ℚ) / weight i - (sentBytes j interval : ℚ) / weight j| ≤
        2 * ∑ k, (largestSize (history ++ interval) : ℚ) / weight k +
          (largestSize (history ++ interval) : ℚ) / weight i +
          (largestSize (history ++ interval) : ℚ) / weight j := by
  intro fair
  have bound := fair _ 0 1 duelStart duel _ _ _ ⟨_, rfl⟩ duel_before duel_during duel_samePrio
  have lossySent : sentBytes 0 (duelRounds 19 50000) = 19 * 254 := by decide
  have exactlySent : sentBytes 1 (duelRounds 19 50000) = 19 * 128 := by decide
  have largest : largestSize (duelHistory ++ duelRounds 19 50000) = 128 := by decide +kernel
  rw [lossySent, exactlySent, largest] at bound
  norm_num [abs_le] at bound

end MqEcn.Kernel.Wfq
