import MqEcn.Kernel.PrioWfq.Simulation

/-!
Contract: weighted fairness of `sch_prio_wfq`.

Owns: what constant weights and backlogged queues of the module are in its mirror, and the
fairness of two WFQ queues that stay backlogged, whatever the priority queue does meanwhile.

Does not own: the tags the bound comes from. They are those of `sch_wfq`.
-/

set_option autoImplicit false

namespace MqEcn.Kernel.PrioWfq

open Finset
open MqEcn.Kernel
open MqEcn.Kernel.PrioDwrr (prioId queueOf)
open MqEcn.Kernel.Wfq (Narrow Covers unitWidth)
open MqEcn.Library.Transition
open MqEcn.Library.Word

/-- Constant weights. -/
def Steady (weight : Fin 7 → Nat) (s : Sys) : Prop := ∀ i, s.params.queueWeight i = weight i

/-- The queue holds a packet. -/
def Backlogged (i : Fin 7) (s : Sys) : Prop := (s.q.wfqQueues i).qdisc ≠ []

instance (weight : Fin 7 → Nat) : DecidablePred (Steady weight) := fun s =>
  inferInstanceAs (Decidable (∀ i, s.params.queueWeight i = weight i))

instance (i : Fin 7) (s : Sys) : Decidable (Backlogged i s) :=
  inferInstanceAs (Decidable ((s.q.wfqQueues i).qdisc ≠ []))

/-! ### In the mirror -/

/-- The weights of the mirror. -/
def mirrorWeight (weight : Fin 7 → Nat) (id : Fin 8) : Nat :=
  match queueOf id with
  | .inl _ => 64
  | .inr i => weight i

@[simp] theorem mirrorWeight_prioId (weight : Fin 7 → Nat) (k : Fin 1) :
    mirrorWeight weight (prioId k) = 64 := by
  unfold mirrorWeight
  rw [PrioDwrr.queueOf_prioId]

@[simp] theorem mirrorWeight_wfqId (weight : Fin 7 → Nat) (i : Fin 7) :
    mirrorWeight weight (wfqId i) = weight i := by
  unfold mirrorWeight wfqId
  rw [PrioDwrr.queueOf_dwrrId]

/-- Both queues hold packets in the mirror, at its weights. -/
def Contend (weight : Fin 7 → Nat) (i j : Fin 7) (m : Wfq.Sys) : Prop :=
  Wfq.Steady (mirrorWeight weight) m ∧ Wfq.Backlogged (wfqId i) m ∧ Wfq.Backlogged (wfqId j) m

namespace Mirrors

variable {s : Sys} {m : Wfq.Sys} {weight : Fin 7 → Nat}

private theorem steady (mirrors : Mirrors s m) (steady : Steady weight s) :
    Wfq.Steady (mirrorWeight weight) m := by
  intro id
  rw [mirrors.params]
  show u32OfInt (weightOf s.params id) = mirrorWeight weight id
  unfold weightOf mirrorWeight
  cases queueOf id with
  | inl k => rfl
  | inr i => exact steady i

private theorem backlogged (mirrors : Mirrors s m) {i : Fin 7} (busy : Backlogged i s) :
    Wfq.Backlogged (wfqId i) m := mt (mirrors.empty_iff i).mp busy

private theorem contend {i j : Fin 7} (mirrors : Mirrors s m)
    (both : Steady weight s ∧ Backlogged i s ∧ Backlogged j s) : Contend weight i j m :=
  ⟨mirrors.steady both.1, mirrors.backlogged both.2.1, mirrors.backlogged both.2.2⟩

end Mirrors

/-! ### Fairness -/

section

variable {bfifo : Bfifo} {weight : Fin 7 → Nat} {i j : Fin 7} {start first last : Sys}
  {history interval : List (Event Param)}

/-- The units the two queues send, in the widths of the mirror. -/
theorem abs_sentUnits_sub_le (bounded : bfifo.Bounded) (fresh : Initial start)
    (before : RunWithin (Steady weight) (Step bfifo) start history first)
    (during : RunWithin (fun s => Steady weight s ∧ Backlogged i s ∧ Backlogged j s)
      (Step bfifo) first interval last) :
    |(sentUnits (weight i) (wfqId i) interval : Int) - sentUnits (weight j) (wfqId j) interval| ≤
      2 * ∑ id, unitWidth (largestSize (history ++ interval)) (mirrorWeight weight) id +
        unitWidth (largestSize (history ++ interval)) (mirrorWeight weight) (wfqId i) +
        unitWidth (largestSize (history ++ interval)) (mirrorWeight weight) (wfqId j) := by
  obtain ⟨answers, m, mirrored, kept, alike⟩ :=
    (mirrors_initial fresh).run bounded Mirrors.steady before
  obtain ⟨answers', m', mirrored', kept', alike'⟩ :=
    @Mirrors.run _ _ (Contend weight i j) _ _ _ _ bounded Mirrors.contend kept during
  set limit := largestSize (history ++ interval) with limitIs
  have sizes : largestSize (answers ++ answers') = limit := (alike.append alike').largestSize_eq
  have small : limit ≤ 2000024 := by
    rw [← sizes]
    exact largestSize_le
      ((mirrored.run.append mirrored'.run).forall_label (Wfq.acceptedSize_le byteLimit_bounded))
  have narrow := Wfq.narrow_unitWidth small (mirrorWeight weight)
  have covers : ∀ m, Wfq.Steady (mirrorWeight weight) m →
      Covers limit m.params (unitWidth limit (mirrorWeight weight)) := by
    intro m steady k
    rw [steady k]
    exact le_rfl
  -- the history brings the tags of priority 1 to the start of the interval
  obtain ⟨moves, tags, _, reached, _⟩ :=
    (Wfq.relates_initial limit _ 1 (mirrorOf_initial start)).run byteLimit_bounded narrow covers
      (mirrored.mono fun m steady => ⟨steady, fun _ isWatched => isWatched.elim⟩)
      fun event member => sizes ▸ acceptedSize_le_largestSize (List.mem_append_left _ member)
  have prio : ∀ k, Backlogged k first → wfqId k ∈ tags.backlogged := by
    intro k busy
    have busy' := kept.backlogged busy
    exact (reached.tracks.backlogged _).mpr
      ⟨(kept.prio _ busy').trans (prioOf_wfqId k), busy'⟩
  have watching : Wfq.Relates limit (unitWidth limit (mirrorWeight weight)) 1
      (fun id => id = wfqId i ∨ id = wfqId j) m tags :=
    ⟨reached.balanced, reached.stored, reached.tracks, reached.chained,
      by simpa using ⟨prio i during.1.2.1, prio j during.1.2.2⟩⟩
  -- in the interval neither queue retires
  obtain ⟨moves', tags', run, related, answered⟩ :=
    watching.run byteLimit_bounded narrow covers
      (mirrored'.mono fun m contend => ⟨contend.1, by simpa using contend.2⟩)
      fun event member => sizes ▸ acceptedSize_le_largestSize (List.mem_append_right _ member)
  have units := Wfq.abs_sentUnits_sub_le narrow watching run related answered
  rwa [mirrorWeight_wfqId, mirrorWeight_wfqId, alike'.sentUnits_eq, alike'.sentUnits_eq] at units

/-- **Weighted fairness.** With constant weights, two WFQ queues that stay backlogged over an
interval of a run are dequeued by byte counts that, once the division of packet sizes by
weights has rounded off its part, differ in weight units by at most twice the largest packet in
the units of every WFQ queue and of these two once more, whatever the priority queue sends in
between. -/
theorem prioWfq_weighted_fairness (bounded : bfifo.Bounded) (fresh : Initial start)
    (before : RunWithin (Steady weight) (Step bfifo) start history first)
    (during : RunWithin (fun s => Steady weight s ∧ Backlogged i s ∧ Backlogged j s)
      (Step bfifo) first interval last) :
    |((sentBytes (wfqId i) interval : ℚ) - sentResidue (weight i) (wfqId i) interval) / weight i -
        ((sentBytes (wfqId j) interval : ℚ) - sentResidue (weight j) (wfqId j) interval) /
          weight j| ≤
      2 * (∑ k, (largestSize (history ++ interval) : ℚ) / weight k +
        (largestSize (history ++ interval) : ℚ) / weight i +
        (largestSize (history ++ interval) : ℚ) / weight j) := by
  have units := abs_sentUnits_sub_le bounded fresh before during
  set limit := largestSize (history ++ interval)
  have range : ∀ k, 0 < weight k ∧ weight k ≤ 64 := by
    intro k
    rw [← during.1.1 k]
    exact (queueWeight_range first.params k).2
  have own : ∀ k, ((unitWidth limit (mirrorWeight weight) (wfqId k) : Int) : ℚ) ≤
      (limit : ℚ) / weight k := by
    intro k
    unfold unitWidth
    rw [mirrorWeight_wfqId]
    exact_mod_cast Nat.cast_div_le
  -- the width of the priority queue is no more than that of any other
  have prio : ∀ k, ((unitWidth limit (mirrorWeight weight) (prioId 0) : Int) : ℚ) ≤
      (limit : ℚ) / weight k := by
    intro k
    refine le_trans ?_ (own k)
    unfold unitWidth
    rw [mirrorWeight_wfqId, mirrorWeight_prioId]
    exact_mod_cast Nat.div_le_div_left (range k).2 (range k).1
  have total : ((∑ id, unitWidth limit (mirrorWeight weight) id : Int) : ℚ) ≤
      ((unitWidth limit (mirrorWeight weight) (prioId 0) : Int) : ℚ) +
        ∑ k, (limit : ℚ) / weight k := by
    rw [Fin.sum_univ_succ]
    push_cast
    exact add_le_add le_rfl (sum_le_sum fun k _ => own k)
  rw [← Wfq.sentUnits_eq_div (range i).1, ← Wfq.sentUnits_eq_div (range j).1]
  calc |(sentUnits (weight i) (wfqId i) interval : ℚ) - sentUnits (weight j) (wfqId j) interval|
      ≤ 2 * ((∑ id, unitWidth limit (mirrorWeight weight) id : Int) : ℚ) +
          (unitWidth limit (mirrorWeight weight) (wfqId i) : ℚ) +
          (unitWidth limit (mirrorWeight weight) (wfqId j) : ℚ) := by exact_mod_cast units
    _ ≤ _ := by linarith [own i, own j, prio i, prio j]

end

/-! ### Two backlogged queues behind a priority frame -/

/-- Two frames for either WFQ queue, and one for the priority queue. -/
def rivalHistory : List (Event Param) :=
  [.enqueue 10 (fullFrame 4) .success, .enqueue 20 (fullFrame 8) .success,
    .enqueue 30 (fullFrame 4) .success, .enqueue 40 (fullFrame 8) .success,
    .enqueue 50 (fullFrame 0) .success]

/-- The priority frame leaves first, the next dequeue is refused, and one frame of a WFQ queue
leaves. -/
def rivalInterval : List (Event Param) :=
  [.dequeue 20000 (.packet 0 (fullFrame 0)), .dequeue 20010 (.throttled 24608),
    .dequeue 40000 (.packet 1 (fullFrame 4))]

private theorem rivalHistory_replays :
    (replay (Sys.next byteLimit) (Steady fun _ => 1) idle rivalHistory).isSome = true := by
  decide

/-- The state the history leads to. -/
def rivals : Sys :=
  (replay (Sys.next byteLimit) (Steady fun _ => 1) idle rivalHistory).get rivalHistory_replays

private theorem rivalInterval_replays :
    (replay (Sys.next byteLimit) (fun s => Steady (fun _ => 1) s ∧ Backlogged 0 s ∧ Backlogged 1 s)
      rivals rivalInterval).isSome = true := by
  decide

theorem rivals_weighted_fairness :
    |((sentBytes (wfqId 0) rivalInterval : ℚ) - sentResidue 1 (wfqId 0) rivalInterval) / (1 : Nat) -
        ((sentBytes (wfqId 1) rivalInterval : ℚ) - sentResidue 1 (wfqId 1) rivalInterval) /
          (1 : Nat)| ≤
      2 * (∑ _k : Fin 7, (largestSize (rivalHistory ++ rivalInterval) : ℚ) / (1 : Nat) +
        (largestSize (rivalHistory ++ rivalInterval) : ℚ) / (1 : Nat) +
        (largestSize (rivalHistory ++ rivalInterval) : ℚ) / (1 : Nat)) :=
  @prioWfq_weighted_fairness byteLimit (fun _ => 1) 0 1 idle rivals _ rivalHistory rivalInterval
    byteLimit_bounded ⟨_, rfl⟩ (.of_replay_isSome Sys.next_sound rivalHistory_replays)
    (.of_replay_isSome Sys.next_sound rivalInterval_replays)

end MqEcn.Kernel.PrioWfq
