import MqEcn.Kernel.Dwrr.Loop

/-!
Contract: the token bucket of `sch_dwrr`.

Owns: the reading of the qdisc as a bucket that each returned packet spends from, the
bound this puts on every time window, and the exact condition under which waiting lets a
dequeue return a packet.

Does not own: the bucket itself.
-/

set_option autoImplicit false

namespace MqEcn.Kernel.Dwrr

open MqEcn.Kernel
open MqEcn.Library
open MqEcn.Library.Transition
open Relation (ReflTransGen)

/-- The carried tokens and the time of the last packet. -/
def bucket (q : DwrrSchedData) : TokenBucket.Bucket := ⟨q.tokens, q.timeNs⟩

/-- Constant rate and bucket. -/
def Shaped (rate : RateCfg) (bucketBytes : Int) (s : Sys) : Prop :=
  s.q.rate = rate ∧ s.params.value .bucket = bucketBytes

instance (rate : RateCfg) (bucketBytes : Int) : DecidablePred (Shaped rate bucketBytes) :=
  fun _ => inferInstanceAs (Decidable (_ ∧ _))

/-- `tbf_schedule` is what the bucket has remaining. -/
theorem tbfSchedule_eq_remaining (params : Params) (len : Nat) (q : DwrrSchedData) (now : Int) :
    tbfSchedule params len q now =
      TokenBucket.remaining (bucketNs q.rate (params.value .bucket)) (bucket q) now
        (l2tNs q.rate len) :=
  Kernel.tbfSchedule_eq_remaining _ _ _ _ _ _

/-! ### Conformance -/

theorem bucket_of_rotations {params : Params} {prio : Fin 8} {q middle : DwrrSchedData}
    (rotations : ReflTransGen (Rotates params prio) q middle) :
    bucket middle = bucket q ∧ middle.rate = q.rate := by
  induction rotations with
  | refl => exact ⟨rfl, rfl⟩
  | tail _ last inductionHypothesis =>
      cases last with
      | intro => exact inductionHypothesis

/-- Only a returned packet changes the bucket, and it spends its transmission time. -/
theorem pays_of_step {bfifo : Bfifo} {s s' : Sys} {event : Event Param}
    (step : Step bfifo s event s') (past : s.q.timeNs ≤ s.clock) :
    TokenBucket.Pays (bucketNs s.q.rate (s.params.value .bucket)) (bucket s.q)
      (event.spending s.q.rate) (bucket s'.q) ∧ s'.q.timeNs ≤ s'.clock := by
  cases step with
  | enqueue later returns =>
      obtain ⟨roundTime, ⟨_, rfl⟩ | ⟨_, _, rfl⟩⟩ := dwrrEnqueue_cases returns
      · exact ⟨rfl, past.trans later⟩
      · exact ⟨rfl, past.trans later⟩
  | @dequeue now fuel q' outcome later returns =>
      rcases dwrrDequeue_cases returns with ⟨_, rfl, rfl⟩ | ⟨prio, middle, _, rotations, exit⟩
      · exact ⟨rfl, past.trans later⟩
      · obtain ⟨same, sameRate⟩ := bucket_of_rotations rotations
        have sameTime : middle.timeNs = s.q.timeNs := congrArg TokenBucket.Bucket.time same
        rw [← same, ← sameRate]
        cases exit with
        | fault | null | throttled => exact ⟨rfl, by rw [sameTime]; exact past.trans later⟩
        | @packet i ring skb rest head front affordable enough =>
            have size := skbSize_eq_of_len_eq (dwrrTransmit_markedFrom s.params now prio i skb rest
              (tbfSchedule s.params (skbSize skb) middle now) middle).len_eq
            rw [tbfSchedule_eq_remaining] at enough
            simp only [Event.spending, size]
            refine ⟨⟨?_, enough, rfl⟩, le_rfl⟩
            exact sameTime.trans_le (past.trans later)
  | sysctl => exact ⟨rfl, past⟩
  | change => exact ⟨rfl, past⟩

/-- The bucket starts empty. -/
theorem bucket_of_initial {s : Sys} (fresh : Initial s) :
    (bucket s.q).time ≤ s.clock ∧ (bucket s.q).tokens = 0 := by
  obtain ⟨rate, initial⟩ := fresh
  rw [initial]
  exact ⟨le_rfl, rfl⟩

theorem tokens_nonneg {bfifo : Bfifo} {s : Sys} (reachable : Reachable bfifo s) :
    s.q.timeNs ≤ s.clock ∧ 0 ≤ s.q.tokens :=
  TokenBucket.tokens_nonneg_of_reachable (fun s : Sys => bucket s.q) Qdisc.clock
    (fun s => bucketNs s.q.rate (s.params.value .bucket)) (fun s => Event.spending s.q.rate)
    reachable (fun _ => Int.natCast_nonneg _) bucket_of_initial pays_of_step

/-- Over every window, the packets returned take at most two buckets and the window. -/
theorem airtimeWithin_le {bfifo : Bfifo} {rate : RateCfg} {bucketBytes : Int} {start last : Sys}
    {events : List (Event Param)} (fresh : Initial start)
    (run : RunWithin (Shaped rate bucketBytes) (Step bfifo) start events last)
    {opens closes : Int} (ordered : opens ≤ closes) :
    airtimeWithin rate opens closes events ≤ 2 * bucketNs rate bucketBytes + (closes - opens) := by
  apply airtimeWithin_le_of_pays bucket run _ (bucket_of_initial fresh) (Int.natCast_nonneg _)
    ordered
  intro s s' event step shaped past
  obtain ⟨rfl, rfl⟩ := shaped
  exact pays_of_step step past

/-! ### Waiting -/

/-- A dequeue not before the last operation, with none in between, returns a packet. -/
def Sendable (s : Sys) : Prop :=
  ∃ now fuel q' i skb, s.clock ≤ now ∧
    dwrrDequeue s.params now fuel s.q = some (q', .packet i skb)

/-- The loop makes its rotations whatever the clock. -/
theorem dwrrDequeueLoop_of_rotations {params : Params} {prio : Fin 8} {q middle : DwrrSchedData}
    (rotations : ReflTransGen (Rotates params prio) q middle) :
    ∃ count, ∀ now fuel, dwrrDequeueLoop params now prio (count + fuel) q =
      dwrrDequeueLoop params now prio fuel middle := by
  induction rotations using Relation.ReflTransGen.head_induction_on with
  | refl => exact ⟨0, fun now fuel => by rw [Nat.zero_add]⟩
  | head first _ inductionHypothesis =>
      obtain ⟨count, same⟩ := inductionHypothesis
      refine ⟨count + 1, fun now fuel => ?_⟩
      rw [← same now fuel, Nat.add_right_comm]
      cases first with
      | @intro i ring skb rest head front blocked =>
          conv_lhs => unfold dwrrDequeueLoop
          simp only [head, front, if_neg (not_le.mpr blocked)]

section

variable {params : Params} {q : DwrrSchedData} {i : Fin 8} {skb : Skb}

/-- With enough fuel the selected head is what a dequeue returns or is short of tokens
for. -/
theorem Selected.returns (selected : Selected params q i skb) :
    ∃ count, ∀ now, ∀ fuel > count,
      (tbfSchedule params (skbSize skb) q now < 0 →
        ∃ expires q', dwrrDequeue params now fuel q = some (q', .throttled expires)) ∧
      (0 ≤ tbfSchedule params (skbSize skb) q now →
        ∃ q' returned, dwrrDequeue params now fuel q = some (q', .packet i returned)) := by
  obtain ⟨prio, middle, ring, rest, scheduled, rotations, head, front, affordable⟩ := selected
  obtain ⟨count, same⟩ := dwrrDequeueLoop_of_rotations rotations
  rw [← qdisc_of_view (view_of_rotations rotations)] at front
  refine ⟨count, fun now fuel more => ?_⟩
  obtain ⟨spare, rfl⟩ := Nat.exists_eq_add_of_lt more
  have answer : dwrrDequeue params now (count + spare + 1) q =
      dwrrDequeueLoop params now prio (spare + 1) middle := by
    simp only [dwrrDequeue, scheduled]
    exact same now (spare + 1)
  rw [answer, ← tbfSchedule_of_rotations rotations]
  unfold dwrrDequeueLoop
  simp only [head, front, if_pos affordable]
  constructor
  · intro short
    exact ⟨_, _, by rw [if_pos short]⟩
  · intro enough
    exact ⟨_, _, by rw [if_neg (not_lt.mpr enough)]⟩

end

/-- Waiting helps exactly when the carried tokens and one bucket cover the selected
head. -/
theorem Selected.sendable_iff {s : Sys} {i : Fin 8} {skb : Skb}
    (selected : Selected s.params s.q i skb) :
    Sendable s ↔ (l2tNs s.q.rate (skbSize skb) : Int) ≤
      s.q.tokens + bucketNs s.q.rate (s.params.value .bucket) := by
  obtain ⟨count, answers⟩ := selected.returns
  have affordable := @TokenBucket.affordable_iff (bucketNs s.q.rate (s.params.value .bucket))
    (bucket s.q) s.clock (l2tNs s.q.rate (skbSize skb))
  simp only [← tbfSchedule_eq_remaining] at affordable
  apply Iff.trans _ affordable
  constructor
  · intro sendable
    obtain ⟨now, fuel, q', k, returned, later, returns⟩ := sendable
    refine ⟨now, later, ?_⟩
    by_contra short
    obtain ⟨expires, q'', throttled⟩ :=
      (answers now (max fuel (count + 1)) (by omega)).1 (not_le.mp short)
    rw [dwrrDequeue_mono returns (le_max_left _ _)] at throttled
    cases throttled
  · intro waited
    obtain ⟨now, later, enough⟩ := waited
    obtain ⟨q', returned, returns⟩ := (answers now (count + 1) (by omega)).2 enough
    exact ⟨now, count + 1, q', i, returned, later, returns⟩

/-- A qdisc that holds a packet selects one. -/
theorem exists_selected {bfifo : Bfifo} (bounded : bfifo.Bounded) {s : Sys}
    (reachable : Reachable bfifo s) (dwrr : s.params.value .enableWrr = 0)
    (busy : ∃ i, (s.q.queues i).qdisc ≠ []) : ∃ i skb, Selected s.params s.q i skb := by
  have within := storedWithin_of_balanced (balanced_of_reachable bounded reachable)
  obtain ⟨fuel, ⟨q', outcome⟩, returns⟩ := dwrrDequeue_returns dwrr (by decide) s.clock within
  have conserving := workConserving (linked_of_reachable reachable) (returns fuel le_rfl)
  cases outcome with
  | fault => exact conserving.elim
  | null =>
      obtain ⟨i, nonempty⟩ := busy
      exact absurd (conserving i) nonempty
  | throttled expires =>
      obtain ⟨i, skb, selected, _⟩ := conserving
      exact ⟨i, skb, selected⟩
  | packet i returned =>
      obtain ⟨skb, rest, selected, _⟩ := conserving
      exact ⟨i, skb, selected⟩

end MqEcn.Kernel.Dwrr
