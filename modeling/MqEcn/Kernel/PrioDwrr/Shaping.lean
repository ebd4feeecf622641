import MqEcn.Kernel.PrioDwrr.Bookkeeping

/-!
Contract: the token bucket of `sch_prio_dwrr`.

Owns: the reading of the qdisc as a bucket, the sign of the carried tokens, the state a
throttled dequeue stops in, and the times from which the two dequeue paths return the
packet they stopped at.

Does not own: the bucket itself.
-/

set_option autoImplicit false

namespace MqEcn.Kernel.PrioDwrr

open MqEcn.Kernel
open MqEcn.Library
open MqEcn.Library.Transition
open Relation (ReflTransGen)

/-- The carried tokens and the time of the last packet. -/
def bucket (q : PrioDwrrSchedData) : TokenBucket.Bucket := ⟨q.tokens, q.timeNs⟩

/-- A constant rate and a constant positive bucket. -/
def Shaped (rate : RateCfg) (bucketNs : Int) (s : Sys) : Prop :=
  s.q.rate = rate ∧ s.params.value .bucketNs = bucketNs ∧ 0 < bucketNs

instance (rate : RateCfg) (bucketNs : Int) : DecidablePred (Shaped rate bucketNs) :=
  fun _ => inferInstanceAs (Decidable (_ ∧ _ ∧ _))

/-- What the qdisc refills its tokens to is the level of the bucket. -/
theorem refilled_eq_level (params : Params) (now : Int) (q : PrioDwrrSchedData) :
    refilled params now q = TokenBucket.level (params.value .bucketNs) (bucket q) now := rfl

/-! ### Conformance -/

/-- Rotations leave the bucket and the rate alone. -/
theorem bucket_of_rotations {params : Params} {now : Int} {q middle : PrioDwrrSchedData}
    (rotations : ReflTransGen (Rotates params now) q middle) :
    bucket middle = bucket q ∧ middle.rate = q.rate := by
  induction rotations with
  | refl => exact ⟨rfl, rfl⟩
  | tail _ last inductionHypothesis =>
      cases last with
      | intro =>
          rw [← inductionHypothesis.1, ← inductionHypothesis.2, refresh_eq]
          exact ⟨rfl, rfl⟩

/-- Each event of the qdisc pays for what it returns. -/
theorem pays_of_step {bfifo : Bfifo} {rate : RateCfg} {bucketNs : Int} {s s' : Sys}
    {event : Event Param} (step : Step bfifo s event s') (shaped : Shaped rate bucketNs s)
    (past : s.q.timeNs ≤ s.clock) :
    TokenBucket.Pays bucketNs (bucket s.q) (event.spending rate) (bucket s'.q) ∧
      s'.q.timeNs ≤ s'.clock := by
  obtain ⟨rfl, rfl, _⟩ := shaped
  cases step with
  | @enqueue now skb q' ret later returns =>
      obtain ⟨roundTimeNs, quantumSumEstimate, reset⟩ := exists_idleReset_eq s.params now s.q
      have same : bucket (idleReset s.params now s.q) = bucket s.q := by
        rw [reset]
        rfl
      rw [← same]
      cases qdiscEnqueue_cases returns with
      | refused | prio | dwrr =>
          refine ⟨rfl, ?_⟩
          show (bucket (idleReset s.params now s.q)).time ≤ now
          rw [same]
          exact past.trans later
  | @dequeue now fuel q' outcome later returns =>
      cases qdiscDequeue_cases returns with
      | prio busy ends =>
          cases ends with
          | null | throttled => exact ⟨rfl, past.trans later⟩
          | packet found front enough marker =>
              refine ⟨?_, le_rfl⟩
              show TokenBucket.Pays _ _ (some (now, _)) _
              rw [skbSize_eq_of_len_eq marker.len_eq]
              exact ⟨past.trans later, sub_nonneg.mpr enough, rfl⟩
      | @dwrr middle idle active rotations exit =>
          obtain ⟨same, sameRate⟩ := bucket_of_rotations rotations
          have middlePast : (bucket middle).time ≤ now := by
            rw [same]
            exact past.trans later
          rw [← same, ← sameRate]
          cases exit with
          | fault => exact ⟨rfl, middlePast⟩
          | null | throttled =>
              rw [refresh_eq]
              exact ⟨rfl, middlePast⟩
          | @packet i ring skb marked rest head front affordable enough marker =>
              refine ⟨?_, le_rfl⟩
              show TokenBucket.Pays _ _ (some (now, _)) _
              rw [skbSize_eq_of_len_eq marker.len_eq]
              refine ⟨middlePast, sub_nonneg.mpr enough.le, ?_⟩
              unfold transmit
              simp only [refresh_rate]
              rfl
      | idle idle inactive stays nothing =>
          rw [stays, nothing]
          exact ⟨rfl, past.trans later⟩
  | sysctl | change => exact ⟨rfl, past⟩

/-- The bucket starts empty. -/
theorem bucket_of_initial {s : Sys} (fresh : Initial s) :
    (bucket s.q).time ≤ s.clock ∧ (bucket s.q).tokens = 0 := by
  obtain ⟨rate, initial⟩ := fresh
  rw [initial]
  exact ⟨le_rfl, rfl⟩

private theorem tokens_nonneg {bfifo : Bfifo} {rate : RateCfg} {bucketNs : Int} {start s : Sys}
    {events : List (Event Param)} (fresh : Initial start)
    (run : RunWithin (Shaped rate bucketNs) (Step bfifo) start events s) : 0 ≤ s.q.tokens :=
  tokens_nonneg_of_pays bucket run pays_of_step (bucket_of_initial fresh) run.1.2.2.le

/-- Over every window, the packets returned take at most two buckets and the window. -/
theorem airtimeWithin_le {bfifo : Bfifo} {rate : RateCfg} {bucketNs : Int} {start s : Sys}
    {events : List (Event Param)} (fresh : Initial start)
    (run : RunWithin (Shaped rate bucketNs) (Step bfifo) start events s) {opens closes : Int}
    (ordered : opens ≤ closes) :
    airtimeWithin rate opens closes events ≤ 2 * bucketNs + (closes - opens) :=
  airtimeWithin_le_of_pays bucket run pays_of_step (bucket_of_initial fresh) run.1.2.2.le ordered

/-! ### The state a throttled dequeue stops in -/

/-- No packet of a priority queue goes first, and the loop would stop at the head `skb` of
queue `i` without a rotation. -/
structure Parked (q : PrioDwrrSchedData) (i : Fin 7) (skb : Skb) : Prop where
  idle : q.sumPrioLenBytes = 0
  head : ∃ ring, q.activeList = i :: ring
  visited : (q.dwrrQueues i).curr = true
  front : ∃ rest, (q.dwrrQueues i).qdisc = skb :: rest
  affordable : skbSize skb ≤ (q.dwrrQueues i).deficitCounter

/-- What is due strictly after its time: the test of `dwrr_queues_dequeue` is `toks >
pkt_ns`. -/
theorem Parked.answers {params : Params} {q : PrioDwrrSchedData} {i : Fin 7} {skb : Skb}
    (parked : Parked q i skb) (now : Int) {fuel : Nat} (positive : 0 < fuel) :
    (refilled params now q ≤ l2tNs q.rate (skbSize skb) →
      qdiscDequeue params now fuel q =
        some (q, .throttled (now + l2tNs q.rate (skbSize skb) - refilled params now q))) ∧
    (l2tNs q.rate (skbSize skb) < refilled params now q →
      ∃ q' returned, qdiscDequeue params now fuel q = some (q', .packet (dwrrId i) returned) ∧
        MarkedFrom skb returned) := by
  obtain ⟨spare, rfl⟩ := Nat.exists_eq_add_of_le' positive
  obtain ⟨ring, head⟩ := parked.head
  obtain ⟨rest, front⟩ := parked.front
  have stays : refresh i q = q := by
    unfold refresh
    rw [if_pos parked.visited]
  have idle : ¬0 < q.sumPrioLenBytes := by
    rw [parked.idle]
    exact lt_irrefl 0
  have active : q.activeList ≠ [] := by
    rw [head]
    exact List.cons_ne_nil i ring
  have answer : qdiscDequeue params now (spare + 1) q =
      dwrrQueuesLoop params now (spare + 1) q := by
    unfold qdiscDequeue dwrrQueuesDequeue
    rw [if_neg idle, if_pos active, if_neg active]
  rw [answer]
  unfold dwrrQueuesLoop
  simp only [head, stays, front, peek, dequeuePeeked, List.head?_cons, if_pos parked.affordable]
  constructor
  · intro short
    rw [if_neg (not_lt.mpr short)]
  · intro enough
    rw [if_pos enough]
    exact ⟨_, _, rfl, dequeueMarking_markedFrom _ _ _ _⟩

private theorem parked_of_exits {params : Params} {now : Int} {q q' : PrioDwrrSchedData}
    {expires : Int} (idle : q.sumPrioLenBytes = 0)
    (exit : Exits params now q q' (.throttled expires)) :
    ∃ i skb, Parked q' i skb ∧ refilled params now q' ≤ l2tNs q'.rate (skbSize skb) ∧
      expires = now + l2tNs q'.rate (skbSize skb) - refilled params now q' ∧
        bucket q' = bucket q ∧ q'.rate = q.rate := by
  cases exit with
  | @throttled i ring skb rest head front affordable short =>
      refine ⟨i, skb, ⟨?_, ⟨ring, ?_⟩, ?_, ⟨rest, ?_⟩, ?_⟩, ?_, ?_, ?_, refresh_rate i q⟩
      · rw [refresh_eq]
        exact idle
      · rw [refresh_activeList]
        exact head
      · rw [refresh_visited]
        rfl
      · rw [refresh_qdisc]
        exact front
      · rw [refresh_visited]
        exact affordable
      · rw [refilled_refresh, refresh_rate]
        exact short
      · rw [refilled_refresh, refresh_rate]
      · rw [refresh_eq]
        rfl

/-! ### The timer -/

/-- A priority queue returns its packet from the time its timer was armed for. -/
theorem prio_throttled_until {bfifo : Bfifo} {rate : RateCfg} {bucketNs : Int} {start s : Sys}
    {events : List (Event Param)} (fresh : Initial start)
    (run : RunWithin (Shaped rate bucketNs) (Step bfifo) start events s)
    (busy : 0 < s.q.sumPrioLenBytes) {now : Int} {fuel : Nat} {q' : PrioDwrrSchedData}
    {expires : Int}
    (returns : qdiscDequeue s.params now fuel s.q = some (q', .throttled expires)) :
    ∃ k skb, prioQueuesPeek q' = some skb ∧
      ((l2tNs rate (skbSize skb) : Int) ≤ bucketNs → ∀ t fuel,
        (t < expires → qdiscDequeue s.params t fuel q' = some (q', .throttled expires)) ∧
        (expires ≤ t → ∃ q'' returned,
          qdiscDequeue s.params t fuel q' = some (q'', .packet (prioId k) returned) ∧
            MarkedFrom skb returned)) := by
  have tokens := tokens_nonneg fresh run
  obtain ⟨rfl, rfl, _⟩ := run.good_last
  cases qdiscDequeue_cases returns with
  | prio busy ends =>
      cases ends with
      | @throttled skb found short =>
          obtain ⟨k, rest, front, takes⟩ := prioQueuesPeek_eq_some found
          refine ⟨k, skb, found, fun covered t fuel => ?_⟩
          obtain ⟨before, after⟩ := @TokenBucket.level_timer _ (bucket s.q) now _ tokens covered
            short _ rfl t
          simp only [← refilled_eq_level] at before after
          simp only [qdiscDequeue, if_pos busy, prioQueuesDequeue, found, takes]
          constructor
          · intro early
            obtain ⟨again, same⟩ := before early
            rw [if_neg (not_le.mpr (sub_neg.mpr again)), same]
          · intro late
            rw [if_pos (sub_nonneg.mpr (after late))]
            exact ⟨_, _, rfl, dequeueMarking_markedFrom _ _ _ _⟩
  | dwrr idle | idle idle => omega

/-- A DWRR queue is throttled again at the very time its timer was armed for, and returns its
packet at every later time. -/
theorem throttled_past_timer {bfifo : Bfifo} {rate : RateCfg} {bucketNs : Int} {start s : Sys}
    {events : List (Event Param)} (fresh : Initial start)
    (run : RunWithin (Shaped rate bucketNs) (Step bfifo) start events s)
    (noPrio : ∀ k, (s.q.prioQueues k).qdisc = []) {now : Int} {fuel : Nat}
    {q' : PrioDwrrSchedData} {expires : Int}
    (returns : qdiscDequeue s.params now fuel s.q = some (q', .throttled expires)) :
    ∃ i skb, Parked q' i skb ∧
      ((l2tNs rate (skbSize skb) : Int) < bucketNs → ∀ t, ∀ fuel > 0,
        (t ≤ expires → qdiscDequeue s.params t fuel q' = some (q', .throttled expires)) ∧
        (expires < t → ∃ q'' returned,
          qdiscDequeue s.params t fuel q' = some (q'', .packet (dwrrId i) returned) ∧
            MarkedFrom skb returned)) := by
  have tokens := tokens_nonneg fresh run
  obtain ⟨rfl, rfl, _⟩ := run.good_last
  cases qdiscDequeue_cases returns with
  | prio busy ends =>
      cases ends with
      | @throttled skb found short =>
          obtain ⟨k, rest, front, _⟩ := prioQueuesPeek_eq_some found
          rw [noPrio k] at front
          cases front
  | @dwrr middle idle active rotations exit =>
      obtain ⟨same, sameRate⟩ := bucket_of_rotations rotations
      have middleIdle : middle.sumPrioLenBytes = 0 := by
        rw [← idle]
        exact congrFun (congrArg Ledger.prioLenBytes (view_of_rotations 0 rotations)) 0
      obtain ⟨i, skb, parked, short, expiry, sameBucket, rate⟩ := parked_of_exits middleIdle exit
      refine ⟨i, skb, parked, fun covered t fuel positive => ?_⟩
      rw [← sameRate, ← rate] at covered
      have carried : 0 ≤ q'.tokens := by
        have equal := congrArg TokenBucket.Bucket.tokens (sameBucket.trans same)
        rw [show q'.tokens = s.q.tokens from equal]
        exact tokens
      obtain ⟨before, after⟩ := @TokenBucket.level_timer_strict _ (bucket q') now _ carried covered
        short _ expiry.symm t
      obtain ⟨throttles, sends⟩ := @Parked.answers s.params q' i skb parked t fuel positive
      constructor
      · intro early
        obtain ⟨again, same⟩ := before early
        rw [throttles again, refilled_eq_level, same]
      · intro late
        exact sends (after late)
  | idle idle inactive stays nothing => cases nothing

end MqEcn.Kernel.PrioDwrr
