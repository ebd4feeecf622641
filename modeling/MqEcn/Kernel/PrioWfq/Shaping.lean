import MqEcn.Kernel.PrioWfq.Step

/-!
Contract: the token bucket of `sch_prio_wfq`.

Owns: the reading of the qdisc as a bucket, the sign of the carried tokens, and the times
from which the two dequeue paths return the packet they were throttled on.

Does not own: the bucket itself.
-/

set_option autoImplicit false

namespace MqEcn.Kernel.PrioWfq

open MqEcn.Kernel
open MqEcn.Kernel.PrioDwrr (prioId peek dequeuePeeked)
open MqEcn.Library
open MqEcn.Library.Transition

/-- The carried tokens and the time of the last packet. -/
def bucket (q : PrioWfqSchedData) : TokenBucket.Bucket := ⟨q.tokens, q.timeNs⟩

/-- A constant rate and a constant positive bucket. -/
def Shaped (rate : RateCfg) (bucketNs : Int) (s : Sys) : Prop :=
  s.q.rate = rate ∧ s.params.value .bucketNs = bucketNs ∧ 0 < bucketNs

instance (rate : RateCfg) (bucketNs : Int) : DecidablePred (Shaped rate bucketNs) :=
  fun _ => inferInstanceAs (Decidable (_ ∧ _ ∧ _))

/-- What the qdisc refills its tokens to is the level of the bucket. -/
theorem refilled_eq_level (params : Params) (now : Int) (q : PrioWfqSchedData) :
    refilled params now q = TokenBucket.level (params.value .bucketNs) (bucket q) now := rfl

/-! ### Conformance -/

/-- Storing a packet leaves the bucket and the rate. -/
theorem bucket_stampFirst (params : Params) (len : Nat) (i : Fin 7) (q : PrioWfqSchedData) :
    bucket (stampFirst params len i q) = bucket q := by
  unfold stampFirst
  simp only
  split
  · rfl
  · rfl

/-- Each event of the qdisc pays for what it returns. -/
theorem pays_of_step {bfifo : Bfifo} {rate : RateCfg} {bucketNs : Int} {s s' : Sys}
    {event : Event Param} (step : Step bfifo s event s') (shaped : Shaped rate bucketNs s)
    (past : s.q.timeNs ≤ s.clock) :
    TokenBucket.Pays bucketNs (bucket s.q) (event.spending rate) (bucket s'.q) ∧
      s'.q.timeNs ≤ s'.clock := by
  obtain ⟨rfl, rfl, _⟩ := shaped
  cases step with
  | @enqueue now skb q' ret later returns =>
      cases qdiscEnqueue_cases returns with
      | refused | prio => exact ⟨rfl, past.trans later⟩
      | @wfq i target accepted =>
          have same := bucket_stampFirst s.params (skbSize skb) i s.q
          refine ⟨same, ?_⟩
          exact (congrArg TokenBucket.Bucket.time same).trans_le (past.trans later)
  | @dequeue now q' outcome later returns =>
      cases outcome with
      | packet id returned =>
          cases qdiscDequeue_sends returns with
          | @prio i skb rest busy front enough =>
              refine ⟨?_, le_rfl⟩
              show TokenBucket.Pays _ _ (some (now, _)) _
              rw [skbSize_eq_of_len_eq (dequeueMarking_markedFrom s.params now skb s.q).len_eq]
              exact ⟨past.trans later, sub_nonneg.mpr enough, rfl⟩
          | @wfq i skb rest idle found front enough =>
              refine ⟨?_, le_rfl⟩
              show TokenBucket.Pays _ _ (some (now, _)) _
              rw [skbSize_eq_of_len_eq (dequeueMarking_markedFrom s.params now skb _).len_eq]
              exact ⟨past.trans later, sub_nonneg.mpr enough.le, rfl⟩
      | null | throttled | fault =>
          rw [qdiscDequeue_stays returns (by simp)]
          exact ⟨rfl, past.trans later⟩
  | sysctl | change => exact ⟨rfl, past⟩

/-- The bucket starts empty. -/
theorem bucket_of_initial {s : Sys} (fresh : Initial s) :
    (bucket s.q).time ≤ s.clock ∧ (bucket s.q).tokens = 0 := by
  obtain ⟨rate, initial⟩ := fresh
  rw [initial]
  exact ⟨le_rfl, rfl⟩

private theorem tokens_nonneg {bfifo : Bfifo} {rate : RateCfg} {bucketNs : Int} {start s : Sys}
    {events : List (Event Param)} (fresh : Initial start)
    (run : RunWithin (Shaped rate bucketNs) (Step bfifo) start events s) : 0 ≤ s.q.tokens :=
  tokens_nonneg_of_pays bucket run pays_of_step (bucket_of_initial fresh) run.1.2.2.le

/-- Over every window, the packets returned take at most two buckets and the window. -/
theorem airtimeWithin_le {bfifo : Bfifo} {rate : RateCfg} {bucketNs : Int} {start s : Sys}
    {events : List (Event Param)} (fresh : Initial start)
    (run : RunWithin (Shaped rate bucketNs) (Step bfifo) start events s) {opens closes : Int}
    (ordered : opens ≤ closes) :
    airtimeWithin rate opens closes events ≤ 2 * bucketNs + (closes - opens) :=
  airtimeWithin_le_of_pays bucket run pays_of_step (bucket_of_initial fresh) run.1.2.2.le ordered

/-! ### The timer -/

section

variable {bfifo : Bfifo} {rate : RateCfg} {bucketNs : Int} {start s : Sys}
  {events : List (Event Param)} {now : Int} {q' : PrioWfqSchedData} {expires : Int}

/-- A priority queue returns its packet from the time its timer was armed for. -/
theorem prio_throttled_until (fresh : Initial start)
    (run : RunWithin (Shaped rate bucketNs) (Step bfifo) start events s)
    (busy : 0 < s.q.sumPrioLenBytes)
    (returns : qdiscDequeue s.params now s.q = (q', .throttled expires)) :
    ∃ k skb, prioQueuesPeek q' = some skb ∧
      ((l2tNs rate (skbSize skb) : Int) ≤ bucketNs → ∀ t,
        (t < expires → qdiscDequeue s.params t q' = (q', .throttled expires)) ∧
        (expires ≤ t → ∃ q'' returned,
          qdiscDequeue s.params t q' = (q'', .packet (prioId k) returned) ∧
            MarkedFrom skb returned)) := by
  have tokens := tokens_nonneg fresh run
  obtain ⟨rfl, rfl, _⟩ := run.good_last
  cases qdiscDequeue_cases returns with
  | prio busy ends =>
      cases ends with
      | @throttled skb found short =>
          obtain ⟨k, rest, front, takes⟩ := prioQueuesPeek_eq_some found
          refine ⟨k, skb, found, fun covered t => ?_⟩
          obtain ⟨before, after⟩ := @TokenBucket.level_timer _ (bucket s.q) now _ tokens covered
            short _ rfl t
          simp only [← refilled_eq_level] at before after
          simp only [qdiscDequeue, if_pos busy, prioQueuesDequeue, found, takes]
          constructor
          · intro early
            obtain ⟨again, same⟩ := before early
            rw [if_neg (not_le.mpr (sub_neg.mpr again)), same]
          · intro late
            rw [if_pos (sub_nonneg.mpr (after late))]
            exact ⟨_, _, rfl, dequeueMarking_markedFrom _ _ _ _⟩
  | wfq idle => omega
  | idle stays nothing => cases nothing

/-- A WFQ queue is throttled again at the very time its timer was armed for, and returns its
packet at every later time: the test of `wfq_queues_dequeue` is `toks > pkt_ns`. -/
theorem throttled_past_timer (fresh : Initial start)
    (run : RunWithin (Shaped rate bucketNs) (Step bfifo) start events s)
    (noPrio : ∀ k, (s.q.prioQueues k).qdisc = [])
    (returns : qdiscDequeue s.params now s.q = (q', .throttled expires)) :
    ∃ i skb, Selected q' i skb ∧
      ((l2tNs rate (skbSize skb) : Int) < bucketNs → ∀ t,
        (t ≤ expires → qdiscDequeue s.params t q' = (q', .throttled expires)) ∧
        (expires < t → ∃ q'' returned,
          qdiscDequeue s.params t q' = (q'', .packet (wfqId i) returned) ∧
            MarkedFrom skb returned)) := by
  have tokens := tokens_nonneg fresh run
  obtain ⟨rfl, rfl, _⟩ := run.good_last
  cases qdiscDequeue_cases returns with
  | prio busy ends =>
      cases ends with
      | @throttled skb found short =>
          obtain ⟨k, rest, front, _⟩ := prioQueuesPeek_eq_some found
          rw [noPrio k] at front
          cases front
  | wfq idle busy ends =>
      cases ends with
      | @throttled i skb selected short =>
          refine ⟨i, skb, selected, fun covered t => ?_⟩
          obtain ⟨unequal, found, rest, front⟩ := selected
          obtain ⟨before, after⟩ := @TokenBucket.level_timer_strict _ (bucket s.q) now _ tokens
            covered short _ rfl t
          simp only [← refilled_eq_level] at before after
          have noBusy : ¬0 < s.q.sumPrioLenBytes := by omega
          simp only [qdiscDequeue, if_neg noBusy, if_pos busy, wfqQueuesDequeue,
            if_neg unequal, found, front, peek, dequeuePeeked, List.head?_cons]
          constructor
          · intro early
            obtain ⟨again, same⟩ := before early
            rw [if_neg (not_lt.mpr again), same]
          · intro late
            rw [if_pos (after late)]
            exact ⟨_, _, rfl, dequeueMarking_markedFrom _ _ _ _⟩
  | idle stays nothing => cases nothing

end

end MqEcn.Kernel.PrioWfq
