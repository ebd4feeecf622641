import MqEcn.Kernel.Prio.Bookkeeping

/-!
Contract: the token bucket of `sch_prio`.

Owns: the reading of the qdisc as a bucket, the airtime of the packets it returns in a
window, when waiting helps a stored packet, and the time from which a throttled dequeue
returns its packet.

Does not own: the bucket itself.
-/

set_option autoImplicit false

namespace MqEcn.Kernel.Prio

open MqEcn.Kernel
open MqEcn.Library
open MqEcn.Library.Transition

/-- The carried tokens and the time of the last packet. -/
def bucket (q : PrioSchedData) : TokenBucket.Bucket := ⟨q.tokens, q.timeNs⟩

/-- A constant rate and a constant positive bucket. -/
def Shaped (rate : RateCfg) (bucketNs : Int) (s : Sys) : Prop :=
  s.q.rate = rate ∧ s.params.value .bucketNs = bucketNs ∧ 0 < bucketNs

instance (rate : RateCfg) (bucketNs : Int) : DecidablePred (Shaped rate bucketNs) :=
  fun _ => inferInstanceAs (Decidable (_ ∧ _ ∧ _))

/-- What the qdisc refills its tokens to is the level of the bucket. -/
theorem refilled_eq_level (params : Params) (now : Int) (q : PrioSchedData) :
    refilled params now q = TokenBucket.level (params.value .bucketNs) (bucket q) now := rfl

/-- Each event of the qdisc pays for what it returns. -/
theorem pays_of_step {bfifo : Bfifo} {rate : RateCfg} {bucketNs : Int} {s s' : Sys}
    {event : Event Param} (step : Step bfifo s event s') (shaped : Shaped rate bucketNs s)
    (past : s.q.timeNs ≤ s.clock) :
    TokenBucket.Pays bucketNs (bucket s.q) (event.spending rate) (bucket s'.q) ∧
      s'.q.timeNs ≤ s'.clock := by
  obtain ⟨rfl, rfl, _⟩ := shaped
  cases step with
  | enqueue later returns =>
      cases qdiscEnqueue_cases returns with
      | refused | stored => exact ⟨rfl, past.trans later⟩
  | @dequeue now q' outcome later returns =>
      cases qdiscDequeue_cases returns with
      | null | throttled => exact ⟨rfl, past.trans later⟩
      | @packet i skb rest front enough =>
          have size := skbSize_eq_of_len_eq
            (dequeueMarking_markedFrom s.params now skb s.q).len_eq
          refine ⟨?_, le_rfl⟩
          show TokenBucket.Pays _ _ (some (now, _)) _
          rw [size]
          exact ⟨past.trans later, sub_nonneg.mpr enough, rfl⟩
  | sysctl | change => exact ⟨rfl, past⟩

/-- The bucket starts empty. -/
theorem bucket_of_initial {s : Sys} (fresh : Initial s) :
    (bucket s.q).time ≤ s.clock ∧ (bucket s.q).tokens = 0 := by
  obtain ⟨rate, initial⟩ := fresh
  rw [initial]
  exact ⟨le_rfl, rfl⟩

section

variable {bfifo : Bfifo} {rate : RateCfg} {bucketNs : Int} {start s : Sys}
  {events : List (Event Param)}

private theorem tokens_nonneg (fresh : Initial start)
    (run : RunWithin (Shaped rate bucketNs) (Step bfifo) start events s) : 0 ≤ s.q.tokens :=
  tokens_nonneg_of_pays bucket run pays_of_step (bucket_of_initial fresh) run.1.2.2.le

/-- Over every window, the packets returned take at most two buckets and the window. -/
theorem airtimeWithin_le (fresh : Initial start)
    (run : RunWithin (Shaped rate bucketNs) (Step bfifo) start events s) {opens closes : Int}
    (ordered : opens ≤ closes) :
    airtimeWithin rate opens closes events ≤ 2 * bucketNs + (closes - opens) :=
  airtimeWithin_le_of_pays bucket run pays_of_step (bucket_of_initial fresh) run.1.2.2.le ordered

/-- **Timer of `sch_prio`.** At a constant rate and positive bucket, a throttled dequeue
changes nothing and arms the timer for a later time. Where one bucket covers the packet it
stopped at, every dequeue before that time, with no operation in between, is throttled until
that time again, and every dequeue from that time on returns the packet. -/
theorem prio_timer_on_time (fresh : Initial start)
    (run : RunWithin (Shaped rate bucketNs) (Step bfifo) start events s) {now : Int}
    {q' : PrioSchedData} {expires : Int}
    (returns : qdiscDequeue s.params now s.q = (q', .throttled expires)) :
    q' = s.q ∧ now < expires ∧ ∃ i skb rest, Front s.q i skb rest ∧
      ((l2tNs rate (skbSize skb) : Int) ≤ bucketNs → ∀ t,
        (t < expires → qdiscDequeue s.params t q' = (q', .throttled expires)) ∧
        (expires ≤ t → ∃ q'' returned, qdiscDequeue s.params t q' = (q'', .packet i returned) ∧
          MarkedFrom skb returned)) := by
  have tokens := tokens_nonneg fresh run
  obtain ⟨rfl, rfl, _⟩ := run.good_last
  cases qdiscDequeue_cases returns with
  | @throttled i skb rest front short =>
      refine ⟨rfl, by omega, i, skb, rest, front, fun covered t => ?_⟩
      obtain ⟨before, after⟩ := @TokenBucket.level_timer _ (bucket s.q) now _ tokens covered
        short _ rfl t
      simp only [← refilled_eq_level] at before after
      rw [qdiscDequeue_of_front s.params t front]
      constructor
      · intro early
        obtain ⟨again, same⟩ := before early
        rw [if_neg (not_le.mpr (sub_neg.mpr again)), same]
      · intro late
        rw [if_pos (sub_nonneg.mpr (after late))]
        exact ⟨_, _, rfl, dequeueMarking_markedFrom _ _ _ _⟩

end

/-- One frame, for which the fresh qdisc has no tokens yet. -/
def loneHistory : List (Event Param) := [.enqueue 0 (fullFrame 4) .success]

private theorem lone_isSome :
    (replay (Sys.next byteLimit) (Shaped (changeRate 125000000) 20000) idle
      loneHistory).isSome = true := by
  decide

def lone : Sys :=
  (replay (Sys.next byteLimit) (Shaped (changeRate 125000000) 20000) idle loneHistory).get
    lone_isSome

private theorem lone_run : RunWithin (Shaped (changeRate 125000000) 20000) (Step byteLimit) idle
    loneHistory lone :=
  .of_replay_isSome Sys.next_sound lone_isSome

theorem lone_timer_on_time : ∃ q', qdiscDequeue lone.params 0 lone.q = (q', .throttled 12304) ∧
    q' = lone.q ∧ (0 : Int) < 12304 := by
  have throttled : (qdiscDequeue lone.params 0 lone.q).2 = .throttled 12304 := by
    decide
  have returns := Prod.ext rfl throttled
  obtain ⟨stays, later, _⟩ := prio_timer_on_time ⟨_, rfl⟩ lone_run returns
  exact ⟨_, returns, stays, later⟩

end MqEcn.Kernel.Prio
