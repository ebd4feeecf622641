import MqEcn.Kernel.Wfq.Invariant

/-!
Contract: the token bucket of `sch_wfq`.

Owns: the reading of the qdisc as a bucket that each returned packet spends from, the
bound this puts on every time window, the exact condition under which waiting lets a
dequeue return a packet, and the time its timer is armed for.

Does not own: the bucket itself.
-/

set_option autoImplicit false

namespace MqEcn.Kernel.Wfq

open MqEcn.Kernel
open MqEcn.Library
open MqEcn.Library.Transition

/-- The carried tokens and the time of the last packet. -/
def bucket (q : WfqSchedData) : TokenBucket.Bucket := ⟨q.tokens, q.timeNs⟩

/-- Constant rate and bucket. -/
def Shaped (rate : RateCfg) (bucketBytes : Int) (s : Sys) : Prop :=
  s.q.rate = rate ∧ s.params.value .bucket = bucketBytes

instance (rate : RateCfg) (bucketBytes : Int) : DecidablePred (Shaped rate bucketBytes) :=
  fun _ => inferInstanceAs (Decidable (_ ∧ _))

/-- `tbf_schedule` is what the bucket has remaining. -/
theorem tbfSchedule_eq_remaining (params : Params) (len : Nat) (q : WfqSchedData) (now : Int) :
    tbfSchedule params len q now =
      TokenBucket.remaining (bucketNs q.rate (params.value .bucket)) (bucket q) now
        (l2tNs q.rate len) :=
  Kernel.tbfSchedule_eq_remaining _ _ _ _ _ _

/-! ### Conformance -/

/-- Only a returned packet changes the bucket, and it spends its transmission time. -/
theorem pays_of_step {bfifo : Bfifo} {s s' : Sys} {event : Event Param}
    (step : Step bfifo s event s') (past : s.q.timeNs ≤ s.clock) :
    TokenBucket.Pays (bucketNs s.q.rate (s.params.value .bucket)) (bucket s.q)
      (event.spending s.q.rate) (bucket s'.q) ∧ s'.q.timeNs ≤ s'.clock := by
  cases step with
  | enqueue later returns =>
      rcases wfqEnqueue_cases returns with ⟨_, rfl⟩ | ⟨_, _, rfl⟩
      · exact ⟨rfl, past.trans later⟩
      · exact ⟨rfl, past.trans later⟩
  | @dequeue now q' outcome later returns =>
      cases wfqDequeue_cases returns with
      | idle | fault | null | throttled => exact ⟨rfl, past.trans later⟩
      | @packet prio i skb rest selected found front enough =>
          have size := skbSize_eq_of_len_eq (wfqTransmit_markedFrom s.params now prio i skb rest
            (tbfSchedule s.params (skbSize skb) s.q now) s.q).len_eq
          rw [tbfSchedule_eq_remaining] at enough
          simp only [Event.spending, size]
          exact ⟨⟨past.trans later, enough, rfl⟩, le_rfl⟩
  | sysctl => exact ⟨rfl, past⟩
  | change => exact ⟨rfl, past⟩

/-- The bucket starts empty. -/
theorem bucket_of_initial {s : Sys} (fresh : Initial s) :
    (bucket s.q).time ≤ s.clock ∧ (bucket s.q).tokens = 0 := by
  obtain ⟨rate, initial⟩ := fresh
  rw [initial]
  exact ⟨le_rfl, rfl⟩

theorem tokens_nonneg {bfifo : Bfifo} {s : Sys} (reachable : Reachable bfifo s) :
    s.q.timeNs ≤ s.clock ∧ 0 ≤ s.q.tokens :=
  TokenBucket.tokens_nonneg_of_reachable (fun s : Sys => bucket s.q) Qdisc.clock
    (fun s => bucketNs s.q.rate (s.params.value .bucket)) (fun s => Event.spending s.q.rate)
    reachable (fun _ => Int.natCast_nonneg _) bucket_of_initial pays_of_step

/-- Over every window, the packets returned take at most two buckets and the window. -/
theorem airtimeWithin_le {bfifo : Bfifo} {rate : RateCfg} {bucketBytes : Int} {start last : Sys}
    {events : List (Event Param)} (fresh : Initial start)
    (run : RunWithin (Shaped rate bucketBytes) (Step bfifo) start events last)
    {opens closes : Int} (ordered : opens ≤ closes) :
    airtimeWithin rate opens closes events ≤ 2 * bucketNs rate bucketBytes + (closes - opens) := by
  apply airtimeWithin_le_of_pays bucket run _ (bucket_of_initial fresh) (Int.natCast_nonneg _)
    ordered
  intro s s' event step shaped past
  obtain ⟨rfl, rfl⟩ := shaped
  exact pays_of_step step past

/-! ### Waiting -/

/-- A dequeue not before the last operation, with none in between, returns a packet. -/
def Sendable (s : Sys) : Prop :=
  ∃ now q' i skb, s.clock ≤ now ∧ wfqDequeue s.params now s.q = (q', .packet i skb)

/-- The head packet the scan selects. -/
def Selected (q : WfqSchedData) (i : Fin 8) (skb : Skb) : Prop :=
  ∃ prio rest, prioSchedule q = some prio ∧ scan q prio = some i ∧
    (q.queues i).qdisc = skb :: rest

/-- The selected head is what a dequeue returns or is short of tokens for. -/
theorem Selected.returns {params : Params} {now : Int} {q : WfqSchedData} {i : Fin 8} {skb : Skb}
    (selected : Selected q i skb) :
    (tbfSchedule params (skbSize skb) q now < 0 →
      (wfqDequeue params now q).2 =
        .throttled (now - tbfSchedule params (skbSize skb) q now)) ∧
    (0 ≤ tbfSchedule params (skbSize skb) q now →
      ∃ returned, (wfqDequeue params now q).2 = .packet i returned) := by
  obtain ⟨prio, rest, scheduled, found, front⟩ := selected
  simp only [wfqDequeue, scheduled, found, front]
  constructor
  · intro short
    rw [if_pos short]
  · intro enough
    exact ⟨_, by rw [if_neg (not_lt.mpr enough)]⟩

/-- Waiting helps exactly when the carried tokens and one bucket cover the selected
head. -/
theorem Selected.sendable_iff {s : Sys} {i : Fin 8} {skb : Skb} (selected : Selected s.q i skb) :
    Sendable s ↔ (l2tNs s.q.rate (skbSize skb) : Int) ≤
      s.q.tokens + bucketNs s.q.rate (s.params.value .bucket) := by
  have affordable := @TokenBucket.affordable_iff (bucketNs s.q.rate (s.params.value .bucket))
    (bucket s.q) s.clock (l2tNs s.q.rate (skbSize skb))
  simp only [← tbfSchedule_eq_remaining] at affordable
  apply Iff.trans _ affordable
  constructor
  · intro sendable
    obtain ⟨now, q', k, returned, later, returns⟩ := sendable
    refine ⟨now, later, ?_⟩
    by_contra short
    have throttled := selected.returns.1 (not_le.mp short)
    rw [returns] at throttled
    cases throttled
  · intro waited
    obtain ⟨now, later, enough⟩ := waited
    obtain ⟨returned, returns⟩ := selected.returns.2 enough
    exact ⟨now, _, i, returned, later, Prod.ext rfl returns⟩

/-- The timer of a throttled dequeue is armed for the time its packet is due. -/
theorem throttled_until {bfifo : Bfifo} {s : Sys} (reachable : Reachable bfifo s) {now : Int}
    {q' : WfqSchedData} {expires : Int}
    (returns : wfqDequeue s.params now s.q = (q', .throttled expires)) :
    ∃ i skb, Selected s.q i skb ∧ now < expires ∧
      (l2tNs s.q.rate (skbSize skb) ≤ bucketNs s.q.rate (s.params.value .bucket) →
        ∀ t,
          (t < expires → wfqDequeue s.params t q' = (q', .throttled expires)) ∧
          (expires ≤ t → ∃ q'' returned,
            wfqDequeue s.params t q' = (q'', .packet i returned) ∧ MarkedFrom skb returned)) := by
  cases wfqDequeue_cases returns with
  | @throttled prio i skb rest scheduled found front short =>
      refine ⟨i, skb, ⟨prio, rest, scheduled, found, front⟩, by omega, fun covered t => ?_⟩
      have tokens := (tokens_nonneg reachable).2
      have expires : now - tbfSchedule s.params (skbSize skb) s.q now =
          dueTime s.q.rate s.q.timeNs s.q.tokens (skbSize skb) :=
        sub_tbfSchedule_eq_dueTime tokens covered short
      rw [expires]
      simp only [wfqDequeue, scheduled, found, front]
      constructor
      · intro early
        have again : tbfSchedule s.params (skbSize skb) s.q t < 0 :=
          (tbfSchedule_lt_zero_iff tokens covered).mpr early
        have same : t - tbfSchedule s.params (skbSize skb) s.q t =
            dueTime s.q.rate s.q.timeNs s.q.tokens (skbSize skb) :=
          sub_tbfSchedule_eq_dueTime tokens covered again
        rw [if_pos again, same]
      · intro late
        have enough : ¬tbfSchedule s.params (skbSize skb) s.q t < 0 := fun again =>
          absurd ((tbfSchedule_lt_zero_iff tokens covered).mp again) (not_lt.mpr late)
        rw [if_neg enough]
        exact ⟨_, _, rfl, wfqTransmit_markedFrom _ _ _ _ _ _ _ _⟩

/-- A qdisc that holds a packet selects one. -/
theorem exists_selected {bfifo : Bfifo} (bounded : bfifo.Bounded) {s : Sys}
    (reachable : Reachable bfifo s) (busy : ∃ i, (s.q.queues i).qdisc ≠ []) :
    ∃ i skb, Selected s.q i skb := by
  have timed := timed_of_reachable bounded reachable
  cases scheduled : prioSchedule s.q with
  | none =>
      obtain ⟨i, nonempty⟩ := busy
      have nothing := prioSchedule_eq_none scheduled (s.q.queues i).prio
      exact absurd ((timed.balanced.prioLenBytes_eq_zero_iff _).mp nothing i rfl) nonempty
  | some prio =>
      obtain ⟨i, found, selects⟩ := scan_selects (narrow_const le_rfl) timed scheduled
      obtain ⟨skb, rest, front⟩ := List.exists_cons_of_ne_nil selects.busy.2
      exact ⟨i, skb, prio, rest, scheduled, found, front⟩

end MqEcn.Kernel.Wfq
