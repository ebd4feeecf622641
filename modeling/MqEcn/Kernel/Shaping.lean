import MqEcn.Kernel.Dwrr.Polling
import MqEcn.Kernel.Prio.Shaping
import MqEcn.Kernel.PrioDwrr.Shaping
import MqEcn.Kernel.PrioWfq.Bookkeeping
import MqEcn.Kernel.Wfq.Shaping

/-!
Contract: what the token bucket of the kernel schedulers guarantees.

Owns: the results about shaping that `sch_dwrr` and `sch_wfq` share, the runs that show
why neither can be sharpened to a single bucket, and the conformance of the three
schedulers with priority queues.

Does not own: either scheduler's own reading as a bucket.
-/

set_option autoImplicit false

namespace MqEcn.Kernel

open MqEcn.Library.Transition

/-! ### Waiting -/

/-- **Waiting.** In every reachable state that holds a packet, a later dequeue returns one
exactly when the transmission time of the head it selects is covered by the carried tokens
and one bucket; the tokens are never negative, so one bucket alone is always enough. -/
theorem sendable_iff_covered {bfifo : Bfifo} (bounded : bfifo.Bounded) :
    (∀ s : Dwrr.Sys, Dwrr.Reachable bfifo s → s.params.value .enableWrr = 0 →
      (∃ i, (s.q.queues i).qdisc ≠ []) →
      0 ≤ s.q.tokens ∧ ∃ i skb, Dwrr.Selected s.params s.q i skb ∧
        (Dwrr.Sendable s ↔ (l2tNs s.q.rate (skbSize skb) : Int) ≤
          s.q.tokens + bucketNs s.q.rate (s.params.value .bucket))) ∧
    ∀ s : Wfq.Sys, Wfq.Reachable bfifo s → (∃ i, (s.q.queues i).qdisc ≠ []) →
      0 ≤ s.q.tokens ∧ ∃ i skb, Wfq.Selected s.q i skb ∧
        (Wfq.Sendable s ↔ (l2tNs s.q.rate (skbSize skb) : Int) ≤
          s.q.tokens + bucketNs s.q.rate (s.params.value .bucket)) := by
  constructor
  · intro s reachable dwrr busy
    obtain ⟨i, skb, selected⟩ := Dwrr.exists_selected bounded reachable dwrr busy
    exact ⟨(Dwrr.tokens_nonneg reachable).2, i, skb, selected, selected.sendable_iff⟩
  · intro s reachable busy
    obtain ⟨i, skb, selected⟩ := Wfq.exists_selected bounded reachable busy
    exact ⟨(Wfq.tokens_nonneg reachable).2, i, skb, selected, selected.sendable_iff⟩

theorem loaded_sendable_iff_covered :
    (∃ i skb, Dwrr.Selected Dwrr.loaded.params Dwrr.loaded.q i skb ∧
      (Dwrr.Sendable Dwrr.loaded ↔ (l2tNs (changeRate 125000000) (skbSize skb) : Int) ≤
        0 + bucketNs (changeRate 125000000) 2500)) ∧
    ∃ i skb, Wfq.Selected Wfq.loaded.q i skb ∧
      (Wfq.Sendable Wfq.loaded ↔ (l2tNs (changeRate 125000000) (skbSize skb) : Int) ≤
        0 + bucketNs (changeRate 125000000) 2500) :=
  ⟨((sendable_iff_covered byteLimit_bounded).1 Dwrr.loaded Dwrr.loaded_reachable rfl
      ⟨0, by decide⟩).2,
    ((sendable_iff_covered byteLimit_bounded).2 Wfq.loaded Wfq.loaded_reachable
      ⟨0, by decide⟩).2⟩

/-- A full-sized frame in a qdisc whose bucket has been set to 500 bytes. -/
def Dwrr.jammed : Dwrr.Sys :=
  Dwrr.Sys.enqueue ⟨Dwrr.paramsInit.write .bucket 500, Dwrr.idle.q, 0⟩ 1 (fullFrame 0)

def Wfq.jammed : Wfq.Sys :=
  Wfq.Sys.enqueue ⟨Wfq.paramsInit.write .bucket 500, Wfq.idle.q, 0⟩ 1 (fullFrame 0)

private theorem Dwrr.jammed_reachable : Dwrr.Reachable byteLimit Dwrr.jammed :=
  ⟨Dwrr.idle, _, ⟨_, rfl⟩, .cons (.sysctl .bucket 500)
    (.single (Dwrr.Sys.enqueue_step (by decide) rfl))⟩

private theorem Wfq.jammed_reachable : Wfq.Reachable byteLimit Wfq.jammed :=
  ⟨Wfq.idle, _, ⟨_, rfl⟩, .cons (.sysctl .bucket 500)
    (.single (Wfq.Sys.enqueue_step (by decide) rfl))⟩

/-- A frame that two buckets do not cover blocks the port for ever. -/
theorem jammed_for_ever :
    (¬ ∀ s : Dwrr.Sys, Dwrr.Reachable byteLimit s → s.params.value .enableWrr = 0 →
      0 < s.q.rate.rateBps → 0 < s.params.value .bucket → (∃ i, (s.q.queues i).qdisc ≠ []) →
        Dwrr.Sendable s) ∧
    ¬ ∀ s : Wfq.Sys, Wfq.Reachable byteLimit s →
      0 < s.q.rate.rateBps → 0 < s.params.value .bucket → (∃ i, (s.q.queues i).qdisc ≠ []) →
        Wfq.Sendable s := by
  constructor
  · intro sends
    have sendable := sends Dwrr.jammed Dwrr.jammed_reachable (by decide) (by decide) (by decide)
      ⟨0, by decide⟩
    have selected : Dwrr.Selected Dwrr.jammed.params Dwrr.jammed.q 0 (fullFrame 0) :=
      ⟨0, Dwrr.jammed.q, [], [], by decide, .refl, by decide, by decide, by decide⟩
    exact absurd (selected.sendable_iff.mp sendable) (by decide)
  · intro sends
    have sendable := sends Wfq.jammed Wfq.jammed_reachable (by decide) (by decide) ⟨0, by decide⟩
    have selected : Wfq.Selected Wfq.jammed.q 0 (fullFrame 0) :=
      ⟨0, [], by decide, by decide, by decide⟩
    exact absurd (selected.sendable_iff.mp sendable) (by decide)

/-! ### The timer -/

/-- **Timer.** In every reachable state, the timer of a throttled dequeue is armed for a
later time; where one bucket covers its packet, every dequeue before that time is throttled
on the packet again, and every dequeue from that time on returns it. -/
theorem timer_on_time (bfifo : Bfifo) :
    (∀ s : Dwrr.Sys, Dwrr.Reachable bfifo s → ∀ now fuel q' expires,
      Dwrr.dwrrDequeue s.params now fuel s.q = some (q', .throttled expires) →
      ∃ i skb, Dwrr.Selected s.params s.q i skb ∧ now < expires ∧
        (l2tNs s.q.rate (skbSize skb) ≤ bucketNs s.q.rate (s.params.value .bucket) →
          ∀ t, ∀ fuel > 0,
            (t < expires →
              Dwrr.dwrrDequeue s.params t fuel q' = some (q', .throttled expires)) ∧
            (expires ≤ t → ∃ q'' returned,
              Dwrr.dwrrDequeue s.params t fuel q' = some (q'', .packet i returned) ∧
                MarkedFrom skb returned))) ∧
    ∀ s : Wfq.Sys, Wfq.Reachable bfifo s → ∀ now q' expires,
      Wfq.wfqDequeue s.params now s.q = (q', .throttled expires) →
      ∃ i skb, Wfq.Selected s.q i skb ∧ now < expires ∧
        (l2tNs s.q.rate (skbSize skb) ≤ bucketNs s.q.rate (s.params.value .bucket) →
          ∀ t,
            (t < expires → Wfq.wfqDequeue s.params t q' = (q', .throttled expires)) ∧
            (expires ≤ t → ∃ q'' returned,
              Wfq.wfqDequeue s.params t q' = (q'', .packet i returned) ∧
                MarkedFrom skb returned)) := by
  constructor
  · intro s reachable now fuel q' expires returns
    exact Dwrr.throttled_until reachable returns
  · intro s reachable now q' expires returns
    exact Wfq.throttled_until reachable returns

/-- The loaded qdisc is throttled at 3, and its first packet is due at 12304. -/
theorem loaded_timer_on_time :
    (∃ q' i skb, Dwrr.dwrrDequeue Dwrr.loaded.params 3 1 Dwrr.loaded.q =
        some (q', .throttled 12304) ∧ Dwrr.Selected Dwrr.loaded.params Dwrr.loaded.q i skb ∧
      (3 : Int) < 12304) ∧
    ∃ q' i skb, Wfq.wfqDequeue Wfq.loaded.params 3 Wfq.loaded.q = (q', .throttled 12304) ∧
      Wfq.Selected Wfq.loaded.q i skb ∧ (3 : Int) < 12304 := by
  constructor
  · have throttled : (Dwrr.dwrrDequeue Dwrr.loaded.params 3 1 Dwrr.loaded.q).map Prod.snd =
        some (.throttled 12304) := by
      decide
    obtain ⟨⟨q', _⟩, returns, rfl⟩ := Option.map_eq_some_iff.mp throttled
    obtain ⟨i, skb, selected, later, _⟩ := (timer_on_time byteLimit).1 Dwrr.loaded
      Dwrr.loaded_reachable 3 1 q' 12304 returns
    exact ⟨q', i, skb, returns, selected, later⟩
  · have throttled : (Wfq.wfqDequeue Wfq.loaded.params 3 Wfq.loaded.q).2 = .throttled 12304 := by
      decide
    have returns := Prod.ext rfl throttled
    obtain ⟨i, skb, selected, later, _⟩ := (timer_on_time byteLimit).2 Wfq.loaded
      Wfq.loaded_reachable 3 _ 12304 returns
    exact ⟨_, i, skb, returns, selected, later⟩

/-! ### Conformance -/

/-- **Conformance.** From initialization on, at a constant rate and bucket, the packets
returned at times in a closed window take at most two buckets and the length of the
window. -/
theorem airtime_conformance (bfifo : Bfifo) (rate : RateCfg) (bucketBytes : Int)
    {opens closes : Int} (ordered : opens ≤ closes) :
    (∀ start last events, Dwrr.Initial start →
      RunWithin (Dwrr.Shaped rate bucketBytes) (Dwrr.Step bfifo) start events last →
      airtimeWithin rate opens closes events ≤
        2 * bucketNs rate bucketBytes + (closes - opens)) ∧
    ∀ start last events, Wfq.Initial start →
      RunWithin (Wfq.Shaped rate bucketBytes) (Wfq.Step bfifo) start events last →
      airtimeWithin rate opens closes events ≤
        2 * bucketNs rate bucketBytes + (closes - opens) := by
  constructor
  · intro start last events fresh run
    exact Dwrr.airtimeWithin_le fresh run ordered
  · intro start last events fresh run
    exact Wfq.airtimeWithin_le fresh run ordered

/-- Three frames; the second and the third leave in a burst after two idle periods. -/
def burst {Param : Type} : List (Event Param) :=
  [.enqueue 0 (fullFrame 0) .success, .enqueue 0 (fullFrame 0) .success,
    .enqueue 0 (fullFrame 0) .success, .dequeue 100000 (.packet 0 (fullFrame 0)),
    .dequeue 200000 (.packet 0 (fullFrame 0)), .dequeue 200000 (.packet 0 (fullFrame 0))]

theorem Dwrr.burst_replays :
    (replay (Dwrr.Sys.next byteLimit 4) (Dwrr.Shaped (changeRate 125000000) 2500) Dwrr.idle
      burst).isSome = true := by
  decide

theorem Wfq.burst_replays :
    (replay (Wfq.Sys.next byteLimit) (Wfq.Shaped (changeRate 125000000) 2500) Wfq.idle
      burst).isSome = true := by
  decide

theorem burst_conformance :
    airtimeWithin (changeRate 125000000) 200000 200000 (burst : List (Event Dwrr.Param)) ≤
        2 * bucketNs (changeRate 125000000) 2500 + (200000 - 200000) ∧
      airtimeWithin (changeRate 125000000) 200000 200000 (burst : List (Event Wfq.Param)) ≤
        2 * bucketNs (changeRate 125000000) 2500 + (200000 - 200000) :=
  ⟨(airtime_conformance byteLimit _ _ le_rfl).1 Dwrr.idle _ burst ⟨_, rfl⟩
      (.of_replay_isSome Dwrr.Sys.next_sound Dwrr.burst_replays),
    (airtime_conformance byteLimit _ _ le_rfl).2 Wfq.idle _ burst ⟨_, rfl⟩
      (.of_replay_isSome Wfq.Sys.next_sound Wfq.burst_replays)⟩

/-- One bucket is not enough: the tokens carried over an idle period come on top of those
credited for it. -/
theorem burst_exceeds_bucket :
    (¬ ∀ (rate : RateCfg) (bucketBytes : Int) (start last : Dwrr.Sys)
      (events : List (Event Dwrr.Param)) (opens closes : Int), 0 < rate.rateBps →
      Dwrr.Initial start →
      RunWithin (Dwrr.Shaped rate bucketBytes) (Dwrr.Step byteLimit) start events last →
      opens ≤ closes →
      airtimeWithin rate opens closes events ≤ bucketNs rate bucketBytes + (closes - opens)) ∧
    ¬ ∀ (rate : RateCfg) (bucketBytes : Int) (start last : Wfq.Sys)
      (events : List (Event Wfq.Param)) (opens closes : Int), 0 < rate.rateBps →
      Wfq.Initial start →
      RunWithin (Wfq.Shaped rate bucketBytes) (Wfq.Step byteLimit) start events last →
      opens ≤ closes →
      airtimeWithin rate opens closes events ≤ bucketNs rate bucketBytes + (closes - opens) := by
  constructor
  · intro conforms
    have bound := conforms _ _ Dwrr.idle _ burst 200000 200000 (by decide) ⟨_, rfl⟩
      (.of_replay_isSome Dwrr.Sys.next_sound Dwrr.burst_replays) le_rfl
    exact absurd bound (by decide)
  · intro conforms
    have bound := conforms _ _ Wfq.idle _ burst 200000 200000 (by decide) ⟨_, rfl⟩
      (.of_replay_isSome Wfq.Sys.next_sound Wfq.burst_replays) le_rfl
    exact absurd bound (by decide)

/-- **Conformance with priority queues.** From initialization on, at a constant rate and positive
bucket, the packets that `sch_prio`, `sch_prio_dwrr` and `sch_prio_wfq` return at times in
a closed window take at most two buckets and the length of the window, whichever of their
queues they come from. -/
theorem prio_airtime_conformance (bfifo : Bfifo) (rate : RateCfg) (bucketNs : Int)
    {opens closes : Int} (ordered : opens ≤ closes) :
    (∀ start last events, Prio.Initial start →
      RunWithin (Prio.Shaped rate bucketNs) (Prio.Step bfifo) start events last →
      airtimeWithin rate opens closes events ≤ 2 * bucketNs + (closes - opens)) ∧
    (∀ start last events, PrioDwrr.Initial start →
      RunWithin (PrioDwrr.Shaped rate bucketNs) (PrioDwrr.Step bfifo) start events last →
      airtimeWithin rate opens closes events ≤ 2 * bucketNs + (closes - opens)) ∧
    ∀ start last events, PrioWfq.Initial start →
      RunWithin (PrioWfq.Shaped rate bucketNs) (PrioWfq.Step bfifo) start events last →
      airtimeWithin rate opens closes events ≤ 2 * bucketNs + (closes - opens) := by
  refine ⟨?_, ?_, ?_⟩
  · intro start last events fresh run
    exact Prio.airtimeWithin_le fresh run ordered
  · intro start last events fresh run
    exact PrioDwrr.airtimeWithin_le fresh run ordered
  · intro start last events fresh run
    exact PrioWfq.airtimeWithin_le fresh run ordered

theorem Prio.burst_replays :
    (replay (Prio.Sys.next byteLimit) (Prio.Shaped (changeRate 125000000) 20000) Prio.idle
      burst).isSome = true := by
  decide

theorem PrioDwrr.burst_replays :
    (replay (PrioDwrr.Sys.next byteLimit 4) (PrioDwrr.Shaped (changeRate 125000000) 20000)
      PrioDwrr.idle burst).isSome = true := by
  decide

theorem PrioWfq.burst_replays :
    (replay (PrioWfq.Sys.next byteLimit) (PrioWfq.Shaped (changeRate 125000000) 25000)
      PrioWfq.idle burst).isSome = true := by
  decide

theorem burst_prio_conformance :
    airtimeWithin (changeRate 125000000) 200000 200000 (burst : List (Event Prio.Param)) ≤
        2 * 20000 + (200000 - 200000) ∧
      airtimeWithin (changeRate 125000000) 200000 200000 (burst : List (Event PrioDwrr.Param)) ≤
        2 * 20000 + (200000 - 200000) ∧
      airtimeWithin (changeRate 125000000) 200000 200000 (burst : List (Event PrioWfq.Param)) ≤
        2 * 25000 + (200000 - 200000) :=
  ⟨(prio_airtime_conformance byteLimit _ 20000 le_rfl).1 Prio.idle _ burst ⟨_, rfl⟩
      (.of_replay_isSome Prio.Sys.next_sound Prio.burst_replays),
    (prio_airtime_conformance byteLimit _ 20000 le_rfl).2.1 PrioDwrr.idle _ burst ⟨_, rfl⟩
      (.of_replay_isSome PrioDwrr.Sys.next_sound PrioDwrr.burst_replays),
    (prio_airtime_conformance byteLimit _ 25000 le_rfl).2.2 PrioWfq.idle _ burst ⟨_, rfl⟩
      (.of_replay_isSome PrioWfq.Sys.next_sound PrioWfq.burst_replays)⟩

end MqEcn.Kernel
