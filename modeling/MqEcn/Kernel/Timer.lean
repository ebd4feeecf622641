import MqEcn.Kernel.PrioDwrr.Shaping
import MqEcn.Kernel.PrioWfq.Shaping

/-!
Contract: when the timers of `sch_prio_dwrr` and `sch_prio_wfq` go off.

Owns: the law of both qdiscs: a dequeue at the time its timer was armed for returns the packet
of a priority queue, and never that of a DWRR or WFQ queue; and the runs that show the latter.

Does not own: either scheduler's own timer.
-/

set_option autoImplicit false

namespace MqEcn.Kernel

open MqEcn.Library.Transition

/-- **Timers.** At a constant rate and positive bucket, consider a throttled dequeue that
armed the timer for `expires`, and no operation in between.

With no packet in the priority queues, and a packet below one bucket, a dequeue at `expires` is
throttled again, until `expires` again; every later one returns the packet. With a packet in
them, every dequeue from `expires` on returns it. -/
theorem timer_never_on_time (bfifo : Bfifo) (rate : RateCfg) (bucketNs : Int) :
    (∀ start events s, PrioDwrr.Initial start →
      RunWithin (PrioDwrr.Shaped rate bucketNs) (PrioDwrr.Step bfifo) start events s →
      ∀ now fuel q' expires,
        PrioDwrr.qdiscDequeue s.params now fuel s.q = some (q', .throttled expires) →
        ((∀ k, (s.q.prioQueues k).qdisc = []) → ∃ i skb, PrioDwrr.Parked q' i skb ∧
          ((l2tNs rate (skbSize skb) : Int) < bucketNs → ∀ t, ∀ fuel > 0,
            (t ≤ expires →
              PrioDwrr.qdiscDequeue s.params t fuel q' = some (q', .throttled expires)) ∧
            (expires < t → ∃ q'' returned, PrioDwrr.qdiscDequeue s.params t fuel q' =
              some (q'', .packet (PrioDwrr.dwrrId i) returned) ∧ MarkedFrom skb returned))) ∧
        (0 < s.q.sumPrioLenBytes → ∃ k skb, PrioDwrr.prioQueuesPeek q' = some skb ∧
          ((l2tNs rate (skbSize skb) : Int) ≤ bucketNs → ∀ t fuel,
            (t < expires →
              PrioDwrr.qdiscDequeue s.params t fuel q' = some (q', .throttled expires)) ∧
            (expires ≤ t → ∃ q'' returned, PrioDwrr.qdiscDequeue s.params t fuel q' =
              some (q'', .packet (PrioDwrr.prioId k) returned) ∧ MarkedFrom skb returned)))) ∧
    ∀ start events s, PrioWfq.Initial start →
      RunWithin (PrioWfq.Shaped rate bucketNs) (PrioWfq.Step bfifo) start events s →
      ∀ now q' expires, PrioWfq.qdiscDequeue s.params now s.q = (q', .throttled expires) →
        ((∀ k, (s.q.prioQueues k).qdisc = []) → ∃ i skb, PrioWfq.Selected q' i skb ∧
          ((l2tNs rate (skbSize skb) : Int) < bucketNs → ∀ t,
            (t ≤ expires → PrioWfq.qdiscDequeue s.params t q' = (q', .throttled expires)) ∧
            (expires < t → ∃ q'' returned, PrioWfq.qdiscDequeue s.params t q' =
              (q'', .packet (PrioWfq.wfqId i) returned) ∧ MarkedFrom skb returned))) ∧
        (0 < s.q.sumPrioLenBytes → ∃ k skb, PrioWfq.prioQueuesPeek q' = some skb ∧
          ((l2tNs rate (skbSize skb) : Int) ≤ bucketNs → ∀ t,
            (t < expires → PrioWfq.qdiscDequeue s.params t q' = (q', .throttled expires)) ∧
            (expires ≤ t → ∃ q'' returned, PrioWfq.qdiscDequeue s.params t q' =
              (q'', .packet (PrioDwrr.prioId k) returned) ∧ MarkedFrom skb returned))) := by
  constructor
  · intro start events s fresh run now fuel q' expires returns
    exact ⟨fun noPrio => PrioDwrr.throttled_past_timer fresh run noPrio returns,
      fun busy => PrioDwrr.prio_throttled_until fresh run busy returns⟩
  · intro start events s fresh run now q' expires returns
    exact ⟨fun noPrio => PrioWfq.throttled_past_timer fresh run noPrio returns,
      fun busy => PrioWfq.prio_throttled_until fresh run busy returns⟩

/-! ### A timer that goes off at once -/

/-- A full-sized frame in the first DWRR queue. -/
def PrioDwrr.lone : PrioDwrr.Sys :=
  ⟨PrioDwrr.paramsInit,
    (PrioDwrr.qdiscEnqueue byteLimit PrioDwrr.paramsInit 0 (fullFrame 4) PrioDwrr.idle.q).1, 0⟩

private theorem PrioDwrr.lone_run :
    RunWithin (PrioDwrr.Shaped (changeRate 125000000) 20000) (PrioDwrr.Step byteLimit)
      PrioDwrr.idle [.enqueue 0 (fullFrame 4) .success] PrioDwrr.lone :=
  ⟨by decide, .single ⟨by decide, .enqueue le_rfl (Prod.ext rfl (by decide)), by decide⟩⟩

/-- The same frame in the first WFQ queue. -/
def PrioWfq.lone : PrioWfq.Sys :=
  ⟨PrioWfq.paramsInit,
    (PrioWfq.qdiscEnqueue byteLimit PrioWfq.paramsInit 0 (fullFrame 4)
      (PrioWfq.qdiscInit 0 125000000)).1, 0⟩

private theorem PrioWfq.lone_run :
    RunWithin (PrioWfq.Shaped (changeRate 125000000) 25000) (PrioWfq.Step byteLimit)
      ⟨PrioWfq.paramsInit, PrioWfq.qdiscInit 0 125000000, 0⟩
      [.enqueue 0 (fullFrame 4) .success] PrioWfq.lone :=
  ⟨by decide, .single ⟨by decide, .enqueue le_rfl (Prod.ext rfl (by decide)), by decide⟩⟩

/-- Both frames wait for 12304, and at 12304 both wait for 12304 again. -/
theorem lone_timers_repeat :
    (∃ q' q'', PrioDwrr.qdiscDequeue PrioDwrr.lone.params 0 1 PrioDwrr.lone.q =
        some (q', .throttled 12304) ∧
      PrioDwrr.qdiscDequeue PrioDwrr.lone.params 12304 1 q' = some (q'', .throttled 12304)) ∧
    ∃ q' q'', PrioWfq.qdiscDequeue PrioWfq.lone.params 0 PrioWfq.lone.q =
        (q', .throttled 12304) ∧
      PrioWfq.qdiscDequeue PrioWfq.lone.params 12304 q' = (q'', .throttled 12304) := by
  refine ⟨?_, ⟨_, _, Prod.ext rfl (by decide), Prod.ext rfl (by decide)⟩⟩
  have twice : ((PrioDwrr.qdiscDequeue PrioDwrr.lone.params 0 1 PrioDwrr.lone.q).map Prod.snd =
      some (.throttled 12304)) ∧
      ((PrioDwrr.qdiscDequeue PrioDwrr.lone.params 0 1 PrioDwrr.lone.q).bind fun answer =>
        (PrioDwrr.qdiscDequeue PrioDwrr.lone.params 12304 1 answer.1).map Prod.snd) =
      some (.throttled 12304) := by
    decide
  obtain ⟨first, second⟩ := twice
  obtain ⟨⟨q', _⟩, returns, rfl⟩ := Option.map_eq_some_iff.mp first
  rw [returns] at second
  obtain ⟨⟨q'', _⟩, again, same⟩ := Option.map_eq_some_iff.mp second
  refine ⟨q', q'', returns, ?_⟩
  rw [← same]
  exact again

/-- So a dequeue at the time its timer was armed for need not return the packet, though the
packet takes less than a bucket. -/
theorem timers_off_time :
    (¬∀ s, (∃ start events, PrioDwrr.Initial start ∧
        RunWithin (PrioDwrr.Shaped (changeRate 125000000) 20000) (PrioDwrr.Step byteLimit)
          start events s) → (∀ k, (s.q.prioQueues k).qdisc = []) →
      (∀ i, ∀ skb ∈ (s.q.dwrrQueues i).qdisc,
        (l2tNs (changeRate 125000000) (skbSize skb) : Int) < 20000) →
      ∀ now fuel q' expires,
        PrioDwrr.qdiscDequeue s.params now fuel s.q = some (q', .throttled expires) →
        ∀ fuel q'' outcome,
          PrioDwrr.qdiscDequeue s.params expires fuel q' = some (q'', outcome) →
          ∃ id returned, outcome = .packet id returned) ∧
    ¬∀ s, (∃ start events, PrioWfq.Initial start ∧
        RunWithin (PrioWfq.Shaped (changeRate 125000000) 25000) (PrioWfq.Step byteLimit)
          start events s) → (∀ k, (s.q.prioQueues k).qdisc = []) →
      (∀ i, ∀ skb ∈ (s.q.wfqQueues i).qdisc,
        (l2tNs (changeRate 125000000) (skbSize skb) : Int) < 25000) →
      ∀ now q' expires, PrioWfq.qdiscDequeue s.params now s.q = (q', .throttled expires) →
        ∀ q'' outcome, PrioWfq.qdiscDequeue s.params expires q' = (q'', outcome) →
          ∃ id returned, outcome = .packet id returned := by
  obtain ⟨⟨dwrr, dwrr', dwrrFirst, dwrrSecond⟩, wfq, wfq', wfqFirst, wfqSecond⟩ :=
    lone_timers_repeat
  constructor
  · intro returns
    obtain ⟨id, returned, packet⟩ := returns PrioDwrr.lone ⟨_, _, ⟨_, rfl⟩, PrioDwrr.lone_run⟩
      (by decide) (by decide) 0 1 dwrr 12304 dwrrFirst 1 dwrr' _ dwrrSecond
    cases packet
  · intro returns
    obtain ⟨id, returned, packet⟩ := returns PrioWfq.lone ⟨_, _, ⟨_, rfl⟩, PrioWfq.lone_run⟩
      (by decide) (by decide) 0 wfq 12304 wfqFirst wfq' _ wfqSecond
    cases packet

/-- The two frames, at the laws of their timers. -/
theorem lone_timers :
    (∃ q' i skb, PrioDwrr.qdiscDequeue PrioDwrr.lone.params 0 1 PrioDwrr.lone.q =
      some (q', .throttled 12304) ∧ PrioDwrr.Parked q' i skb) ∧
    ∃ q' i skb, PrioWfq.qdiscDequeue PrioWfq.lone.params 0 PrioWfq.lone.q =
      (q', .throttled 12304) ∧ PrioWfq.Selected q' i skb := by
  obtain ⟨⟨dwrr, _, dwrrFirst, _⟩, wfq, _, wfqFirst, _⟩ := lone_timers_repeat
  constructor
  · obtain ⟨i, skb, parked, _⟩ :=
      ((timer_never_on_time byteLimit (changeRate 125000000) 20000).1 PrioDwrr.idle _
        PrioDwrr.lone ⟨_, rfl⟩ PrioDwrr.lone_run 0 1 dwrr 12304 dwrrFirst).1 (by decide)
    exact ⟨dwrr, i, skb, dwrrFirst, parked⟩
  · obtain ⟨i, skb, selected, _⟩ :=
      ((timer_never_on_time byteLimit (changeRate 125000000) 25000).2 _ _ PrioWfq.lone ⟨_, rfl⟩
        PrioWfq.lone_run 0 wfq 12304 wfqFirst).1 (by decide)
    exact ⟨wfq, i, skb, wfqFirst, selected⟩

end MqEcn.Kernel
