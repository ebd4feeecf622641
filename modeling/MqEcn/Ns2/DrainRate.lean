import Mathlib.Tactic.Linarith
import MqEcn.Library.Transition
import MqEcn.Ns2.PacketQueue

/-!
Contract: what the departure-rate measurement measures.

Owns: the sample a measurement takes, the invariant of a measurement behind a link that sends
one packet after the other, and its lift to the runs of a discipline.

Does not own: any discipline. A discipline says what its steps do to the measurements and to
the bytes of its queues.
-/

set_option autoImplicit false

namespace MqEcn.Ns2

open MqEcn.Library.Transition

/-! ### The sample -/

/-- The bound variables of the measurement. -/
structure Meter where
  dqThresh : Int
  estimateRateAlpha : ℚ
  linkCapacity : ℚ

/-- A threshold, a factor and a link that measure something. -/
structure Meter.Valid (meter : Meter) : Prop where
  thresh : 0 < meter.dqThresh
  alpha_nonneg : 0 ≤ meter.estimateRateAlpha
  alpha_le : meter.estimateRateAlpha ≤ 1
  capacity : 0 < meter.linkCapacity

/-- The transmission time of a packet. -/
def Meter.transmission (meter : Meter) (pktSize : Nat) : ℚ :=
  (pktSize : ℚ) * 8 / meter.linkCapacity

/-- The measurement of `DrainRate.measure`. -/
def Meter.measure (meter : Meter) (now : ℚ) (remaining pktSize : Nat) (rate : DrainRate) :
    DrainRate :=
  rate.measure meter.dqThresh meter.estimateRateAlpha meter.linkCapacity now remaining pktSize

/-- The measurement once it may have started with this packet. -/
def Meter.started (meter : Meter) (now : ℚ) (remaining : Nat) (rate : DrainRate) : DrainRate :=
  if meter.dqThresh ≤ remaining ∧ rate.dqCount = dqCountInvalid then
    { rate with dqTstamp := now, dqCount := 0 }
  else rate

private theorem started_avgDqRate (meter : Meter) (now : ℚ) (remaining : Nat) (rate : DrainRate) :
    (meter.started now remaining rate).avgDqRate = rate.avgDqRate := by
  unfold Meter.started
  split
  · rfl
  · rfl

/-- The average a sample leads to. -/
def Meter.smooth (meter : Meter) (average sample : ℚ) : ℚ :=
  if average < 0 then sample
  else average * meter.estimateRateAlpha + sample * (1 - meter.estimateRateAlpha)

/-- The `interval` and the `rate` of a packet that ends a measurement. -/
def Meter.sample (meter : Meter) (now : ℚ) (pktSize : Nat) (started : DrainRate) :
    Option (ℚ × ℚ) :=
  if started.dqCount = dqCountInvalid ∨ started.dqCount + pktSize < meter.dqThresh then none
  else
    let interval := now - started.dqTstamp + meter.transmission pktSize
    some (interval, (started.dqCount + pktSize : Int) * 8 / interval)

/-- What a packet does to a measurement: its bytes are counted, or they end it, and the next one
starts with the end of the transmission. -/
def Meter.count (meter : Meter) (now : ℚ) (remaining pktSize : Nat) (started : DrainRate) :
    DrainRate :=
  match meter.sample now pktSize started with
  | none =>
      if started.dqCount = dqCountInvalid then started
      else { started with dqCount := started.dqCount + pktSize }
  | some (_, sample) =>
      if (remaining : Int) < meter.dqThresh then
        { started with
          dqCount := dqCountInvalid, avgDqRate := meter.smooth started.avgDqRate sample }
      else
        { dqTstamp := now + meter.transmission pktSize, dqCount := 0,
          avgDqRate := meter.smooth started.avgDqRate sample }

private theorem measure_eq_count (meter : Meter) (now : ℚ) (remaining pktSize : Nat)
    (rate : DrainRate) :
    meter.measure now remaining pktSize rate =
      meter.count now remaining pktSize (meter.started now remaining rate) := by
  unfold Meter.measure DrainRate.measure
  extract_lets started
  have same : meter.started now remaining rate = started := rfl
  rw [same]
  clear_value started
  unfold Meter.count Meter.sample Meter.smooth
  split
  next waiting => rw [if_pos (Or.inl waiting)]
  next counting =>
    by_cases short : started.dqCount + pktSize < meter.dqThresh
    · rw [if_pos (Or.inr short)]
      exact if_pos short
    · rw [if_neg (not_or.mpr ⟨counting, short⟩)]
      exact if_neg short

/-! ### The invariant -/

/-- A measurement that has not counted its threshold yet, from a queue that still holds what is
missing, and that has counted no more than the link could send until `time`. -/
structure Counting (meter : Meter) (time : ℚ) (rate : DrainRate) (backlog : Nat) : Prop where
  nonneg : 0 ≤ rate.dqCount
  short : rate.dqCount < meter.dqThresh
  enough : meter.dqThresh ≤ backlog + rate.dqCount
  sent : rate.dqTstamp + (rate.dqCount : ℚ) * 8 / meter.linkCapacity ≤ time

/-- The average of a queue: none yet, or a rate of the link. -/
def Rated (meter : Meter) (rate : DrainRate) : Prop :=
  rate.avgDqRate = -1 ∨ (0 < rate.avgDqRate ∧ rate.avgDqRate ≤ meter.linkCapacity)

/-- The measurement of a queue behind a link that is busy until `ready`. -/
structure Tracks (meter : Meter) (ready : Option ℚ) (rate : DrainRate) (backlog : Nat) :
    Prop where
  counts : rate.dqCount = dqCountInvalid ∨ ∃ time ∈ ready, Counting meter time rate backlog
  rated : Rated meter rate

section

variable {meter : Meter} {now : ℚ} {remaining pktSize : Nat} {rate : DrainRate}

private theorem Counting.mono {time later : ℚ} {backlog more : Nat}
    (counting : Counting meter time rate backlog) (after : time ≤ later) (grows : backlog ≤ more) :
    Counting meter later rate more where
  nonneg := counting.nonneg
  short := counting.short
  enough := counting.enough.trans (Int.add_le_add_right (Int.ofNat_le.mpr grows) _)
  sent := counting.sent.trans after

/-- A measurement that has just started has counted nothing. -/
theorem started_counting {ready : Option ℚ} (valid : meter.Valid)
    (paced : ∀ time ∈ ready, time ≤ now)
    (tracks : Tracks meter ready rate (pktSize + remaining)) :
    (meter.started now remaining rate).dqCount = dqCountInvalid ∨
      Counting meter now (meter.started now remaining rate) (pktSize + remaining) := by
  unfold Meter.started
  split
  next starts =>
    refine Or.inr ⟨le_rfl, valid.thresh, ?_, ?_⟩
    · push_cast
      omega
    · simp only [Int.cast_zero, zero_mul, zero_div, add_zero, le_refl]
  next =>
    rcases tracks.counts with invalid | ⟨time, busy, counting⟩
    · exact Or.inl invalid
    · exact Or.inr (counting.mono (paced time busy) le_rfl)

/-- The bytes of a measurement take at least their transmission time. -/
theorem Counting.interval {started : DrainRate} {backlog : Nat}
    (counting : Counting meter now started backlog) (pktSize : Nat) :
    (started.dqCount + pktSize : Int) * 8 / meter.linkCapacity ≤
      now - started.dqTstamp + meter.transmission pktSize := by
  have sent := counting.sent
  unfold Meter.transmission
  push_cast
  rw [add_mul, add_div]
  linarith

/-- A sample is a rate of the link. -/
theorem Counting.sample {started : DrainRate} {backlog : Nat} {interval sample : ℚ}
    (valid : meter.Valid) (counting : Counting meter now started backlog) (positive : 0 < pktSize)
    (samples : meter.sample now pktSize started = some (interval, sample)) :
    0 < interval ∧ 0 < sample ∧ sample ≤ meter.linkCapacity := by
  unfold Meter.sample at samples
  simp only [Option.ite_none_left_eq_some, Option.some.injEq, Prod.mk.injEq] at samples
  obtain ⟨_, rfl, rfl⟩ := samples
  have counted : (0 : ℚ) < (started.dqCount + pktSize : Int) * 8 := by
    have nonneg := counting.nonneg
    have bytes : (0 : Int) < started.dqCount + pktSize := by omega
    have cast : (0 : ℚ) < (started.dqCount + pktSize : Int) := by exact_mod_cast bytes
    linarith
  have takes := counting.interval pktSize
  have lasts := (div_pos counted valid.capacity).trans_le takes
  refine ⟨lasts, div_pos counted lasts, ?_⟩
  rw [div_le_iff₀ lasts, mul_comm meter.linkCapacity]
  exact (div_le_iff₀ valid.capacity).mp takes

/-- A sample keeps the average a rate of the link. -/
theorem smooth_range {average sample : ℚ} (valid : meter.Valid)
    (before : average = -1 ∨ (0 < average ∧ average ≤ meter.linkCapacity)) (positive : 0 < sample)
    (below : sample ≤ meter.linkCapacity) :
    0 < meter.smooth average sample ∧ meter.smooth average sample ≤ meter.linkCapacity := by
  unfold Meter.smooth
  rcases before with rfl | ⟨averagePositive, averageBelow⟩
  · rw [if_pos (by norm_num)]
    exact ⟨positive, below⟩
  · rw [if_neg (not_lt.mpr averagePositive.le)]
    have share : 0 ≤ 1 - meter.estimateRateAlpha := sub_nonneg.mpr valid.alpha_le
    constructor
    · rcases valid.alpha_nonneg.eq_or_lt with zero | factor
      · rw [← zero]
        linarith
      · exact add_pos_of_pos_of_nonneg (mul_pos averagePositive factor)
          (mul_nonneg positive.le share)
    · calc average * meter.estimateRateAlpha + sample * (1 - meter.estimateRateAlpha)
          ≤ meter.linkCapacity * meter.estimateRateAlpha +
              meter.linkCapacity * (1 - meter.estimateRateAlpha) :=
            add_le_add (mul_le_mul_of_nonneg_right averageBelow valid.alpha_nonneg)
              (mul_le_mul_of_nonneg_right below share)
        _ = meter.linkCapacity := by rw [← mul_add, add_sub_cancel, mul_one]

/-- What a packet does to the measurement of its queue. -/
theorem count_tracks {started : DrainRate} (valid : meter.Valid) (positive : 0 < pktSize)
    (rated : Rated meter started)
    (counts : started.dqCount = dqCountInvalid ∨
      Counting meter now started (pktSize + remaining)) :
    Tracks meter (some (now + meter.transmission pktSize))
      (meter.count now remaining pktSize started) remaining := by
  unfold Meter.count
  rcases counts with invalid | counting
  · have none : meter.sample now pktSize started = none := by
      unfold Meter.sample
      exact if_pos (Or.inl invalid)
    rw [none]
    simp only [if_pos invalid]
    exact ⟨Or.inl invalid, rated⟩
  · have running : started.dqCount ≠ dqCountInvalid := by
      have nonneg := counting.nonneg
      unfold dqCountInvalid
      omega
    cases samples : meter.sample now pktSize started with
    | none =>
        simp only [if_neg running]
        refine ⟨Or.inr ⟨_, rfl, ?_⟩, rated⟩
        unfold Meter.sample at samples
        simp only [ite_eq_left_iff, reduceCtorEq, imp_false, not_not] at samples
        have enough := counting.enough
        refine ⟨?_, samples.resolve_left running, ?_, ?_⟩
        · exact add_nonneg counting.nonneg (Int.natCast_nonneg pktSize)
        · push_cast at enough
          show meter.dqThresh ≤ remaining + (started.dqCount + pktSize)
          omega
        · have takes := counting.interval pktSize
          show started.dqTstamp + (started.dqCount + pktSize : Int) * 8 / meter.linkCapacity ≤ _
          linarith
    | some both =>
        obtain ⟨interval, sample⟩ := both
        obtain ⟨_, samplePositive, sampleBelow⟩ := counting.sample valid positive samples
        have range := smooth_range valid rated samplePositive sampleBelow
        simp only
        split
        next receded => exact ⟨Or.inl rfl, Or.inr range⟩
        next stays =>
          refine ⟨Or.inr ⟨_, rfl, le_rfl, valid.thresh, ?_, ?_⟩, Or.inr range⟩
          · simp only [add_zero]
            exact not_lt.mp stays
          · simp only [Int.cast_zero, zero_mul, zero_div, add_zero, le_refl]

end

/-! ### Runs -/

/-- The measurement of a queue and the bytes it holds. -/
structure Gauge where
  drain : DrainRate
  backlog : Nat

section

variable {Class : Type} {queues queues' : Fin 64 → Class} {i : Fin 64} {cl : Class}

/-- The gauges of queues one of which is replaced. -/
theorem gauges_of_replaced (gauge : Class → Gauge)
    (replaced : queues' = Function.update queues i cl) :
    (fun k => gauge (queues' k)) = Function.update (fun k => gauge (queues k)) i (gauge cl) := by
  rw [replaced]
  exact Function.comp_update gauge queues i cl

/-- A queue replaced by one with the same gauge. -/
theorem gauges_of_kept (gauge : Class → Gauge) (replaced : queues' = Function.update queues i cl)
    (same : gauge cl = gauge (queues i)) :
    (fun k => gauge (queues' k)) = fun k => gauge (queues k) := by
  rw [gauges_of_replaced gauge replaced, same]
  exact Function.update_eq_self i fun k => gauge (queues k)

end

section

variable {Command : Type}

/-- What an event does to the gauges: it sends a packet and measures it, or it sends nothing. -/
inductive Gauges (meter : Meter) :
    (Fin 64 → Gauge) → Event Command → (Fin 64 → Gauge) → Prop
  | sends {before after : Fin 64 → Gauge} {now : ℚ} {i : Fin 64} {pkt : Packet}
      (left : (before i).backlog = pkt.size + (after i).backlog)
      (measured : (after i).drain =
        meter.measure now (after i).backlog pkt.size (before i).drain)
      (others : ∀ k ≠ i, after k = before k) :
      Gauges meter before (.deque now (some (i, pkt))) after
  | holds {before after : Fin 64 → Gauge} {event : Event Command}
      (silent : ∀ now answer, event ≠ .deque now (some answer))
      (drains : ∀ k, (after k).drain = (before k).drain)
      (backlogs : ∀ k, (before k).backlog ≤ (after k).backlog) : Gauges meter before event after

theorem Gauges.rests {meter : Meter} {before after : Fin 64 → Gauge} {event : Event Command}
    (silent : ∀ now answer, event ≠ .deque now (some answer)) (same : after = before) :
    Gauges meter before event after := by
  subst same
  exact .holds silent (fun _ => rfl) (fun _ => le_rfl)

/-- A packet joins a queue. -/
theorem Gauges.joins {meter : Meter} {before after : Fin 64 → Gauge} {event : Event Command}
    {i : Fin 64} {gauge : Gauge} (silent : ∀ now answer, event ≠ .deque now (some answer))
    (joined : after = Function.update before i gauge) (drain : gauge.drain = (before i).drain)
    (grows : (before i).backlog ≤ gauge.backlog) : Gauges meter before event after := by
  subst joined
  refine .holds silent ?_ ?_
  · exact (Function.forall_update_iff before fun k gauge => gauge.drain = (before k).drain).mpr
      ⟨drain, fun _ _ => rfl⟩
  · exact (Function.forall_update_iff before fun k gauge =>
      (before k).backlog ≤ gauge.backlog).mpr ⟨grows, fun _ _ => le_rfl⟩

/-- A packet leaves the head of a queue. -/
theorem Gauges.leaves {meter : Meter} {before after : Fin 64 → Gauge} {now : ℚ} {i : Fin 64}
    {pkt head : Packet} {rest : List Packet} (size : pkt.size = head.size)
    (backlog : (before i).backlog = byteLength (head :: rest))
    (left : after = Function.update before i
      ⟨meter.measure now (byteLength rest) head.size (before i).drain, byteLength rest⟩) :
    @Gauges Command meter before (.deque now (some (i, pkt))) after := by
  subst left
  refine .sends ?_ ?_ (fun k other => Function.update_of_ne other _ _)
  · rw [Function.update_self, backlog, byteLength_cons, size]
  · rw [Function.update_self, size]

/-- When the link has sent all it was given. -/
def readyAfter (meter : Meter) (ready : Option ℚ) : Event Command → Option ℚ
  | .deque now (some (_, pkt)) => some (now + meter.transmission pkt.size)
  | _ => ready

/-- When an event sends a packet. -/
def Event.sendTime : Event Command → Option ℚ
  | .deque now (some _) => some now
  | _ => none

/-- An event that sends no packet is no dequeue that returns one. -/
theorem Event.silent {event : Event Command} (none : event.sendTime = none) (now : ℚ)
    (answer : Fin 64 × Packet) : event ≠ .deque now (some answer) := by
  rintro rfl
  cases none

/-- A packet is sent only once the link has sent the ones before. -/
def Paced (meter : Meter) : Option ℚ → List (Event Command) → Prop
  | _, [] => True
  | ready, event :: rest =>
      (∀ now ∈ event.sendTime, ∀ time ∈ ready, time ≤ now) ∧
        Paced meter (readyAfter meter ready event) rest

instance decidablePaced (meter : Meter) :
    (ready : Option ℚ) → (events : List (Event Command)) → Decidable (Paced meter ready events)
  | _, [] => inferInstanceAs (Decidable True)
  | ready, event :: rest =>
      have := decidablePaced meter (readyAfter meter ready event) rest
      inferInstanceAs (Decidable (_ ∧ _))

/-- The gauges of a queue between two events. -/
def Tracked (meter : Meter) (ready : Option ℚ) (gauges : Fin 64 → Gauge) : Prop :=
  ∀ i, Tracks meter ready (gauges i).drain (gauges i).backlog

variable {meter : Meter} {ready : Option ℚ} {before after : Fin 64 → Gauge}
  {event : Event Command}

/-- The step lemma. -/
theorem Tracked.step (valid : meter.Valid) (tracked : Tracked meter ready before)
    (gauges : Gauges meter before event after)
    (paced : ∀ now ∈ event.sendTime, ∀ time ∈ ready, time ≤ now) :
    Tracked meter (readyAfter meter ready event) after := by
  intro k
  have tracks := tracked k
  cases gauges with
  | @sends _ now i pkt left measured others =>
      have free := paced now rfl
      show Tracks meter (some (now + meter.transmission pkt.size)) _ _
      by_cases same : k = i
      · subst same
        rw [measured, measure_eq_count]
        rw [left] at tracks
        apply count_tracks valid pkt.size_pos
        · unfold Rated
          rw [started_avgDqRate]
          exact tracks.rated
        · exact started_counting valid free tracks
      · rw [others k same]
        refine ⟨tracks.counts.imp_right ?_, tracks.rated⟩
        rintro ⟨time, busy, counting⟩
        have lasts : 0 ≤ meter.transmission pkt.size := by
          unfold Meter.transmission
          exact div_nonneg (mul_nonneg (Nat.cast_nonneg _) (by decide)) valid.capacity.le
        exact ⟨_, rfl, counting.mono ((free time busy).trans (le_add_of_nonneg_right lasts)) le_rfl⟩
  | holds silent drains backlogs =>
      have same : readyAfter meter ready event = ready := by
        unfold readyAfter
        split
        next now i pkt => exact absurd rfl (silent now (i, pkt))
        next => rfl
      rw [same, drains k]
      refine ⟨tracks.counts.imp_right ?_, tracks.rated⟩
      rintro ⟨time, busy, counting⟩
      exact ⟨time, busy, counting.mono le_rfl (backlogs k)⟩

/-- The sample of a packet that leaves its queue. -/
theorem Tracks.sample {now interval sample : ℚ} {remaining pktSize : Nat} {rate : DrainRate}
    (valid : meter.Valid) (tracks : Tracks meter ready rate (pktSize + remaining))
    (paced : ∀ time ∈ ready, time ≤ now) (positive : 0 < pktSize)
    (samples :
      meter.sample now pktSize (meter.started now remaining rate) = some (interval, sample)) :
    0 < interval ∧ 0 < sample ∧ sample ≤ meter.linkCapacity := by
  rcases started_counting valid paced tracks with invalid | counting
  · unfold Meter.sample at samples
    rw [if_pos (Or.inl invalid)] at samples
    cases samples
  · exact counting.sample valid positive samples

end

/-! ### Disciplines -/

section

variable {State Command : Type}

/-- A discipline that measures the departure rates of its queues. -/
structure Metered (initial : State → Prop) (step : State → Event Command → State → Prop)
    (meter : State → Meter) (gauges : State → Fin 64 → Gauge) : Prop where
  fresh : ∀ {s}, initial s → ∀ i, (gauges s i).drain = DrainRate.initial
  fixed : ∀ {s event s'}, step s event s' → meter s' = meter s
  moves : ∀ {s event s'}, step s event s' → Gauges (meter s) (gauges s) event (gauges s')

/-- **Departure rates.** In every run in which the link sends one packet after the other, a
measurement in progress has counted less than its threshold and its queue holds what is missing;
a sample is taken over a positive time and is a rate of the link; and so is the average, once
there is one. -/
def RatesBounded (initial : State → Prop) (step : State → Event Command → State → Prop)
    (meter : State → Meter) (gauges : State → Fin 64 → Gauge) : Prop :=
  ∀ {start s : State} {events : List (Event Command)}, initial start → Run step start events s →
    (meter start).Valid → Paced (meter start) none events →
    (∀ i, ((gauges s i).drain.dqCount = dqCountInvalid ∨
        (0 ≤ (gauges s i).drain.dqCount ∧
          (gauges s i).drain.dqCount < (meter start).dqThresh ∧
          (meter start).dqThresh ≤ (gauges s i).backlog + (gauges s i).drain.dqCount)) ∧
      Rated (meter start) (gauges s i).drain) ∧
    ∀ {now : ℚ} {i : Fin 64} {pkt : Packet} {s' : State},
      step s (.deque now (some (i, pkt))) s' →
      Paced (meter start) none (events ++ [.deque now (some (i, pkt))]) →
      let started := (meter start).started now (gauges s' i).backlog (gauges s i).drain
      (gauges s' i).drain = (meter start).count now (gauges s' i).backlog pkt.size started ∧
        ∀ interval sample, (meter start).sample now pkt.size started = some (interval, sample) →
          0 < interval ∧ 0 < sample ∧ sample ≤ (meter start).linkCapacity

private theorem paced_append {meter : Meter} {ready : Option ℚ}
    {events more : List (Event Command)} :
    Paced meter ready (events ++ more) ↔
      Paced meter ready events ∧ Paced meter (events.foldl (readyAfter meter) ready) more := by
  induction events generalizing ready with
  | nil => exact (iff_of_eq (true_and _)).symm
  | cons event events inductionHypothesis =>
      simp only [List.cons_append, Paced, List.foldl_cons, inductionHypothesis, and_assoc]

variable {initial : State → Prop} {step : State → Event Command → State → Prop}
  {meter : State → Meter} {gauges : State → Fin 64 → Gauge} {start s : State}
  {events : List (Event Command)}

/-- The run lemma. -/
theorem Metered.tracked {ready : Option ℚ} (metered : Metered initial step meter gauges)
    (run : Run step start events s) (valid : (meter start).Valid)
    (paced : Paced (meter start) ready events)
    (tracked : Tracked (meter start) ready (gauges start)) :
    meter s = meter start ∧
      Tracked (meter start) (events.foldl (readyAfter (meter start)) ready) (gauges s) := by
  induction run generalizing ready with
  | nil start => exact ⟨rfl, tracked⟩
  | @cons first middle last event events head _ inductionHypothesis =>
      have same := metered.fixed head
      have between := tracked.step valid (metered.moves head) paced.1
      rw [← same] at valid paced between
      obtain ⟨fixed, after⟩ := inductionHypothesis valid paced.2 between
      rw [same] at after fixed
      exact ⟨fixed, after⟩

theorem Metered.ratesBounded (metered : Metered initial step meter gauges) :
    RatesBounded initial step meter gauges := by
  intro start s events fresh run valid paced
  have none : Tracked (meter start) none (gauges start) := by
    intro i
    rw [metered.fresh fresh i]
    exact ⟨Or.inl rfl, Or.inl rfl⟩
  obtain ⟨fixed, tracked⟩ := metered.tracked run valid paced none
  refine ⟨fun i => ⟨(tracked i).counts.imp_right ?_, (tracked i).rated⟩, ?_⟩
  · rintro ⟨time, _, counting⟩
    exact ⟨counting.nonneg, counting.short, counting.enough⟩
  · intro now i pkt s' head further
    have moves := metered.moves head
    rw [fixed] at moves
    cases moves with
    | sends left measured others =>
        refine ⟨by rw [measured, measure_eq_count], fun interval sample samples => ?_⟩
        have free := (paced_append.mp further).2.1 now rfl
        have tracks := tracked i
        rw [left] at tracks
        exact tracks.sample valid free pkt.size_pos samples
    | holds silent => exact absurd rfl (silent now (i, pkt))

end

end MqEcn.Ns2
