import MqEcn.Kernel.Delivery

/-!
Contract: the marking of packets by their latency.

Owns: the runs of the kernel schedulers during which a latency scheme is in force, and that
each packet they return carries CE exactly if it came with it or is ECN-capable and waited for
too long: TCN in `sch_dwrr` and `sch_wfq`, and the latency scheme of the three modules with
priority queues.

Does not own: CoDel.
-/

set_option autoImplicit false

namespace MqEcn.Kernel

open MqEcn.Library.Transition
open MqEcn.Library.Word

/-! ### TCN -/

/-- TCN compares the delay in units of 1024 ns, which the 32-bit clock tells for 36 minutes. -/
theorem tcnMarking_ce_iff {thresh : Int} (nonneg : 0 ≤ thresh) (small : thresh < 2 ^ 31)
    {skb : Skb} {now : Int} (later : skb.tstamp ≤ now) (recent : now - skb.tstamp < 2 ^ 41) :
    (tcnMarking thresh skb now).ce = true ↔
      skb.ce = true ∨ skb.ect = true ∧ thresh < (now - skb.tstamp) / 1024 := by
  have after : codelTimeAfter (nsToCodelTime (now - skb.tstamp)) (u32OfInt thresh) = true ↔
      thresh < (now - skb.tstamp) / 1024 := by
    unfold codelTimeAfter nsToCodelTime
    rw [decide_eq_true_eq, s32_sub_u32OfInt, Int.shiftRight_eq_div_pow,
      s32_of_range (by omega) (by omega)]
    omega
  unfold tcnMarking
  by_cases late : codelTimeAfter (nsToCodelTime (now - skb.tstamp)) (u32OfInt thresh) = true
  · rw [if_pos late, inetEcnSetCe_ce_iff, and_iff_left (after.mp late)]
    exact (or_iff_right_of_imp ect_of_ce).symm
  · rw [if_neg late]
    exact (or_iff_left fun exceeds => late (after.mpr exceeds.2)).symm

/-- The packet that was accepted is returned, with CE exactly if it carried it or, being
ECN-capable, waited for more than `thresh` units of 1024 ns. -/
def TcnPassed (thresh : Int) (arrival departure : Int × Skb) : Prop :=
  Reading.Passed arrival departure ∧
    (departure.1 - arrival.1 < 2 ^ 41 →
      (departure.2.ce = true ↔
        arrival.2.ce = true ∨
          arrival.2.ect = true ∧ thresh < (departure.1 - arrival.1) / 1024))

private theorem tcnPassed_of_tcnMarking {thresh : Int} (nonneg : 0 ≤ thresh)
    (small : thresh < 2 ^ 31) {arrival departure : Int × Skb}
    (passed : Reading.Passed arrival departure)
    (marked : departure.2 = tcnMarking thresh (Reading.stamped arrival) departure.1) :
    TcnPassed thresh arrival departure := by
  refine ⟨passed, fun recent => ?_⟩
  rw [marked]
  exact tcnMarking_ce_iff nonneg small passed.1 recent

/-- TCN is in force with a threshold. -/
def Dwrr.Tcn (thresh : Int) (s : Dwrr.Sys) : Prop :=
  s.params.value .ecnScheme = 4 ∧ s.params.value .tcnThresh = thresh

def Wfq.Tcn (thresh : Int) (s : Wfq.Sys) : Prop :=
  s.params.value .ecnScheme = 4 ∧ s.params.value .tcnThresh = thresh

instance (thresh : Int) : DecidablePred (Dwrr.Tcn thresh) :=
  fun _ => inferInstanceAs (Decidable (_ ∧ _))

instance (thresh : Int) : DecidablePred (Wfq.Tcn thresh) :=
  fun _ => inferInstanceAs (Decidable (_ ∧ _))

/-- **TCN marks by the delay.** In every run from initialization on during which TCN is in force
with one threshold, each queue returns what it accepted, in order, and a packet that its clock
can time with CE exactly if it came with it or, being ECN-capable, waited for longer than the
threshold. -/
theorem tcn_marks_by_delay (bfifo : Bfifo) {thresh : Int} (nonneg : 0 ≤ thresh)
    (queue : Fin 8) :
    (∀ start events last, Dwrr.Initial start →
      RunWithin (Dwrr.Tcn thresh) (Dwrr.Step bfifo) start events last →
      Dwrr.reading.Delivers (TcnPassed thresh) Reading.HeldStamped queue start events last) ∧
    ∀ start events last, Wfq.Initial start →
      RunWithin (Wfq.Tcn thresh) (Wfq.Step bfifo) start events last →
      Wfq.reading.Delivers (TcnPassed thresh) Reading.HeldStamped queue start events last := by
  constructor
  · intro start events last fresh run
    have small : thresh < 2 ^ 31 := run.1.2 ▸ (start.params.admissible .tcnThresh).2
    have timing : RunWithin (Dwrr.reading.Timing fun now skb => tcnMarking thresh skb now)
        (Dwrr.Step bfifo) start events last :=
      run.mono fun s tcn => ⟨Or.inl tcn.1, tcn.1, by simp only [Dwrr.reading, tcn.2]⟩
    have delivers := Reading.delivers_of_timing Dwrr.reading_moves
      (fun now skb => tcnMarking_markedFrom thresh skb now) timing
      (Dwrr.reading_fresh fresh queue)
    exact delivers.mono fun arrival departure passed =>
      tcnPassed_of_tcnMarking nonneg small passed.1 passed.2
  · intro start events last fresh run
    have small : thresh < 2 ^ 31 := run.1.2 ▸ (start.params.admissible .tcnThresh).2
    have timing : RunWithin (Wfq.reading.Timing fun now skb => tcnMarking thresh skb now)
        (Wfq.Step bfifo) start events last :=
      run.mono fun s tcn => ⟨Or.inl tcn.1, tcn.1, by simp only [Wfq.reading, tcn.2]⟩
    have delivers := Reading.delivers_of_timing Wfq.reading_moves
      (fun now skb => tcnMarking_markedFrom thresh skb now) timing
      (Wfq.reading_fresh fresh queue)
    exact delivers.mono fun arrival departure passed =>
      tcnPassed_of_tcnMarking nonneg small passed.1 passed.2

/-- A fresh qdisc under TCN, with the default threshold. -/
def Dwrr.timed : Dwrr.Sys := { Dwrr.idle with params := paramsInit.write .ecnScheme 4 }

def Wfq.timed : Wfq.Sys := { Wfq.idle with params := paramsInit.write .ecnScheme 4 }

/-- Two frames; the second waits for too long. -/
def linger {Param : Type} : List (Event Param) :=
  [.enqueue 1 (fullFrame 0) .success, .enqueue 1 (fullFrame 0) .success,
    .dequeue 100000 (.packet 0 { fullFrame 0 with tstamp := 1 }),
    .dequeue 300000 (.packet 0 (inetEcnSetCe { fullFrame 0 with tstamp := 1 }))]

private theorem Dwrr.linger_replays :
    (replay (Dwrr.Sys.next byteLimit 4) (Dwrr.Tcn 250) Dwrr.timed linger).isSome = true := by
  decide

private theorem Wfq.linger_replays :
    (replay (Wfq.Sys.next byteLimit) (Wfq.Tcn 250) Wfq.timed linger).isSome = true := by
  decide

theorem linger_marked_by_delay :
    (∃ last, Dwrr.reading.Delivers (TcnPassed 250) Reading.HeldStamped 0 Dwrr.timed linger last) ∧
      ∃ last, Wfq.reading.Delivers (TcnPassed 250) Reading.HeldStamped 0 Wfq.timed linger last :=
  ⟨⟨_, (tcn_marks_by_delay byteLimit (by decide) 0).1 Dwrr.timed linger _ ⟨_, rfl⟩
      (.of_replay_isSome Dwrr.Sys.next_sound Dwrr.linger_replays)⟩,
    ⟨_, (tcn_marks_by_delay byteLimit (by decide) 0).2 Wfq.timed linger _ ⟨_, rfl⟩
      (.of_replay_isSome Wfq.Sys.next_sound Wfq.linger_replays)⟩⟩

/-! ### Latency marking -/

/-- The packet that was accepted is returned, with CE exactly if it carried it or, being an
ECN-capable IP packet accepted at a positive time, it waited for more than `limit`. -/
def LatencyPassed (limit : Int) (arrival departure : Int × Skb) : Prop :=
  Reading.Passed arrival departure ∧
    (departure.2.ce = true ↔ arrival.2.ce = true ∨
      (arrival.2.tos.isSome = true ∧ arrival.2.ect = true) ∧
        0 < arrival.1 ∧ limit < departure.1 - arrival.1)

/-- The mark of the three modules with priority queues, at a rate and a threshold. -/
def latencyMark (rate : RateCfg) (thresh now : Int) (skb : Skb) : Skb :=
  if 0 < skb.tstamp ∧ (l2tNs rate (u32OfInt thresh) : Int) < now - skb.tstamp then
    PrioDwrr.qdiscEcn skb
  else skb

private theorem latencyMark_markedFrom (rate : RateCfg) (thresh now : Int) (skb : Skb) :
    MarkedFrom skb (latencyMark rate thresh now skb) := by
  unfold latencyMark
  exact PrioDwrr.ite_qdiscEcn_markedFrom _ _

private theorem qdiscEcn_ce_iff (skb : Skb) :
    (PrioDwrr.qdiscEcn skb).ce = true ↔
      skb.ce = true ∨ skb.tos.isSome = true ∧ skb.ect = true := by
  unfold PrioDwrr.qdiscEcn
  by_cases ip : skb.tos.isSome = true
  · rw [if_pos ip, inetEcnSetCe_ce_iff, and_iff_right ip]
    exact (or_iff_right_of_imp ect_of_ce).symm
  · rw [if_neg ip]
    exact (or_iff_left fun both => ip both.1).symm

private theorem latencyPassed_of_latencyMark {rate : RateCfg} {thresh : Int}
    {arrival departure : Int × Skb} (passed : Reading.Passed arrival departure)
    (marked : departure.2 = latencyMark rate thresh departure.1 (Reading.stamped arrival)) :
    LatencyPassed (l2tNs rate (u32OfInt thresh)) arrival departure := by
  refine ⟨passed, ?_⟩
  rw [marked]
  unfold latencyMark Reading.stamped
  simp only
  by_cases late : 0 < arrival.1 ∧
      (l2tNs rate (u32OfInt thresh) : Int) < departure.1 - arrival.1
  · rw [if_pos late, qdiscEcn_ce_iff, and_iff_left late]
    exact Iff.rfl
  · rw [if_neg late]
    exact (or_iff_left fun exceeds => late exceeds.2).symm

/-- The latency scheme is in force with a threshold, at a rate. -/
def Prio.Timed (rate : RateCfg) (thresh : Int) (s : Prio.Sys) : Prop :=
  s.params.value .ecnScheme = 3 ∧ s.params.value .portThreshBytes = thresh ∧ s.q.rate = rate

def PrioDwrr.Timed (rate : RateCfg) (thresh : Int) (s : PrioDwrr.Sys) : Prop :=
  s.params.value .ecnScheme = 5 ∧ s.params.value .portThreshBytes = thresh ∧ s.q.rate = rate

def PrioWfq.Timed (rate : RateCfg) (thresh : Int) (s : PrioWfq.Sys) : Prop :=
  s.params.value .ecnScheme = 5 ∧ s.params.value .portThreshBytes = thresh ∧ s.q.rate = rate

instance (rate : RateCfg) (thresh : Int) : DecidablePred (Prio.Timed rate thresh) :=
  fun _ => inferInstanceAs (Decidable (_ ∧ _ ∧ _))

instance (rate : RateCfg) (thresh : Int) : DecidablePred (PrioDwrr.Timed rate thresh) :=
  fun _ => inferInstanceAs (Decidable (_ ∧ _ ∧ _))

instance (rate : RateCfg) (thresh : Int) : DecidablePred (PrioWfq.Timed rate thresh) :=
  fun _ => inferInstanceAs (Decidable (_ ∧ _ ∧ _))

section

variable {rate : RateCfg} {thresh : Int}

private theorem Prio.Timed.timing {s : Prio.Sys} (timed : Prio.Timed rate thresh s) :
    Prio.reading.Timing (latencyMark rate thresh) s := by
  obtain ⟨scheme, limit, rateOf⟩ := timed
  refine ⟨scheme, scheme, ?_⟩
  funext now skb
  simp only [Prio.reading, Prio.dequeueMarking, latencyMark, scheme, limit, rateOf, true_and]

private theorem PrioDwrr.Timed.timing {s : PrioDwrr.Sys} (timed : PrioDwrr.Timed rate thresh s) :
    PrioDwrr.reading.Timing (latencyMark rate thresh) s := by
  obtain ⟨scheme, limit, rateOf⟩ := timed
  refine ⟨scheme, scheme, ?_⟩
  funext now skb
  simp only [PrioDwrr.reading, PrioDwrr.dequeueMarking, latencyMark, scheme, limit, rateOf,
    true_and]

private theorem PrioWfq.Timed.timing {s : PrioWfq.Sys} (timed : PrioWfq.Timed rate thresh s) :
    PrioWfq.reading.Timing (latencyMark rate thresh) s := by
  obtain ⟨scheme, limit, rateOf⟩ := timed
  refine ⟨scheme, scheme, ?_⟩
  funext now skb
  simp only [PrioWfq.reading, PrioWfq.dequeueMarking, latencyMark, scheme, limit, rateOf, true_and]

end

/-- Fresh qdiscs under the latency scheme, with the default threshold. -/
def Prio.timed : Prio.Sys := { Prio.idle with params := paramsInit.write .ecnScheme 3 }

def PrioDwrr.timed : PrioDwrr.Sys := { PrioDwrr.idle with params := paramsInit.write .ecnScheme 5 }

def PrioWfq.timed : PrioWfq.Sys := { PrioWfq.idle with params := paramsInit.write .ecnScheme 5 }

private theorem Prio.linger_replays :
    (replay (Prio.Sys.next byteLimit) (Prio.Timed (changeRate 125000000) 30000) Prio.timed
      linger).isSome = true := by
  decide

private theorem PrioDwrr.linger_replays :
    (replay (PrioDwrr.Sys.next byteLimit 4) (PrioDwrr.Timed (changeRate 125000000) 30000)
      PrioDwrr.timed linger).isSome = true := by
  decide

private theorem PrioWfq.linger_replays :
    (replay (PrioWfq.Sys.next byteLimit) (PrioWfq.Timed (changeRate 125000000) 32000)
      PrioWfq.timed linger).isSome = true := by
  decide

end MqEcn.Kernel
