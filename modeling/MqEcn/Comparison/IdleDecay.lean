import MqEcn.Kernel.PrioDwrr.Idle
import MqEcn.Ns2.PrioDwrr.Idle

/-!
Contract: the idle periods of `sch_prio_dwrr` and of the NS2 PRIO_DWRR discipline.

Owns: when the traffic of the priority queues lets the estimates decay once in an idle period
of the DWRR queues, and periods in which it does not.

Does not own: the decay of one arrival.
-/

set_option autoImplicit false

namespace MqEcn.Comparison

open MqEcn.Kernel
open MqEcn.Library.Transition

namespace IdleDecay

/-- What a period of the kernel port leads to. -/
def kernelPeriod (events : List (Kernel.Event PrioDwrr.Param)) : Option PrioDwrr.Sys :=
  (replay (PrioDwrr.Sys.next byteLimit 1) (fun s => PrioDwrr.DwrrIdle s.q) PrioDwrr.sent
    events).bind fun middle =>
      middle.next byteLimit 1 (.enqueue 70000 (fullFrame 4) .success)

private theorem kernelPeriod_sound {events : List (Kernel.Event PrioDwrr.Param)}
    {last : PrioDwrr.Sys} (keeps : ∀ event ∈ events, PrioDwrr.keepsParams event = true)
    (leads : kernelPeriod events = some last) :
    PrioDwrr.IdlePeriod byteLimit PrioDwrr.sent.params 20000 70000 PrioDwrr.sent
      (events ++ [.enqueue 70000 (fullFrame 4) .success]) last := by
  rcases Option.bind_eq_some_iff.mp leads with ⟨middle, during, ends⟩
  exact PrioDwrr.idlePeriod_of_replay keeps during ends

private theorem brief_leads : (kernelPeriod PrioDwrr.briefTraffic).isSome = true := by decide

private theorem late_leads : (kernelPeriod PrioDwrr.lateTraffic).isSome = true := by decide

private theorem standing_leads : (kernelPeriod PrioDwrr.standingTraffic).isSome = true := by decide

/-! ### Periods of the NS2 port -/

/-- A scheme with an estimate, on a link that sends 1500 bytes in a second. -/
def ns2Config (scheme : Int) : Ns2.PrioDwrr.Config :=
  { Ns2.PrioDwrr.defaultConfig with
    markingScheme := scheme
    linkCapacity := 12000 }

/-- A packet of the priority queue. -/
def prioPacket : Ns2.Packet := ⟨0, 1500, false, false, 0, Ns2.fullSize_pos⟩

/-- A packet of the first DWRR queue. -/
def dwrrPacket : Ns2.Packet := ⟨1, 1500, false, false, 0, Ns2.fullSize_pos⟩

def ns2Next : Ns2.PrioDwrr.Sys → Ns2.PrioDwrr.Event → Option Ns2.PrioDwrr.Sys :=
  Ns2.PrioDwrr.Sys.next Ns2.wholePow 2

/-- Two packets come to a DWRR queue, and one of them leaves. -/
def ns2History : List Ns2.PrioDwrr.Event :=
  [.enque 0 dwrrPacket true, .enque 0 dwrrPacket true,
    .deque 1 (some (.inr 0, dwrrPacket))]

/-- The port in second 2, when the other packet has left, and what a period leads to from
there. -/
def ns2Period (scheme : Int) (events : List Ns2.PrioDwrr.Event) :
    Option (Ns2.PrioDwrr.Sys × Ns2.PrioDwrr.Sys) :=
  (replay ns2Next (fun _ => True) ⟨ns2Config scheme, Ns2.PrioDwrr.construct, 0⟩ ns2History).bind
    fun before => (ns2Next before (.deque 2 (some (.inr 0, dwrrPacket)))).bind
    fun first => (replay ns2Next (fun s => Ns2.PrioDwrr.DwrrIdle s.q) first events).bind
    fun middle => (ns2Next middle (.enque 5 dwrrPacket true)).map
    fun last => (first, last)

/-- A priority packet comes and leaves one second into the period, and the port finds itself
empty. -/
def ns2Brief : List Ns2.PrioDwrr.Event :=
  [.enque 3 prioPacket true, .deque 3 (some (.inl 0, prioPacket)), .deque 3 none]

/-- A priority packet comes and leaves two seconds into the period. -/
def ns2Late : List Ns2.PrioDwrr.Event :=
  [.enque 4 prioPacket true, .deque 4 (some (.inl 0, prioPacket))]

private theorem ns2Period_sound {scheme : Int} {events : List Ns2.PrioDwrr.Event}
    {period : Ns2.PrioDwrr.Sys × Ns2.PrioDwrr.Sys} (leads : period ∈ ns2Period scheme events) :
    period.1.config = ns2Config scheme ∧
      Ns2.PrioDwrr.IdlePeriod Ns2.wholePow 2 5 period.1
        (events ++ [.enque 5 dwrrPacket true]) period.2 := by
  obtain ⟨before, loads, sends⟩ := Option.bind_eq_some_iff.mp leads
  obtain ⟨first, empties, rests⟩ := Option.bind_eq_some_iff.mp sends
  obtain ⟨middle, during, ends⟩ := Option.bind_eq_some_iff.mp rests
  obtain ⟨last, arrives, rfl⟩ := Option.map_eq_some_iff.mp ends
  have loaded := (RunWithin.of_replay Ns2.PrioDwrr.Sys.next_sound loads).run
  have emptied := Ns2.PrioDwrr.Sys.next_sound empties
  have rested := RunWithin.of_replay Ns2.PrioDwrr.Sys.next_sound during
  have steady : ∀ {s s' : Ns2.PrioDwrr.Sys} {event : Ns2.PrioDwrr.Event},
      Ns2.PrioDwrr.Step Ns2.wholePow s event s' → s.config = ns2Config scheme →
        s'.config = ns2Config scheme :=
    fun step same => (Ns2.PrioDwrr.config_of_step step).trans same
  have start := steady emptied (loaded.preserves _ steady rfl)
  have reachable : Ns2.PrioDwrr.Reachable Ns2.wholePow before :=
    ⟨⟨ns2Config scheme, Ns2.PrioDwrr.construct, 0⟩, ns2History, rfl, loaded⟩
  have target : Ns2.PrioDwrr.queueOf middle.config
      (Ns2.PrioDwrr.queueIndex middle.config dwrrPacket) = some (.inr 0) := by
    rw [rested.run.preserves _ steady start]
    rfl
  exact ⟨start,
    .intro reachable emptied rested (Ns2.PrioDwrr.Sys.next_sound arrives) target⟩

/-- The exponents of the brief period add up under either scheme. -/
theorem ns2Brief_counts : ∀ scheme ∈ [Ns2.Dwrr.mqMarkingRr, Ns2.Dwrr.mqMarkingGener],
    ∃ period ∈ ns2Period scheme ns2Brief, period.1.q.dwrr.quantumSum = 0 ∧
      Ns2.PrioDwrr.fading (ns2Config scheme) period.1.q ≠ 0 ∧
      Ns2.PrioDwrr.periodParts (ns2Config scheme) 2 5 period.1.q
        (ns2Brief ++ [.enque 5 dwrrPacket true]) = 1 ∧
      Ns2.PrioDwrr.CountsOnce (ns2Config scheme) 2 5 period.1.q
        (ns2Brief ++ [.enque 5 dwrrPacket true]) := by
  decide +kernel

/-- The late period decays either estimate twice. -/
theorem ns2Late_repeats : ∀ scheme ∈ [Ns2.Dwrr.mqMarkingRr, Ns2.Dwrr.mqMarkingGener],
    ∃ period ∈ ns2Period scheme ns2Late,
      ¬Ns2.PrioDwrr.DecaysOnce Ns2.wholePow 2 5 period.1 period.2 := by
  decide +kernel

end IdleDecay

open IdleDecay

end MqEcn.Comparison
