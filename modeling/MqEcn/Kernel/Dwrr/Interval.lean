import MqEcn.Kernel.Dwrr.Bookkeeping
import MqEcn.Library.Since

/-!
Contract: what `first_above_time` of a `sch_dwrr` class says about the dequeues from it.

Owns: what each operation does to the CoDel fields of a class, the steps of a class
that is marked by CoDel with one target and one interval, the history its
`first_above_time` records, and the interval that precedes the first mark.

Does not own: the marks after the first, and the control law.
-/

set_option autoImplicit false

namespace MqEcn.Kernel.Dwrr

open MqEcn.Kernel
open MqEcn.Library.Transition
open MqEcn.Library.Word
open Relation (ReflTransGen)

/-! ### The CoDel fields -/

/-- The module parameters select CoDel with this target and this interval. -/
def CodelSettings (target interval : Int) (params : Params) : Prop :=
  params.value .ecnScheme = 5 ∧ params.value .codelTarget = target ∧
    params.value .codelInterval = interval

instance (target interval : Int) (params : Params) :
    Decidable (CodelSettings target interval params) :=
  inferInstanceAs (Decidable (_ ∧ _ ∧ _))

private theorem dwrrTransmit_codel {target interval : Int} {params : Params}
    (settings : CodelSettings target interval params) (now : Int) (prio i : Fin 8) (skb : Skb)
    (rest : List Skb) (result : Int) (q : DwrrSchedData) :
    ((dwrrTransmit params now prio i skb rest result q).1.queues i).codel =
      (codelMarking target interval
        ((dwrrTransmit params now prio i skb rest result q).1.queues i).lenBytes skb now
        (q.queues i).codel).2 := by
  obtain ⟨scheme, isTarget, isInterval⟩ := settings
  simp [dwrrTransmit, dequeueMarking, scheme, isTarget, isInterval]

private theorem dwrrTransmit_codel_of_scheme {params : Params} (other : params.value .ecnScheme ≠ 5)
    (now : Int) (prio i : Fin 8) (skb : Skb) (rest : List Skb) (result : Int)
    (q : DwrrSchedData) :
    ((dwrrTransmit params now prio i skb rest result q).1.queues i).codel =
      (q.queues i).codel := by
  simp only [dwrrTransmit, dequeueMarking, if_neg other, Function.update_self]
  split
  · rfl
  · split
    · rfl
    · rfl

private theorem dwrrTransmit_codel_of_ne (params : Params) (now : Int) (prio : Fin 8)
    {i other : Fin 8} (skb : Skb) (rest : List Skb) (result : Int) (q : DwrrSchedData)
    (different : other ≠ i) :
    ((dwrrTransmit params now prio i skb rest result q).1.queues other).codel =
      (q.queues other).codel := by
  simp [dwrrTransmit, Function.update_of_ne different]

private theorem dwrrRotate_codel (params : Params) (prio i : Fin 8) (q : DwrrSchedData)
    (k : Fin 8) :
    ((dwrrRotate params prio i q).queues k).codel = (q.queues k).codel := by
  by_cases same : k = i
  · subst same
    simp [dwrrRotate]
  · simp [dwrrRotate, same]

private theorem codel_of_rotations {params : Params} {prio : Fin 8} {q middle : DwrrSchedData}
    (rotations : ReflTransGen (Rotates params prio) q middle) (k : Fin 8) :
    (middle.queues k).codel = (q.queues k).codel := by
  induction rotations with
  | refl => rfl
  | tail _ last inductionHypothesis =>
      cases last with
      | intro head front blocked => rw [dwrrRotate_codel, inductionHypothesis]

private theorem dwrrAdmit_codel (params : Params) (now : Int) (i prio : Fin 8) (skb : Skb)
    (q : DwrrSchedData) (k : Fin 8) :
    ((dwrrAdmit params now i prio skb q).queues k).codel = (q.queues k).codel := by
  unfold dwrrAdmit
  by_cases same : k = i
  · subst same
    by_cases idle : (q.queues k).qdisc = []
    · simp [idle]
    · simp [idle]
  · simp [same]

private theorem dwrrEnqueue_codel {bfifo : Bfifo} {params : Params} {now : Int} {skb : Skb}
    {q q' : DwrrSchedData} {ret : NetXmit}
    (returns : dwrrEnqueue bfifo params now skb q = (q', ret)) (k : Fin 8) :
    (q'.queues k).codel = (q.queues k).codel := by
  obtain ⟨roundTime, ⟨_, rfl⟩ | ⟨_, _, rfl⟩⟩ := dwrrEnqueue_cases returns
  · rfl
  · exact dwrrAdmit_codel _ _ _ _ _ _ _

/-- The CoDel fields of a class after a dequeue from it under CoDel. -/
theorem dwrrDequeue_codel {target interval now : Int} {params : Params} {fuel : Nat}
    {q q' : DwrrSchedData} {i : Fin 8} {sent : Skb}
    (settings : CodelSettings target interval params)
    (returns : dwrrDequeue params now fuel q = some (q', .packet i sent)) :
    ∃ skb, (q'.queues i).codel =
      (codelMarking target interval (q'.queues i).lenBytes skb now (q.queues i).codel).2 := by
  obtain ⟨_, _, other⟩ | ⟨prio, middle, _, rotations, exit⟩ := dwrrDequeue_cases returns
  · cases other
  · cases exit with
    | @packet _ _ skb rest head front affordable enough =>
        refine ⟨skb, ?_⟩
        rw [dwrrTransmit_codel settings, codel_of_rotations rotations]

/-- A dequeue from another class, or under another scheme, leaves the fields alone. -/
theorem dwrrDequeue_codel_same {now : Int} {params : Params} {fuel : Nat}
    {q q' : DwrrSchedData} {outcome : Dequeued} {i : Fin 8}
    (elsewhere : ∀ sent, outcome = .packet i sent → params.value .ecnScheme ≠ 5)
    (returns : dwrrDequeue params now fuel q = some (q', outcome)) :
    (q'.queues i).codel = (q.queues i).codel := by
  obtain ⟨_, rfl, _⟩ | ⟨prio, middle, _, rotations, exit⟩ := dwrrDequeue_cases returns
  · rfl
  · rw [← codel_of_rotations rotations i]
    cases exit with
    | fault empty => rfl
    | null head empty => rfl
    | throttled head front affordable short => rfl
    | @packet j _ _ _ head front affordable enough =>
        by_cases same : i = j
        · subst same
          exact dwrrTransmit_codel_of_scheme (elsewhere _ rfl) _ _ _ _ _ _ _
        · exact dwrrTransmit_codel_of_ne _ _ _ _ _ _ _ same

/-! ### The steps of a class under CoDel -/

/-- A dequeue that returns a packet of queue `i`. -/
def DequeuesFrom (i : Fin 8) (event : Event Param) : Prop :=
  ∃ now sent, event = .dequeue now (.packet i sent)

/-- A step that marks with CoDel, this target and this interval where it dequeues from
queue `i`. -/
def CodelStep (bfifo : Bfifo) (i : Fin 8) (target interval : Int) (s : Sys) (event : Event Param)
    (s' : Sys) : Prop :=
  Step bfifo s event s' ∧ (DequeuesFrom i event → CodelSettings target interval s.params)

/-- The last packet from queue `i` was delayed for the target or longer, and left more than
one packet behind it. -/
def Above (target : Int) (i : Fin 8) (s : Sys) : Prop :=
  CodelAbove target (s.q.queues i).lenBytes (s.q.queues i).codel

private theorem Step.clock_le {bfifo : Bfifo} {s s' : Sys} {event : Event Param}
    (step : Step bfifo s event s') : s.clock ≤ s'.clock := by
  cases step with
  | enqueue later returns => exact later
  | dequeue later returns => exact later
  | sysctl param value => exact le_refl _
  | change rate => exact le_refl _

section

variable {bfifo : Bfifo} {i : Fin 8} {target interval : Int} {s s' : Sys} {event : Event Param}

/-- A step that does not dequeue from queue `i` under CoDel leaves its fields alone. -/
theorem Step.codel_same (step : Step bfifo s event s')
    (elsewhere : DequeuesFrom i event → s.params.value .ecnScheme ≠ 5) :
    (s'.q.queues i).codel = (s.q.queues i).codel := by
  cases step with
  | enqueue later returns => exact dwrrEnqueue_codel returns i
  | @dequeue now fuel q' outcome later returns =>
      apply dwrrDequeue_codel_same _ returns
      rintro sent rfl
      exact elsewhere ⟨now, sent, rfl⟩
  | sysctl param value => rfl
  | change rate => rfl

/-- CoDel has not marked from queue `i` yet: its fields are as `dwrr_init` leaves them. -/
def Untouched (i : Fin 8) (s : Sys) : Prop := (s.q.queues i).codel = Codel.initial

/-- Until the first dequeue from queue `i` under CoDel its fields are untouched. -/
theorem untouched_of_run {start : Sys} {events : List (Event Param)} (fresh : Initial start)
    (run : Run (fun s event s' => Step bfifo s event s' ∧
      (DequeuesFrom i event → s.params.value .ecnScheme ≠ 5)) start events s) :
    Untouched i s := by
  apply run.preserves (Untouched i)
  · intro before event after step untouched
    exact (step.1.codel_same step.2).trans untouched
  · obtain ⟨rate, isInit⟩ := fresh
    unfold Untouched
    rw [isInit]
    rfl

/-- A step under CoDel that dequeues from queue `i` calls `codel_marking` once. -/
theorem CodelStep.codel {now : Int} {sent : Skb}
    (step : CodelStep bfifo i target interval s (.dequeue now (.packet i sent)) s') :
    s'.clock = now ∧ ∃ skb, (s'.q.queues i).codel =
      (codelMarking target interval (s'.q.queues i).lenBytes skb now (s.q.queues i).codel).2 := by
  obtain ⟨step, settings⟩ := step
  cases step with
  | dequeue later returns => exact ⟨rfl, dwrrDequeue_codel (settings ⟨now, sent, rfl⟩) returns⟩

/-! ### What the end of the interval records -/

/-- The end of the interval, where one is stored: zero stands for none. -/
def intervalEnd (i : Fin 8) (s : Sys) : Option Nat :=
  if (s.q.queues i).codel.firstAboveTime = 0 then none
  else some (s.q.queues i).codel.firstAboveTime

/-- The dequeue from queue `i` that went above and stored `value`. -/
def Opens (i : Fin 8) (target interval : Int) (value : Nat) (_ : Sys) (event : Event Param)
    (s' : Sys) : Prop :=
  ∃ start sent, event = .dequeue start (.packet i sent) ∧ s'.clock = start ∧
    value = u32 (nsToCodelTime start + u32OfInt interval) ∧ Above target i s'

/-- A dequeue from queue `i` stays above. -/
def StaysAbove (i : Fin 8) (target : Int) (_ : Sys) (event : Event Param) (s' : Sys) : Prop :=
  DequeuesFrom i event → Above target i s'

/-- Every step clears the end of the interval, stores a new one, or leaves it and stays
above. An end that falls on zero counts as cleared. -/
theorem recorded :
    Recorded (intervalEnd i) (Opens i target interval) (CodelStep bfifo i target interval)
      (StaysAbove i target) := by
  intro s event s' step
  by_cases dequeues : DequeuesFrom i event
  · obtain ⟨now, sent, rfl⟩ := dequeues
    obtain ⟨clock, skb, codel⟩ := step.codel
    unfold intervalEnd
    rcases codelMarking_cases codel.symm with
      ⟨cleared, _⟩ | ⟨above, _, stored⟩ | ⟨above, _, same, _⟩
    · exact Or.inl (if_pos cleared)
    · by_cases collides : (s'.q.queues i).codel.firstAboveTime = 0
      · exact Or.inl (if_pos collides)
      · exact Or.inr (Or.inl ⟨_, if_neg collides, now, sent, rfl, clock, stored, above⟩)
    · exact Or.inr (Or.inr ⟨by rw [same], fun _ => above⟩)
  · refine Or.inr (Or.inr ⟨?_, fun here => absurd here dequeues⟩)
    unfold intervalEnd
    rw [step.1.codel_same fun here => absurd here dequeues]

/-- A class that starts marking has an interval stored, and it has run out. -/
theorem CodelStep.of_marks (step : CodelStep bfifo i target interval s event s')
    (calm : (s.q.queues i).codel.marking = false)
    (marks : (s'.q.queues i).codel.marking = true) :
    DequeuesFrom i event ∧ Above target i s' ∧
      intervalEnd i s = some (s.q.queues i).codel.firstAboveTime ∧
      codelTimeAfter (nsToCodelTime s'.clock) (s.q.queues i).codel.firstAboveTime = true := by
  by_cases dequeues : DequeuesFrom i event
  · refine ⟨dequeues, ?_⟩
    obtain ⟨now, sent, rfl⟩ := dequeues
    obtain ⟨rfl, skb, codel⟩ := step.codel
    rcases codelMarking_cases codel.symm with
      ⟨_, calm'⟩ | ⟨_, calm', _⟩ | ⟨above, set, _, verdict⟩
    · rw [calm'] at marks
      cases marks
    · rw [calm'] at marks
      cases marks
    · exact ⟨above, if_neg set, verdict.symm.trans marks⟩
  · rw [step.1.codel_same fun here => absurd here dequeues, calm] at marks
    cases marks

/-- An interval lies between the two times, on the clock and in its 32-bit readings. -/
def Elapsed (interval start now : Int) : Prop :=
  (start >>> (10 : Nat)) + interval ≤ now >>> (10 : Nat) ∧
    interval ≤ u32Sub (nsToCodelTime now) (nsToCodelTime start)

/-- **A full interval.** A class starts marking only after a full interval above the target: an
earlier dequeue from it is an interval or longer ago, and every dequeue from that one on has
stayed above. The dequeues may be any time apart, and the clock may wrap between them. -/
theorem interval_before_marking {start : Sys} {events : List (Event Param)}
    (positive : 0 < interval) (half : interval < 2 ^ 31) (untouched : Untouched i start)
    (run : Run (CodelStep bfifo i target interval) start events s)
    (step : CodelStep bfifo i target interval s event s')
    (calm : (s.q.queues i).codel.marking = false)
    (marks : (s'.q.queues i).codel.marking = true) :
    DequeuesFrom i event ∧ Above target i s' ∧
      Since (CodelStep bfifo i target interval)
        (fun _ earlier opened => DequeuesFrom i earlier ∧
          Elapsed interval opened.clock s'.clock ∧ Above target i opened)
        (StaysAbove i target) start events s := by
  obtain ⟨dequeues, above, stored, after⟩ := step.of_marks calm marks
  refine ⟨dequeues, above, ?_⟩
  have blank : intervalEnd i start = none := by
    unfold intervalEnd
    rw [untouched]
    rfl
  apply (run.since (intervalEnd i) (Opens i target interval) recorded blank stored).mono
  · intro opened earlier begun rest _ later opens
    obtain ⟨begin, sent, rfl, rfl, isEnd, aboveThen⟩ := opens
    rw [isEnd] at after
    have ordered : begun.clock ≤ s'.clock := by
      have toHere : begun.clock ≤ s.clock :=
        later.preserves (fun between => begun.clock ≤ between.clock)
          (fun step sofar => sofar.trans step.1.clock_le) le_rfl
      exact toHere.trans step.1.clock_le
    obtain ⟨unwrapped, wrapped⟩ := interval_elapsed ordered positive half after
    exact ⟨⟨_, sent, rfl⟩, ⟨unwrapped.le, wrapped.le⟩, aboveThen⟩
  · exact fun _ keeps => keeps

end

/-- A thousand units before the 32-bit clock wraps. -/
def nearWrap : Int := (2 ^ 32 - 1000) * 1024

/-- A fresh qdisc under CoDel, with the target and the interval of `params.c`. -/
def codelStart : Sys := ⟨paramsInit.write .ecnScheme 5, dwrrInit nearWrap 125000000, nearWrap⟩

/-- A full frame as the FIFO stores it under CoDel. -/
def stampedFrame : Skb := { fullFrame 0 with tstamp := nearWrap }

/-- Five frames, and two dequeues above the target, one before the wrap and one after. -/
def codelHistory : List (Event Param) :=
  List.replicate 5 (.enqueue nearWrap (fullFrame 0) .success) ++
    [.dequeue (nearWrap + 200 * 1024) (.packet 0 stampedFrame),
      .dequeue (nearWrap + 1500 * 1024) (.packet 0 stampedFrame)]

/-- The dequeue that finds the interval over. -/
def codelMark : Event Param :=
  .dequeue (nearWrap + 2500 * 1024) (.packet 0 (inetEcnSetCe stampedFrame))

private theorem codelHistory_replays :
    (replay (Sys.next byteLimit 4) (fun s => CodelSettings 100 2000 s.params) codelStart
      codelHistory).isSome = true := by
  decide

/-- The qdisc before it marks. -/
def beforeMark : Sys := Option.get _ codelHistory_replays

private theorem codelMark_answers : (beforeMark.next byteLimit 4 codelMark).isSome = true := by
  decide

/-- The qdisc after it. -/
def afterMark : Sys := Option.get _ codelMark_answers

/-- An interval of 2000 units that runs across the wrap. -/
theorem interval_across_wrap :
    DequeuesFrom 0 codelMark ∧ Above 100 0 afterMark ∧
      Since (CodelStep byteLimit 0 100 2000)
        (fun _ earlier opened => DequeuesFrom 0 earlier ∧
          Elapsed 2000 opened.clock afterMark.clock ∧ Above 100 0 opened)
        (StaysAbove 0 100) codelStart codelHistory beforeMark := by
  have within := RunWithin.of_replay_isSome Sys.next_sound codelHistory_replays
  have run : Run (CodelStep byteLimit 0 100 2000) codelStart codelHistory beforeMark :=
    within.2.mono fun inside => ⟨inside.2.1, fun _ => inside.1⟩
  have step : CodelStep byteLimit 0 100 2000 beforeMark codelMark afterMark :=
    ⟨Sys.next_sound (Option.some_get _).symm, fun _ => within.good_last⟩
  have untouched : Untouched 0 codelStart := rfl
  have calm : (beforeMark.q.queues 0).codel.marking = false := by decide
  have marks : (afterMark.q.queues 0).codel.marking = true := by decide
  exact interval_before_marking (by decide) (by decide) untouched run step calm marks

end MqEcn.Kernel.Dwrr
