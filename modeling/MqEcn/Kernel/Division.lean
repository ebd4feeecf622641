import MqEcn.Kernel.Dwrr.Threshold
import MqEcn.Kernel.PrioDwrr.Bookkeeping

/-!
Contract: the divisions of the MQ-ECN markings of `sch_dwrr` and `sch_prio_dwrr`.

Owns: which divisions an operation executes and with which divisors, the state its marking
reads them from, the condition under which none of them divides by zero in a run, and runs in
which one does.

Does not own: the thresholds that are computed.
-/

set_option autoImplicit false

namespace MqEcn.Kernel

open MqEcn.Library.Transition
open MqEcn.Library.Word

/-! ### The configured rate -/

section

variable {State Param : Type}

/-- The rate that was requested last, after an event. -/
def rateAfter (rate : Nat) : Event Param → Nat
  | .change requested => requested
  | _ => rate

/-- A step of a qdisc beside the rate that was requested last. -/
def Configured (step : State → Event Param → State → Prop) (first : State × Nat)
    (event : Event Param) (last : State × Nat) : Prop :=
  step first.1 event last.1 ∧ last.2 = rateAfter first.2 event

end

/-- The rate in bits per second is zero only for a request of zero bytes per second. -/
theorem changeRate_rateBps_eq_zero_iff (rate : Nat) :
    (changeRate rate).rateBps = 0 ↔ u32 rate = 0 := by
  have same : changeRate rate = changeRate (u32 rate) := by
    unfold changeRate u32
    rw [Nat.mod_mod]
  have word : u32 rate < 2 ^ 32 := Nat.mod_lt _ (by decide)
  rw [same, Dwrr.changeRate_rateBps word]
  omega

/-! ### `sch_dwrr` -/

namespace Dwrr

/-- The queue for whose packet an operation runs `mq_ecn_marking`. -/
def mqMarked (params : Params) : Event Param → Option (Fin 8)
  | .enqueue _ skb .success =>
      if params.value .ecnScheme = 3 ∧ params.value .enableDequeueEcn = 0 then
        some (dwrrClassify params skb)
      else none
  | .dequeue _ (.packet i _) =>
      if params.value .ecnScheme = 3 ∧ params.value .enableDequeueEcn = 1 then some i else none
  | _ => none

/-- The divisors of the divisions an operation executes that leaves `s`: it marks last. -/
def divisors (event : Event Param) (s : Sys) : List Nat :=
  match mqMarked s.params event with
  | none => []
  | some i => mqEcnDivisors s.q (s.q.queues i)

/-- The marking of an enqueue reads what the enqueue leaves. -/
theorem dwrrAdmit_marks (params : Params) (now : Int) (i prio : Fin 8) (skb : Skb)
    (q : DwrrSchedData) :
    ((dwrrAdmit params now i prio skb q).queues i).qdisc =
      (q.queues i).qdisc ++
        [enqueueMarking params now skb (dwrrAdmit params now i prio skb q) i
          ((dwrrAdmit params now i prio skb q).queues i)] := by
  unfold dwrrAdmit
  simp only [Function.update_self]
  rfl

/-- So does that of a dequeue. -/
theorem dwrrTransmit_marks {params : Params} (now : Int) (prio i : Fin 8) (skb : Skb)
    (rest : List Skb) (result : Int) (q : DwrrSchedData)
    (scheme : params.value .ecnScheme = 3 ∧ params.value .enableDequeueEcn = 1) :
    (dwrrTransmit params now prio i skb rest result q).2 =
      mqEcnMarking params skb (dwrrTransmit params now prio i skb rest result q).1
        ((dwrrTransmit params now prio i skb rest result q).1.queues i) := by
  unfold dwrrTransmit dequeueMarking dwrrQlenMarking
  simp only [scheme, Function.update_self]
  rfl

/-- A packet that an operation runs `mq_ecn_marking` for is stored, or returned, as that leaves
it at the state the operation leaves. -/
def MarksLast (first : Sys) (event : Event Param) (last : Sys) : Prop :=
  ∀ i, mqMarked last.params event = some i →
    match event with
    | .enqueue _ skb _ => (last.q.queues i).qdisc =
        (first.q.queues i).qdisc ++ [mqEcnMarking last.params skb last.q (last.q.queues i)]
    | .dequeue _ (.packet _ returned) => ∃ skb, (first.q.queues i).qdisc.head? = some skb ∧
        returned = mqEcnMarking last.params skb last.q (last.q.queues i)
    | _ => True

private theorem marksLast_of_step {bfifo : Bfifo} {s s' : Sys} {event : Event Param}
    (step : Step bfifo s event s') : MarksLast s event s' := by
  intro i marked
  cases step with
  | @enqueue now skb q' ret later returns =>
      obtain ⟨roundTime, ⟨refused, rfl⟩ | ⟨rfl, _, rfl⟩⟩ := dwrrEnqueue_cases returns
      · cases ret with
        | success => exact absurd rfl refused
        | drop | cn => cases marked
      · simp only [mqMarked, Option.ite_none_right_eq_some, Option.some.injEq] at marked
        obtain ⟨⟨scheme, arriving⟩, rfl⟩ := marked
        refine (dwrrAdmit_marks _ _ _ _ _ _).trans ?_
        simp only [enqueueMarking, dwrrQlenMarking, scheme, arriving]
        rfl
  | @dequeue now fuel q' outcome later returns =>
      rcases dwrrDequeue_cases returns with ⟨_, _, rfl⟩ | ⟨prio, middle, _, rotations, exit⟩
      · cases marked
      · cases exit with
        | fault | null | throttled => cases marked
        | @packet k ring skb rest head front affordable enough =>
            simp only [mqMarked, Option.ite_none_right_eq_some, Option.some.injEq] at marked
            obtain ⟨leaving, rfl⟩ := marked
            rw [qdisc_of_view (view_of_rotations rotations)] at front
            exact ⟨skb, by rw [front]; rfl, dwrrTransmit_marks now prio k skb rest _ middle leaving⟩
  | sysctl | change => cases marked

/-- An operation that runs `mq_ecn_marking` does so at a rate that is not zero, and with a
round time that 32 bits do not make zero. -/
def Divides (event : Event Param) (last : Sys × Nat) : Prop :=
  ∀ i, mqMarked last.1.params event = some i → u32 last.2 ≠ 0 ∧
    ¬(0 < last.1.q.roundTime (last.1.q.queues i).prio ∧
      2 ^ 32 ∣ last.1.q.roundTime (last.1.q.queues i).prio)

/-- The rate is the one that was requested last. -/
theorem rate_of_configured {bfifo : Bfifo} {first last : Sys × Nat} {event : Event Param}
    (configured : Configured (Step bfifo) first event last)
    (before : first.1.q.rate = changeRate first.2) : last.1.q.rate = changeRate last.2 := by
  rcases configured with ⟨step, requested⟩
  rw [requested]
  rcases last with ⟨s', _⟩
  cases step with
  | enqueue later returns =>
      rcases dwrrEnqueue_cases returns with ⟨roundTime, ⟨_, rfl⟩ | ⟨_, _, rfl⟩⟩
      · exact before
      · exact before
  | dequeue later returns =>
      rcases dwrrDequeue_cases returns with ⟨_, rfl, _⟩ | ⟨prio, middle, _, rotations, exit⟩
      · exact before
      · have same := (rate_of_rotations rotations).trans before
        cases exit with
        | fault | null | throttled | packet => exact same
  | sysctl => exact before
  | change => rfl

private theorem u32OfInt_eq_zero_iff {value : Int} : u32OfInt value = 0 ↔ 2 ^ 32 ∣ value := by
  unfold u32OfInt
  omega

private theorem divides_iff {event : Event Param} {last : Sys × Nat}
    (rate : last.1.q.rate = changeRate last.2) :
    Divides event last ↔ ∀ divisor ∈ divisors event last.1, divisor ≠ 0 := by
  have zero := changeRate_rateBps_eq_zero_iff last.2
  unfold Divides divisors
  cases marked : mqMarked last.1.params event with
  | none => simp
  | some i =>
      simp only [Option.some.injEq, forall_eq', mqEcnDivisors, rate]
      split
      next positive => simp [positive, u32OfInt_eq_zero_iff, zero, and_comm]
      next short => simp [short, zero]

end Dwrr

/-! ### `sch_prio_dwrr` -/

namespace PrioDwrr

/-- The divisors of the divisions in the MQ-ECN branches. -/
def mqEcnDivisors (params : Params) (q : PrioDwrrSchedData) : List Int :=
  match params.value .ecnScheme with
  | 3 => if 0 < q.quantumSumEstimate then [(q.quantumSumEstimate : Int)] else []
  | 4 => if 0 < q.roundTimeNs then [q.roundTimeNs, (q.rate.rateBps : Int)] else []
  | _ => []

/-- The DWRR queue an operation stores a packet in. -/
def stores (params : Params) : Event Param → Option (Fin 7)
  | .enqueue _ skb .success => (queueOf (qdiscClassify params skb)).getRight?
  | _ => none

/-- The divisors of the divisions an operation executes that leaves `s`: an enqueue to a DWRR
queue marks last. -/
def divisors (event : Event Param) (s : Sys) : List Int :=
  match stores s.params event with
  | none => []
  | some _ => mqEcnDivisors s.params s.q

/-- The marking of an enqueue to a DWRR queue reads what the enqueue leaves. -/
theorem dwrrAdmit_marks (params : Params) (now : Int) (i : Fin 7) (skb : Skb)
    (q : PrioDwrrSchedData) :
    ((dwrrAdmit params now i skb q).dwrrQueues i).qdisc =
      (q.dwrrQueues i).qdisc ++
        [dwrrEnqueueMarking params now skb (dwrrAdmit params now i skb q) (dwrrId i)
          ((dwrrAdmit params now i skb q).dwrrQueues i)] := by
  unfold dwrrAdmit
  simp only [Function.update_self]
  rfl

/-- A packet that an operation stores in a DWRR queue is stored as its marking leaves it at the
state the operation leaves. -/
def MarksLast (first : Sys) (event : Event Param) (last : Sys) : Prop :=
  ∀ i, stores last.params event = some i →
    match event with
    | .enqueue now skb _ => (last.q.dwrrQueues i).qdisc = (first.q.dwrrQueues i).qdisc ++
        [dwrrEnqueueMarking last.params now skb last.q (dwrrId i) (last.q.dwrrQueues i)]
    | _ => True

private theorem marksLast_of_step {bfifo : Bfifo} {s s' : Sys} {event : Event Param}
    (step : Step bfifo s event s') : MarksLast s event s' := by
  intro i stored
  cases step with
  | @enqueue now skb q' ret later returns =>
      obtain ⟨roundTimeNs, quantumSumEstimate, reset⟩ := exists_idleReset_eq s.params now s.q
      have same : (idleReset s.params now s.q).dwrrQueues = s.q.dwrrQueues := by rw [reset]
      cases qdiscEnqueue_cases returns with
      | refused refused =>
          cases ret with
          | success => exact absurd rfl refused
          | drop | cn => cases stored
      | prio target =>
          simp only [stores, target, queueOf_prioId] at stored
          cases stored
      | @dwrr k target accepted =>
          simp only [stores, target, queueOf_dwrrId] at stored
          cases stored
          refine (dwrrAdmit_marks _ _ _ _ _).trans ?_
          rw [same]
  | dequeue | sysctl | change => cases stored

/-- An enqueue to a DWRR queue that marks by a positive round time does so at a rate that is
not zero. -/
def Divides (event : Event Param) (last : Sys × Nat) : Prop :=
  ∀ i, stores last.1.params event = some i → last.1.params.value .ecnScheme = 4 →
    0 < last.1.q.roundTimeNs → u32 last.2 ≠ 0

private theorem rate_of_rotations {params : Params} {now : Int} {q middle : PrioDwrrSchedData}
    (rotations : Relation.ReflTransGen (Rotates params now) q middle) :
    middle.rate = q.rate := by
  induction rotations with
  | refl => rfl
  | tail _ last inductionHypothesis =>
      cases last with
      | intro head front blocked =>
          rw [refresh_eq]
          exact inductionHypothesis

/-- The rate is the one that was requested last. -/
theorem rate_of_configured {bfifo : Bfifo} {first last : Sys × Nat} {event : Event Param}
    (configured : Configured (Step bfifo) first event last)
    (before : first.1.q.rate = changeRate first.2) : last.1.q.rate = changeRate last.2 := by
  rcases configured with ⟨step, requested⟩
  rw [requested]
  rcases last with ⟨s', _⟩
  cases step with
  | @enqueue now skb q' ret later returns =>
      obtain ⟨roundTimeNs, quantumSumEstimate, reset⟩ :=
        exists_idleReset_eq first.1.params now first.1.q
      have same : (idleReset first.1.params now first.1.q).rate = changeRate first.2 := by
        rw [reset]
        exact before
      cases qdiscEnqueue_cases returns with
      | refused | prio | dwrr => exact same
  | dequeue later returns =>
      cases qdiscDequeue_cases returns with
      | prio busy ends =>
          cases ends with
          | null | throttled | packet => exact before
      | dwrr idle active rotations exit =>
          have same := (rate_of_rotations rotations).trans before
          cases exit with
          | fault => exact same
          | null | throttled =>
              rw [refresh_eq]
              exact same
          | packet =>
              rcases transmit_counters _ _ _ _ _ _ _ with ⟨_, _, _, _, rate⟩
              exact rate.trans same
      | idle idle inactive stays nothing =>
          rw [stays]
          exact before
  | sysctl => exact before
  | change => rfl

private theorem mqEcnDivisors_ne_zero_iff (params : Params) (q : PrioDwrrSchedData) :
    (∀ divisor ∈ mqEcnDivisors params q, divisor ≠ 0) ↔
      (params.value .ecnScheme = 4 → 0 < q.roundTimeNs → q.rate.rateBps ≠ 0) := by
  unfold mqEcnDivisors
  split
  next gener =>
    -- the estimate is tested before it is divided by
    have other : ¬params.value .ecnScheme = 4 := by omega
    split
    next positive => simp [other, positive.ne']
    next => simp [other]
  next roundRobin =>
    split
    next positive => simp [roundRobin, positive, positive.ne']
    next short => simp [short]
  next other => exact iff_of_true (by simp) fun roundRobin => absurd roundRobin other

private theorem divides_iff {event : Event Param} {last : Sys × Nat}
    (rate : last.1.q.rate = changeRate last.2) :
    Divides event last ↔ ∀ divisor ∈ divisors event last.1, divisor ≠ 0 := by
  have zero := changeRate_rateBps_eq_zero_iff last.2
  unfold Divides divisors
  cases stores last.1.params event with
  | none => simp
  | some i =>
      rw [mqEcnDivisors_ne_zero_iff, rate]
      simp [zero]

end PrioDwrr

/-! ### Runs -/

/-- **Divisions.** The markings of both schedulers read the state their operation leaves. In a run
of either, every division of a marking has a divisor that is not zero if and only if every marking
that divides by the rate finds one that was requested and is not zero, and no `mq_ecn_marking`
finds a positive round time that is a multiple of `2 ^ 32`. -/
theorem markings_divide_iff (bfifo : Bfifo) :
    (∀ first event last, Dwrr.Step bfifo first event last → Dwrr.MarksLast first event last) ∧
    (∀ (start last : Dwrr.Sys × Nat) (events : List (Event Dwrr.Param)),
      start.1.q = Dwrr.dwrrInit start.1.clock start.2 →
      (Run (fun first event last => Configured (Dwrr.Step bfifo) first event last ∧
          Dwrr.Divides event last) start events last ↔
        Run (fun first event last => Configured (Dwrr.Step bfifo) first event last ∧
          ∀ divisor ∈ Dwrr.divisors event last.1, divisor ≠ 0) start events last)) ∧
    (∀ first event last, PrioDwrr.Step bfifo first event last →
      PrioDwrr.MarksLast first event last) ∧
    ∀ (start last : PrioDwrr.Sys × Nat) (events : List (Event PrioDwrr.Param)),
      start.1.q = PrioDwrr.qdiscInit start.1.clock start.2 →
      (Run (fun first event last => Configured (PrioDwrr.Step bfifo) first event last ∧
          PrioDwrr.Divides event last) start events last ↔
        Run (fun first event last => Configured (PrioDwrr.Step bfifo) first event last ∧
          ∀ divisor ∈ PrioDwrr.divisors event last.1, divisor ≠ 0) start events last) := by
  refine ⟨fun _ _ _ step => Dwrr.marksLast_of_step step, ?_,
    fun _ _ _ step => PrioDwrr.marksLast_of_step step, ?_⟩
  · intro start last events fresh
    apply Run.iff_of_invariant (fun s => s.1.q.rate = changeRate s.2) Dwrr.rate_of_configured
      (fun _ rate => Dwrr.divides_iff rate)
    rw [fresh]
    rfl
  · intro start last events fresh
    apply Run.iff_of_invariant (fun s => s.1.q.rate = changeRate s.2) PrioDwrr.rate_of_configured
      (fun _ rate => PrioDwrr.divides_iff rate)
    rw [fresh]
    rfl

/-! ### Ports that mark by MQ-ECN -/

/-- What an event leads to, beside the rate that was requested last. -/
def configuredNext {State Param : Type} (next : State → Event Param → Option State)
    (first : State × Nat) (event : Event Param) : Option (State × Nat) :=
  (next first.1 event).map fun last => (last, rateAfter first.2 event)

private theorem configuredNext_sound {State Param : Type}
    {next : State → Event Param → Option State} {step : State → Event Param → State → Prop}
    (sound : ∀ {first last event}, next first event = some last → step first event last)
    {first last : State × Nat} {event : Event Param}
    (leads : configuredNext next first event = some last) : Configured step first event last := by
  rcases Option.map_eq_some_iff.mp leads with ⟨state, found, rfl⟩
  exact ⟨sound found, rfl⟩

/-- A port of `sch_dwrr` that forgets the round time before the last. -/
def Dwrr.marking (rate : Nat) : Dwrr.Sys × Nat :=
  (⟨(Dwrr.paramsInit.write .ecnScheme 3).write .roundAlpha 0, Dwrr.dwrrInit 0 rate, 0⟩, rate)

/-- A port of `sch_prio_dwrr` that marks by the round time. -/
def PrioDwrr.marking (rate : Nat) : PrioDwrr.Sys × Nat :=
  (⟨PrioDwrr.paramsInit.write .ecnScheme 4, PrioDwrr.qdiscInit 0 rate, 0⟩, rate)

/-- A frame of queue 0 that leaves an empty port at `now`, where another one arrives. -/
def Dwrr.relay (now : Int) : List (Event Dwrr.Param) :=
  [.enqueue 10 (fullFrame 0) .success, .dequeue now (.packet 0 (fullFrame 0)),
    .enqueue now (fullFrame 0) .success]

def PrioDwrr.relay (now : Int) : List (Event PrioDwrr.Param) :=
  [.enqueue 10 (fullFrame 4) .success, .dequeue now (.packet 1 (fullFrame 4)),
    .enqueue now (fullFrame 4) .success]

/-- The states from which no marking divides by zero. -/
def Dwrr.Divisible (s : Dwrr.Sys × Nat) : Prop :=
  u32 s.2 ≠ 0 ∧ ∀ prio, ¬(0 < s.1.q.roundTime prio ∧ 2 ^ 32 ∣ s.1.q.roundTime prio)

instance (s : Dwrr.Sys × Nat) : Decidable (Dwrr.Divisible s) := by
  unfold Dwrr.Divisible
  infer_instance

private theorem Dwrr.relay_replays :
    (replay (configuredNext (Dwrr.Sys.next byteLimit 1)) Dwrr.Divisible
    (Dwrr.marking 125000000) (Dwrr.relay 20000)).isSome = true := by
  decide

private theorem PrioDwrr.relay_replays : (replay (configuredNext (PrioDwrr.Sys.next byteLimit 1))
    (fun s => u32 s.2 ≠ 0) (PrioDwrr.marking 125000000) (PrioDwrr.relay 20000)).isSome = true := by
  decide

theorem relays_divide :
    (∃ last, Run (fun first event last => Configured (Dwrr.Step byteLimit) first event last ∧
        ∀ divisor ∈ Dwrr.divisors event last.1, divisor ≠ 0)
      (Dwrr.marking 125000000) (Dwrr.relay 20000) last) ∧
    ∃ last, Run (fun first event last => Configured (PrioDwrr.Step byteLimit) first event last ∧
        ∀ divisor ∈ PrioDwrr.divisors event last.1, divisor ≠ 0)
      (PrioDwrr.marking 125000000) (PrioDwrr.relay 20000) last := by
  constructor
  · have within := RunWithin.of_replay_isSome (configuredNext_sound Dwrr.Sys.next_sound)
      Dwrr.relay_replays
    have divide := (markings_divide_iff byteLimit).2.1
    refine ⟨_, (divide _ _ _ rfl).mp (within.2.mono fun inside => ?_)⟩
    exact ⟨inside.2.1, fun i _ => ⟨inside.2.2.1, inside.2.2.2 _⟩⟩
  · have within := RunWithin.of_replay_isSome (configuredNext_sound PrioDwrr.Sys.next_sound)
      PrioDwrr.relay_replays
    have divide := (markings_divide_iff byteLimit).2.2.2
    refine ⟨_, (divide _ _ _ rfl).mp (within.2.mono fun inside => ?_)⟩
    exact ⟨inside.2.1, fun i _ _ _ => inside.2.2⟩

private theorem Dwrr.unrated_replays : (replay (configuredNext (Dwrr.Sys.next byteLimit 1))
    (fun _ => True) (Dwrr.marking 0) [.enqueue 10 (fullFrame 0) .success]).isSome = true := by
  decide

private theorem Dwrr.longRound_replays : (replay (configuredNext (Dwrr.Sys.next byteLimit 1))
    (fun _ => True) (Dwrr.marking 125000000) (Dwrr.relay (2 ^ 32 + 10 - 12304))).isSome = true := by
  decide

private theorem PrioDwrr.unrated_replays : (replay (configuredNext (PrioDwrr.Sys.next byteLimit 1))
    (fun _ => True) (PrioDwrr.marking 0) (PrioDwrr.relay 20000)).isSome = true := by
  decide

/-- A request of rate zero lets both schedulers divide by zero, and so does in `sch_dwrr` a
round time of `2 ^ 32` nanoseconds. -/
theorem marking_divides_by_zero :
    (∃ last, Run (Configured (Dwrr.Step byteLimit)) (Dwrr.marking 0)
        [.enqueue 10 (fullFrame 0) .success] last ∧
      0 ∈ Dwrr.divisors (.enqueue 10 (fullFrame 0) .success) last.1) ∧
    (∃ last, Run (Configured (Dwrr.Step byteLimit)) (Dwrr.marking 125000000)
        (Dwrr.relay (2 ^ 32 + 10 - 12304)) last ∧
      0 ∈ Dwrr.divisors (.enqueue (2 ^ 32 + 10 - 12304) (fullFrame 0) .success) last.1) ∧
    ∃ last, Run (Configured (PrioDwrr.Step byteLimit)) (PrioDwrr.marking 0)
        (PrioDwrr.relay 20000) last ∧
      0 ∈ PrioDwrr.divisors (.enqueue 20000 (fullFrame 4) .success) last.1 := by
  have unrated := RunWithin.of_replay_isSome (configuredNext_sound Dwrr.Sys.next_sound)
    Dwrr.unrated_replays
  have longRound := RunWithin.of_replay_isSome (configuredNext_sound Dwrr.Sys.next_sound)
    Dwrr.longRound_replays
  have prio := RunWithin.of_replay_isSome (configuredNext_sound PrioDwrr.Sys.next_sound)
    PrioDwrr.unrated_replays
  refine ⟨⟨_, unrated.run, ?_⟩, ⟨_, longRound.run, ?_⟩, _, prio.run, ?_⟩
  · decide
  · decide
  · decide

end MqEcn.Kernel
