import MqEcn.Kernel.Dwrr.Loop

/-!
Contract: the sign of the round times of `sch_dwrr`.

Owns: the samples a dequeue folds into the round time, the order in which the packets of a
queue leave the wire and under which no sample is negative, the invariant that carries it over
a run, and a run at full speed in which a sample and the round time are negative.

Does not own: the threshold computed from a round time.
-/

set_option autoImplicit false

namespace MqEcn.Kernel.Dwrr

open MqEcn.Kernel
open MqEcn.Library.Transition
open MqEcn.Library.Word
open Relation (ReflTransGen)

/-! ### The filter -/

theorem roundAlpha_range (params : Params) :
    0 ≤ params.value .roundAlpha ∧ params.value .roundAlpha ≤ 1024 :=
  params.admissible .roundAlpha

/-- The weighted sum `s64_ewma` shifts fits into 64 bits. -/
def EwmaFits (params : Params) (smooth sample : Int) : Prop :=
  smooth * params.value .roundAlpha + sample * (1024 - params.value .roundAlpha) < 2 ^ 63

/-- The sum of two values below `2 ^ 53` fits. -/
theorem ewmaFits_of_lt {params : Params} {smooth sample : Int} (nonneg : 0 ≤ smooth)
    (smoothSmall : smooth < 2 ^ 53) (positive : 0 ≤ sample) (sampleSmall : sample < 2 ^ 53) :
    EwmaFits params smooth sample := by
  rcases roundAlpha_range params with ⟨low, high⟩
  have kept : smooth * params.value .roundAlpha ≤ (2 ^ 53 - 1) * params.value .roundAlpha :=
    mul_le_mul_of_nonneg_right (by omega) low
  have added : sample * (1024 - params.value .roundAlpha) ≤
      (2 ^ 53 - 1) * (1024 - params.value .roundAlpha) :=
    mul_le_mul_of_nonneg_right (by omega) (by omega)
  unfold EwmaFits
  omega

/-- A sum that fits keeps the round time non-negative and below `2 ^ 53`. -/
theorem ewmaRound_range {params : Params} {smooth sample : Int} (nonneg : 0 ≤ smooth)
    (positive : 0 ≤ sample) (fits : EwmaFits params smooth sample) :
    0 ≤ ewmaRound params smooth sample ∧ ewmaRound params smooth sample < 2 ^ 53 := by
  rcases roundAlpha_range params with ⟨low, high⟩
  have kept : 0 ≤ smooth * params.value .roundAlpha := mul_nonneg nonneg low
  have added : 0 ≤ sample * (1024 - params.value .roundAlpha) :=
    mul_nonneg positive (by omega)
  have complement : ((1 <<< 10 : Nat) : Int) - params.value .roundAlpha =
      1024 - params.value .roundAlpha := rfl
  unfold EwmaFits at fits
  unfold ewmaRound s64Ewma
  rw [complement, s64_of_range (by omega) (by omega : smooth * _ < 2 ^ 63),
    s64_of_range (by omega) (by omega : sample * _ < 2 ^ 63), s64_of_range (by omega) fits,
    Int.shiftRight_eq_div_pow]
  omega

/-- A round time that was in range decays within the range. -/
theorem ewmaRound_zero_range {params : Params} {smooth : Int}
    (range : 0 ≤ smooth ∧ smooth < 2 ^ 53) :
    0 ≤ ewmaRound params smooth 0 ∧ ewmaRound params smooth 0 < 2 ^ 53 := by
  rcases roundAlpha_range params with ⟨low, high⟩
  apply ewmaRound_range range.1 le_rfl
  unfold EwmaFits
  calc smooth * params.value .roundAlpha + 0 * (1024 - params.value .roundAlpha)
      = smooth * params.value .roundAlpha := by rw [zero_mul, add_zero]
    _ ≤ (2 ^ 53 - 1) * 1024 := mul_le_mul (by omega) high low (by decide)
    _ < 2 ^ 63 := by decide

/-- Every round time is non-negative, and far from the bounds of its type. -/
def RoundsInRange (q : DwrrSchedData) : Prop :=
  ∀ prio, 0 ≤ q.roundTime prio ∧ q.roundTime prio < 2 ^ 53

private theorem RoundsInRange.reset {q : DwrrSchedData} (range : RoundsInRange q) (params : Params)
    (now : Int) (prio : Fin 8) : RoundsInRange (resetRound params now prio q) := by
  have decays : ∀ (iter : Nat) (smooth : Int), 0 ≤ smooth ∧ smooth < 2 ^ 53 →
      0 ≤ (fun smooth => ewmaRound params smooth 0)^[iter] smooth ∧
        (fun smooth => ewmaRound params smooth 0)^[iter] smooth < 2 ^ 53 := by
    intro iter
    induction iter with
    | zero => exact fun smooth inside => inside
    | succ iter inductionHypothesis =>
        intro smooth inside
        exact inductionHypothesis _ (ewmaRound_zero_range inside)
  intro other
  unfold resetRound
  simp only
  by_cases same : other = prio
  · subst same
    rw [Function.update_self]
    generalize (if q.prioLenBytes other = 0 ∧ 0 < params.value .idleIntervalNs then
      (now - q.lastIdleTime other).tdiv (params.value .idleIntervalNs) else 0) = iter
    split
    · decide
    · exact decays _ _ (range other)
  · rw [Function.update_of_ne same]
    exact range other

/-! ### Samples -/

/-- The samples a dequeue passes to `ewma_round`, with the priority and the state in which
it does: one at every rotation, one when the packet sent is the last of its queue. -/
inductive Samples (params : Params) (now : Int) (q : DwrrSchedData) :
    Fin 8 → DwrrSchedData → Int → Prop
  | rotation {prio i : Fin 8} {middle : DwrrSchedData} {ring : List (Fin 8)} {skb : Skb}
      {rest : List Skb} (selected : prioSchedule q = some prio)
      (rotations : ReflTransGen (Rotates params prio) q middle)
      (head : middle.active prio = i :: ring) (front : (middle.queues i).qdisc = skb :: rest)
      (blocked : (middle.queues i).deficit < skbSize skb) :
      Samples params now q prio middle
        ((middle.queues i).lastPktTime - (middle.queues i).startTime)
  | last {prio i : Fin 8} {middle : DwrrSchedData} {ring : List (Fin 8)} {skb : Skb}
      (selected : prioSchedule q = some prio)
      (rotations : ReflTransGen (Rotates params prio) q middle)
      (head : middle.active prio = i :: ring) (front : (middle.queues i).qdisc = [skb])
      (affordable : skbSize skb ≤ (middle.queues i).deficit)
      (enough : 0 ≤ tbfSchedule params (skbSize skb) middle now) :
      Samples params now q prio middle
        (now + l2tNs middle.rate (skbSize skb) - (middle.queues i).startTime)

/-! ### Departures in order -/

/-- For every queue the time at which the packet sent last is off the wire, while packets are
left that waited behind it. -/
abbrev Ends : Type := Fin 8 → Option Int

/-- The time at which a packet sent at `now` is off the wire. -/
def wireEnd (s : Sys) (now : Int) (skb : Skb) : Int := now + l2tNs s.q.rate (skbSize skb)

def Ends.after (ends : Ends) (s : Sys) : Event Param → Ends
  | .dequeue now (.packet i skb) =>
      Function.update ends i
        (if (s.q.queues i).qdisc.length ≤ 1 then none else some (wireEnd s now skb))
  | _ => ends

/-- A packet that waited behind another of its queue is off the wire no earlier than that one,
and within `2 ^ 53` nanoseconds from `origin` on. -/
def InOrder (origin : Int) (ends : Ends) (s : Sys) : Event Param → Prop
  | .dequeue now (.packet i skb) =>
      (∀ before ∈ ends i, before ≤ wireEnd s now skb) ∧ wireEnd s now skb < origin + 2 ^ 53
  | _ => True

instance (origin : Int) (ends : Ends) (s : Sys) (event : Event Param) :
    Decidable (InOrder origin ends s event) := by
  unfold InOrder
  split <;> infer_instance

/-- An operation in order, with what it leaves to the next one. -/
structure OrderlyStep (bfifo : Bfifo) (origin : Int) (first : Sys × Ends) (event : Event Param)
    (last : Sys × Ends) : Prop where
  step : Step bfifo first.1 event last.1
  order : InOrder origin first.2 first.1 event
  ends : last.2 = first.2.after first.1 event

/-! ### The invariant -/

/-- Where nothing was sent since a queue was activated, its turn began by now and covers the
head packet; else it began no later than the packet sent last was off the wire. -/
structure Paced (origin clock : Int) (ends : Ends) (q : DwrrSchedData) : Prop where
  rounds : RoundsInRange q
  since : origin ≤ clock
  idle : ∀ {i : Fin 8}, (q.queues i).qdisc = [] → ends i = none
  begun : ∀ {i : Fin 8}, (q.queues i).qdisc ≠ [] → origin ≤ (q.queues i).startTime
  first : ∀ {i : Fin 8} {skb : Skb} {rest : List Skb}, (q.queues i).qdisc = skb :: rest →
    ends i = none → (q.queues i).startTime ≤ clock ∧ skbSize skb ≤ (q.queues i).deficit
  later : ∀ {i : Fin 8} {sent : Int}, ends i = some sent →
    (q.queues i).lastPktTime = sent ∧ (q.queues i).startTime ≤ sent ∧ sent < origin + 2 ^ 53

section

variable {params : Params} {origin clock now : Int} {ends : Ends} {q : DwrrSchedData}

private theorem RoundsInRange.update {q' : DwrrSchedData} (rounds : RoundsInRange q) {prio : Fin 8}
    {sample : Int} (nonneg : 0 ≤ sample) (small : sample < 2 ^ 53)
    (folded : q'.roundTime =
      Function.update q.roundTime prio (ewmaRound params (q.roundTime prio) sample)) :
    RoundsInRange q' := by
  intro other
  rw [folded]
  by_cases same : other = prio
  · subst same
    rw [Function.update_self]
    have range := rounds other
    exact ewmaRound_range range.1 nonneg (ewmaFits_of_lt range.1 range.2 nonneg small)
  · rw [Function.update_of_ne same]
    exact rounds other

theorem Paced.wait (paced : Paced origin clock ends q) (later : clock ≤ now) :
    Paced origin now ends q where
  rounds := paced.rounds
  since := paced.since.trans later
  idle := paced.idle
  begun := paced.begun
  first := fun front none => ⟨(paced.first front none).1.trans later, (paced.first front none).2⟩
  later := paced.later

/-- A queue whose turn is over has sent a packet, and the turn lasted until that was off the
wire. -/
theorem Paced.turn (paced : Paced origin clock ends q) {i : Fin 8} {skb : Skb} {rest : List Skb}
    (front : (q.queues i).qdisc = skb :: rest) (blocked : (q.queues i).deficit < skbSize skb) :
    ends i = some (q.queues i).lastPktTime ∧ origin ≤ (q.queues i).startTime ∧
      (q.queues i).startTime ≤ (q.queues i).lastPktTime ∧
      (q.queues i).lastPktTime < origin + 2 ^ 53 := by
  cases sentLast : ends i with
  | none =>
      have covered := (paced.first front sentLast).2
      omega
  | some sent =>
      obtain ⟨rfl, turn, small⟩ := paced.later sentLast
      exact ⟨rfl, paced.begun (by rw [front]; exact List.cons_ne_nil _ _), turn, small⟩

/-- A rotation folds a sample that is not negative. -/
theorem Paced.rotate (paced : Paced origin clock ends q) {prio i : Fin 8} {skb : Skb}
    {rest : List Skb} (front : (q.queues i).qdisc = skb :: rest)
    (blocked : (q.queues i).deficit < skbSize skb) :
    Paced origin clock ends (dwrrRotate params prio i q) := by
  obtain ⟨sentLast, begun, turn, small⟩ := paced.turn front blocked
  have contents : ∀ k, ((dwrrRotate params prio i q).queues k).qdisc = (q.queues k).qdisc :=
    qdisc_of_view (view_rotate params prio i q)
  have own : ((dwrrRotate params prio i q).queues i).startTime = (q.queues i).lastPktTime ∧
      ((dwrrRotate params prio i q).queues i).lastPktTime = (q.queues i).lastPktTime := by
    simp [dwrrRotate]
  have others : ∀ k ≠ i, (dwrrRotate params prio i q).queues k = q.queues k :=
    fun k different => Function.update_of_ne different _ _
  constructor
  · exact paced.rounds.update (by omega) (by omega) rfl
  · exact paced.since
  · intro k empty
    exact paced.idle ((contents k).symm.trans empty)
  · intro k busy
    by_cases same : k = i
    · subst same
      rw [own.1]
      omega
    · rw [others k same] at busy ⊢
      exact paced.begun busy
  · intro k skb' rest' front' none
    by_cases same : k = i
    · subst same
      rw [sentLast] at none
      cases none
    · rw [others k same] at front' ⊢
      exact paced.first front' none
  · intro k sent isSent
    by_cases same : k = i
    · subst same
      rw [sentLast] at isSent
      cases isSent
      rw [own.1, own.2]
      exact ⟨rfl, le_rfl, small⟩
    · rw [others k same]
      exact paced.later isSent

private theorem Paced.rotations (paced : Paced origin clock ends q) {prio : Fin 8}
    {middle : DwrrSchedData} (rotations : ReflTransGen (Rotates params prio) q middle) :
    Paced origin clock ends middle := by
  induction rotations with
  | refl => exact paced
  | tail _ last inductionHypothesis =>
      cases last with
      | intro head front blocked => exact inductionHypothesis.rotate front blocked

/-- The turn of the queue that sends began before what it sends in order is off the wire. -/
theorem Paced.turn_le (paced : Paced origin clock ends q) (later : clock ≤ now) {i : Fin 8}
    {skb : Skb} {rest : List Skb} (front : (q.queues i).qdisc = skb :: rest) {wire : Nat}
    (order : ∀ before ∈ ends i, before ≤ now + (wire : Int)) :
    origin ≤ (q.queues i).startTime ∧ (q.queues i).startTime ≤ now + wire := by
  refine ⟨paced.begun (by rw [front]; exact List.cons_ne_nil _ _), ?_⟩
  cases sentLast : ends i with
  | none =>
      have begun := (paced.first front sentLast).1
      omega
  | some sent =>
      have turn := (paced.later sentLast).2.1
      have inOrder := order sent sentLast
      omega

/-- A packet sent in order leaves the queues paced. -/
theorem Paced.transmit (paced : Paced origin clock ends q) (later : clock ≤ now) {prio i : Fin 8}
    {skb : Skb} {rest : List Skb} (result : Int) (front : (q.queues i).qdisc = skb :: rest)
    (order : ∀ before ∈ ends i, before ≤ now + l2tNs q.rate (skbSize skb))
    (small : now + l2tNs q.rate (skbSize skb) < origin + 2 ^ 53) :
    Paced origin now
      (Function.update ends i
        (if rest = [] then none else some (now + l2tNs q.rate (skbSize skb))))
      (dwrrTransmit params now prio i skb rest result q).1 := by
  have turn := paced.turn_le later front order
  have contents := dwrrTransmit_qdisc params now prio i skb rest result q
  have own : ((dwrrTransmit params now prio i skb rest result q).1.queues i).startTime =
        (q.queues i).startTime ∧
      ((dwrrTransmit params now prio i skb rest result q).1.queues i).lastPktTime =
        now + l2tNs q.rate (skbSize skb) := by
    simp [dwrrTransmit]
  have others : ∀ k ≠ i, (dwrrTransmit params now prio i skb rest result q).1.queues k =
      q.queues k := by
    intro k different
    simp only [dwrrTransmit, Function.update_of_ne different]
  constructor
  · by_cases last : rest = []
    · exact paced.rounds.update (by omega) (by omega) (if_pos last)
    · have same : (dwrrTransmit params now prio i skb rest result q).1.roundTime =
          q.roundTime := if_neg last
      intro other
      rw [same]
      exact paced.rounds other
  · exact paced.since.trans later
  · intro k empty
    rw [contents] at empty
    by_cases same : k = i
    · subst same
      rw [if_pos rfl] at empty
      rw [Function.update_self, if_pos empty]
    · rw [if_neg same] at empty
      rw [Function.update_of_ne same]
      exact paced.idle empty
  · intro k busy
    by_cases same : k = i
    · subst same
      rw [own.1]
      exact turn.1
    · rw [others k same] at busy ⊢
      exact paced.begun busy
  · intro k skb' rest' front' none
    by_cases same : k = i
    · subst same
      rw [contents, if_pos rfl] at front'
      rw [Function.update_self, if_neg (by rw [front']; exact List.cons_ne_nil _ _)] at none
      cases none
    · rw [others k same] at front' ⊢
      rw [Function.update_of_ne same] at none
      exact (paced.wait later).first front' none
  · intro k sent isSent
    by_cases same : k = i
    · subst same
      rw [Function.update_self, Option.ite_none_left_eq_some, Option.some.injEq] at isSent
      obtain ⟨_, rfl⟩ := isSent
      rw [own.1, own.2]
      exact ⟨rfl, turn.2, small⟩
    · rw [Function.update_of_ne same] at isSent
      rw [others k same]
      exact paced.later isSent

/-- A packet that is stored finds its queue active, or one with a quantum to spend. -/
theorem Paced.store (paced : Paced origin clock ends q) (later : clock ≤ now) (i prio : Fin 8)
    {skb : Skb} (small : skbSize skb ≤ maxPktBytes) :
    Paced origin now ends (dwrrAdmit params now i prio skb q) := by
  rcases dwrrAdmit_qdisc params now i prio skb q with ⟨marked, sameLen, fifo⟩
  have waited := paced.wait later
  have times : ∀ k, (q.queues k).qdisc ≠ [] ∨ k ≠ i →
      ((dwrrAdmit params now i prio skb q).queues k).startTime = (q.queues k).startTime ∧
      ((dwrrAdmit params now i prio skb q).queues k).lastPktTime = (q.queues k).lastPktTime ∧
      ((dwrrAdmit params now i prio skb q).queues k).deficit = (q.queues k).deficit := by
    intro k unchanged
    have kept : ¬(k = i ∧ (q.queues i).qdisc = []) := by
      rintro ⟨rfl, empty⟩
      exact unchanged.elim (· empty) (· rfl)
    rw [dwrrAdmit_deficit, if_neg kept]
    by_cases same : k = i
    · subst same
      simp [dwrrAdmit, unchanged.resolve_right (not_not.mpr rfl)]
    · simp [dwrrAdmit, Function.update_of_ne same]
  have activated : (q.queues i).qdisc = [] →
      ((dwrrAdmit params now i prio skb q).queues i).startTime = now := by
    intro empty
    simp [dwrrAdmit, empty]
  constructor
  · exact paced.rounds
  · exact waited.since
  · intro k empty
    rw [fifo k] at empty
    exact paced.idle (List.append_eq_nil_iff.mp empty).1
  · intro k busy
    by_cases kept : (q.queues k).qdisc ≠ [] ∨ k ≠ i
    · rw [(times k kept).1]
      apply paced.begun
      rw [fifo k] at busy
      rcases kept with nonempty | different
      · exact nonempty
      · rwa [if_neg different, List.append_nil] at busy
    · obtain ⟨empty, rfl⟩ := not_or.mp kept |>.imp not_not.mp not_not.mp
      rw [activated empty]
      exact waited.since
  · intro k skb' rest' front' none
    rw [fifo k] at front'
    by_cases kept : (q.queues k).qdisc ≠ [] ∨ k ≠ i
    · rw [(times k kept).1, (times k kept).2.2]
      cases stored : (q.queues k).qdisc with
      | nil =>
          have different := kept.resolve_left (not_not.mpr stored)
          rw [stored, if_neg different] at front'
          cases front'
      | cons head more =>
          rw [stored, List.cons_append] at front'
          cases front'
          exact waited.first stored none
    · obtain ⟨empty, rfl⟩ := not_or.mp kept |>.imp not_not.mp not_not.mp
      rw [empty, if_pos rfl, List.nil_append] at front'
      cases front'
      have quantum := (params.queueQuantum_range k).1
      unfold maxPktBytes at small
      rw [activated empty, dwrrAdmit_deficit, if_pos ⟨rfl, empty⟩, skbSize_eq_of_len_eq sameLen]
      exact ⟨le_rfl, by omega⟩
  · intro k sent isSent
    have busy : (q.queues k).qdisc ≠ [] := by
      intro empty
      rw [paced.idle empty] at isSent
      cases isSent
    rw [(times k (Or.inl busy)).1, (times k (Or.inl busy)).2.1]
    exact paced.later isSent

private theorem ends_after_packet {s : Sys} {i : Fin 8} {skb sent : Skb} {rest : List Skb}
    (stored : (s.q.queues i).qdisc = skb :: rest) :
    ends.after s (.dequeue now (.packet i sent)) =
      Function.update ends i (if rest = [] then none else some (wireEnd s now sent)) := by
  have alone : (s.q.queues i).qdisc.length ≤ 1 ↔ rest = [] := by
    rw [stored, List.length_cons, add_le_iff_nonpos_left, Nat.le_zero, List.length_eq_zero_iff]
  simp only [Ends.after, alone]

end

/-! ### Runs -/

section

variable {bfifo : Bfifo} {origin : Int}

private theorem Paced.step {first last : Sys × Ends} {event : Event Param}
    (step : OrderlyStep bfifo origin first event last)
    (small : event.acceptedSize ≤ maxPktBytes)
    (paced : Paced origin first.1.clock first.2 first.1.q) :
    Paced origin last.1.clock last.2 last.1.q := by
  obtain ⟨s, ends⟩ := first
  obtain ⟨s', ends'⟩ := last
  obtain ⟨step, order, rfl⟩ := step
  dsimp only at step order paced ⊢
  cases step with
  | @enqueue now skb q' ret later returns =>
      have rounds : RoundsInRange q' := by
        intro prio
        rw [dwrrEnqueue_roundTime returns]
        split
        · exact paced.rounds.reset _ _ _ prio
        · exact paced.rounds prio
      rcases dwrrEnqueue_cases returns with ⟨roundTime, ⟨_, rfl⟩ | ⟨rfl, _, rfl⟩⟩
      · exact { paced.wait later with rounds }
      · exact Paced.store (q := { s.q with roundTime }) { paced with rounds } later _ _ small
  | @dequeue now fuel q' outcome later returns =>
      rcases dwrrDequeue_cases returns with ⟨_, rfl, rfl⟩ | ⟨prio, middle, _, rotations, exit⟩
      · exact paced.wait later
      · have rotated := paced.rotations rotations
        cases exit with
        | fault | null | throttled => exact rotated.wait later
        | @packet i ring skb rest head front affordable enough =>
            have marker := dwrrTransmit_markedFrom s.params now prio i skb rest
              (tbfSchedule s.params (skbSize skb) middle now) middle
            have sameSize := skbSize_eq_of_len_eq marker.len_eq
            obtain ⟨inOrder, wired⟩ := order
            unfold wireEnd at inOrder wired
            rw [sameSize, ← rate_of_rotations rotations] at inOrder wired
            have sent := @Paced.transmit s.params _ _ _ _ _ rotated later prio _ _ _
              (tbfSchedule s.params (skbSize skb) middle now) front inOrder wired
            have stored := (qdisc_of_view (view_of_rotations rotations) i).symm.trans front
            rw [ends_after_packet stored, wireEnd, sameSize, ← rate_of_rotations rotations]
            exact sent
  | sysctl => exact paced
  | change => exact { paced with rounds := paced.rounds }

private theorem paced_initial {start : Sys} (fresh : Initial start) :
    Paced start.clock start.clock (fun _ => none) start.q := by
  obtain ⟨rate, initial⟩ := fresh
  rw [initial]
  constructor
  · exact fun prio => ⟨le_rfl, show (0 : Int) < 2 ^ 53 by decide⟩
  · exact le_rfl
  · exact fun _ => rfl
  · exact fun busy => absurd rfl busy
  · intro i skb rest front
    cases front
  · intro i sent isSent
    cases isSent

/-- Nothing rotates past the queue at which the loop returns. -/
theorem Exits.eq_of_rotations {params : Params} {now : Int} {prio : Fin 8}
    {middle other q' : DwrrSchedData} {outcome : Dequeued}
    (exit : Exits params now prio middle q' outcome)
    (rotations : ReflTransGen (Rotates params prio) middle other) : other = middle := by
  cases exit with
  | throttled head front affordable | packet head front affordable =>
      exact Dwrr.eq_of_rotations head front affordable rotations
  | fault empty =>
      rcases ReflTransGen.cases_head rotations with same | ⟨next, first, _⟩
      · exact same.symm
      · cases first with
        | intro head front blocked =>
            rw [empty] at head
            cases head
  | null head empty =>
      rcases ReflTransGen.cases_head rotations with same | ⟨next, first, _⟩
      · exact same.symm
      · cases first with
        | intro head' front blocked =>
            rw [head] at head'
            cases head'
            rw [empty] at front
            cases front

private theorem rotates_rightUnique (params : Params) (prio : Fin 8) :
    Relator.RightUnique (Rotates params prio) := by
  intro q next next' rotation rotation'
  cases rotation with
  | intro head front blocked =>
      cases rotation' with
      | intro head' front' blocked' =>
          rw [head] at head'
          cases head'
          rfl

/-- Every sample of a dequeue in order is non-negative. -/
theorem Paced.sample_nonneg {ends : Ends} {s s' : Sys} {now sample : Int} {outcome : Dequeued}
    {prio : Fin 8} {middle : DwrrSchedData} (paced : Paced origin s.clock ends s.q)
    (step : Step bfifo s (.dequeue now outcome) s')
    (order : InOrder origin ends s (.dequeue now outcome))
    (samples : Samples s.params now s.q prio middle sample) : 0 ≤ sample := by
  cases samples with
  | rotation selected rotations head front blocked =>
      have turn := (paced.rotations rotations).turn front blocked
      omega
  | @last i _ ring skb selected rotations head front affordable enough =>
      cases step with
      | dequeue later returns =>
          rcases dwrrDequeue_cases returns with ⟨idle, _⟩ | ⟨prio', middle', selected', rotations',
            exit⟩
          · rw [idle] at selected
            cases selected
          · obtain rfl : prio = prio' := Option.some.inj (selected.symm.trans selected')
            -- the state in which the dequeue returns is the one with the sample
            obtain rfl : middle' = middle := by
              rcases ReflTransGen.total_of_right_unique (rotates_rightUnique s.params prio)
                rotations rotations' with further | further
              · exact Dwrr.eq_of_rotations head front affordable further
              · exact (exit.eq_of_rotations further).symm
            cases exit with
            | fault empty =>
                rw [empty] at head
                cases head
            | null head' empty =>
                rw [head] at head'
                cases head'
                rw [empty] at front
                cases front
            | throttled head' front' _ short =>
                rw [head] at head'
                cases head'
                rw [front] at front'
                cases front'
                omega
            | packet head' front' =>
                rw [head] at head'
                cases head'
                rw [front] at front'
                cases front'
                have marker := dwrrTransmit_markedFrom s.params now prio i skb []
                  (tbfSchedule s.params (skbSize skb) middle' now) middle'
                obtain ⟨inOrder, _⟩ := order
                unfold wireEnd at inOrder
                rw [skbSize_eq_of_len_eq marker.len_eq, ← rate_of_rotations rotations] at inOrder
                have turn := (paced.rotations rotations).turn_le later front inOrder
                omega

/-- **Round times are not negative.** In every run that accepts full-sized frames at most and
in which the packets of a backlogged queue leave the wire in the order in which they are sent,
no round time is ever negative, nor is a sample of the next dequeue in order. -/
theorem roundTime_nonneg {start s : Sys} {ends : Ends} {events : List (Event Param)}
    (fresh : Initial start)
    (run : Run (OrderlyStep bfifo start.clock) (start, fun _ => none) events (s, ends))
    (small : ∀ event ∈ events, event.acceptedSize ≤ maxPktBytes) :
    (∀ prio, 0 ≤ s.q.roundTime prio) ∧
      ∀ now outcome next, Step bfifo s (.dequeue now outcome) next →
        InOrder start.clock ends s (.dequeue now outcome) →
        ∀ prio middle sample, Samples s.params now s.q prio middle sample → 0 ≤ sample := by
  have paced : Paced start.clock s.clock ends s.q :=
    (run.restrict small).preserves (fun last => Paced start.clock last.1.clock last.2 last.1.q)
      (fun step before => before.step step.1 step.2) (paced_initial fresh)
  exact ⟨fun prio => (paced.rounds prio).1, fun now outcome next step order prio middle sample
    samples => paced.sample_nonneg step order samples⟩

end

/-! ### A short frame behind a long one -/

/-- A full-sized frame leaves queue 0, in which a short one waits behind it. -/
def tailgate : List (Event Param) :=
  [.enqueue 100000 (fullFrame 0) .success, .enqueue 100000 shortFrame .success,
    .dequeue 100000 (.packet 0 (fullFrame 0))]

private theorem tailgate_replays :
    (replay (Sys.next byteLimit 4) (fun _ => True) idle tailgate).isSome = true := by
  decide

/-- The qdisc with the short frame left. -/
def tailgating : Sys :=
  (replay (Sys.next byteLimit 4) (fun _ => True) idle tailgate).get tailgate_replays

private theorem tailgating_replays :
    (replay (Sys.next byteLimit 4) (fun _ => True) tailgating
      [.dequeue 100000 (.packet 0 shortFrame)]).isSome = true := by
  decide

/-- The qdisc after the short frame has left as well, at the same time, out of the same
bucket. -/
def tailgated : Sys :=
  (replay (Sys.next byteLimit 4) (fun _ => True) tailgating
    [.dequeue 100000 (.packet 0 shortFrame)]).get tailgating_replays

private theorem tailgated_run : Run (Step byteLimit) idle
    (tailgate ++ [.dequeue 100000 (.packet 0 shortFrame)]) tailgated :=
  (RunWithin.of_replay_isSome Sys.next_sound tailgate_replays).run.append
    (RunWithin.of_replay_isSome Sys.next_sound tailgating_replays).run

/-- The state in which the loop finds the short frame affordable. -/
def granted : DwrrSchedData := dwrrRotate tailgating.params 0 0 tailgating.q

private theorem granted_samples : Samples tailgating.params 100000 tailgating.q 0 granted
    (100000 + l2tNs granted.rate (skbSize shortFrame) - (granted.queues 0).startTime) := by
  have active : tailgating.q.active 0 = [0] := by decide
  have stored : (tailgating.q.queues 0).qdisc = [shortFrame] := by decide
  have selected : prioSchedule tailgating.q = some 0 := by decide
  have rotation : Rotates tailgating.params 0 tailgating.q granted :=
    .intro active stored (by decide)
  have head : granted.active 0 = [0] := by decide
  have front : (granted.queues 0).qdisc = [shortFrame] := by decide
  exact .last selected (.single rotation) head front (by decide) (by decide)

/-- The short frame is off the wire before the turn it ends began: the sample is negative,
and so is the round time. -/
theorem tailgated_roundTime_neg :
    Run (Step byteLimit) idle (tailgate ++ [.dequeue 100000 (.packet 0 shortFrame)]) tailgated ∧
      (∀ event ∈ tailgate, event.acceptedSize ≤ 1538) ∧
      Samples tailgating.params 100000 tailgating.q 0 granted (-11632) ∧
      tailgated.q.roundTime 0 = -601 := by
  have value : 100000 + l2tNs granted.rate (skbSize shortFrame) -
      (granted.queues 0).startTime = -11632 := by decide
  exact ⟨tailgated_run, by decide, value ▸ granted_samples, by decide +kernel⟩

/-! ### Frames of one size -/

/-- The step in order as a function. -/
def nextInOrder (bfifo : Bfifo) (fuel : Nat) (origin : Int) (first : Sys × Ends)
    (event : Event Param) : Option (Sys × Ends) :=
  if InOrder origin first.2 first.1 event then
    (first.1.next bfifo fuel event).map fun s => (s, first.2.after first.1 event)
  else none

private theorem nextInOrder_sound {bfifo : Bfifo} {fuel : Nat} {origin : Int}
    {first last : Sys × Ends} {event : Event Param}
    (answers : nextInOrder bfifo fuel origin first event = some last) :
    OrderlyStep bfifo origin first event last := by
  simp only [nextInOrder, Option.ite_none_right_eq_some, Option.map_eq_some_iff] at answers
  obtain ⟨order, s, answers, rfl⟩ := answers
  exact ⟨Sys.next_sound answers, order, rfl⟩

/-- Three full-sized frames in queue 0, two of which leave one after the other. -/
def convoyed : List (Event Param) :=
  [.enqueue 100000 (fullFrame 0) .success, .enqueue 100000 (fullFrame 0) .success,
    .enqueue 100000 (fullFrame 0) .success, .dequeue 100000 (.packet 0 (fullFrame 0)),
    .dequeue 112304 (.packet 0 (fullFrame 0))]

private theorem convoyed_replays :
    (replay (nextInOrder byteLimit 4 idle.clock) (fun _ => True) (idle, fun _ => none)
      convoyed).isSome = true := by
  decide

/-- The qdisc with the third frame left. -/
def convoy : Sys × Ends :=
  (replay (nextInOrder byteLimit 4 idle.clock) (fun _ => True) (idle, fun _ => none)
    convoyed).get convoyed_replays

/-- The last frame leaves behind the others. -/
theorem convoy_leaves :
    (nextInOrder byteLimit 4 idle.clock convoy (.dequeue 124608 (.packet 0 (fullFrame 0)))).isSome =
      true := by
  decide

/-- A sample has been folded by then, and the last frame ends two turns. -/
theorem convoy_roundTime_nonneg :
    (∀ prio, 0 ≤ convoy.1.q.roundTime prio) ∧ convoy.1.q.roundTime 0 = 3076 ∧
      Samples convoy.1.params 124608 convoy.1.q 0 convoy.1.q 12304 ∧
      ∀ prio middle sample, Samples convoy.1.params 124608 convoy.1.q prio middle sample →
        0 ≤ sample := by
  have run := (RunWithin.of_replay_isSome nextInOrder_sound convoyed_replays).run
  have nonneg := roundTime_nonneg ⟨_, rfl⟩ run (by decide)
  have step := nextInOrder_sound (Option.some_get convoy_leaves).symm
  have active : convoy.1.q.active 0 = [0] := by decide
  have stored : (convoy.1.q.queues 0).qdisc = [fullFrame 0] := by decide
  exact ⟨nonneg.1, by decide +kernel, .rotation (by decide) .refl active stored (by decide),
    nonneg.2 124608 _ _ step.step step.order⟩

end MqEcn.Kernel.Dwrr
