import MqEcn.Kernel.Dwrr.Shaping

/-!
Contract: what a throttled dequeue of `sch_dwrr` leaves behind.

Owns: the state a throttled dequeue stops in, the answer of the next dequeue there, the
equality of that answer with the one the dequeue would have given without the throttled
one, and the time from which it is the packet.

Does not own: the bucket.
-/

set_option autoImplicit false

namespace MqEcn.Kernel.Dwrr

open MqEcn.Kernel
open MqEcn.Library
open MqEcn.Library.Transition
open Relation (ReflTransGen)

/-! ### Rotations and the selected priority -/

/-- A rotation empties no active list and fills none. -/
theorem Rotates.active_isEmpty {params : Params} {prio : Fin 8} {q q' : DwrrSchedData}
    (rotation : Rotates params prio q q') (other : Fin 8) :
    (q'.active other).isEmpty = (q.active other).isEmpty := by
  cases rotation with
  | intro head front blocked =>
      rw [dwrrRotate_active]
      by_cases same : other = prio
      · subst same
        rw [Function.update_self, head]
        simp
      · rw [Function.update_of_ne same]

/-- So `prio_schedule` selects the same priority after any number of them. -/
theorem prioSchedule_of_rotations {params : Params} {prio : Fin 8} {q middle : DwrrSchedData}
    (rotations : ReflTransGen (Rotates params prio) q middle) :
    prioSchedule middle = prioSchedule q := by
  induction rotations with
  | refl => rfl
  | tail _ last inductionHypothesis =>
      rw [← inductionHypothesis]
      unfold prioSchedule
      simp only [last.active_isEmpty]

/-! ### The state a throttled dequeue stops in -/

/-- The loop would stop at the head `skb` of queue `i` without a rotation. -/
structure Parked (params : Params) (q : DwrrSchedData) (prio i : Fin 8) (skb : Skb)
    (rest : List Skb) : Prop where
  scheduled : prioSchedule q = some prio
  head : ∃ ring, q.active prio = i :: ring
  front : (q.queues i).qdisc = skb :: rest
  affordable : skbSize skb ≤ (q.queues i).deficit

/-- What a dequeue answers there: the packet, or the same state and the timer armed. -/
def Parked.answer (params : Params) (now : Int) (prio i : Fin 8) (skb : Skb) (rest : List Skb)
    (q : DwrrSchedData) : DwrrSchedData × Dequeued :=
  let result := tbfSchedule params (skbSize skb) q now
  if result < 0 then (q, .throttled (now - result))
  else
    let sent := dwrrTransmit params now prio i skb rest result q
    (sent.1, .packet i sent.2)

private theorem Parked.answers {params : Params} {q : DwrrSchedData} {prio i : Fin 8} {skb : Skb}
    {rest : List Skb} (parked : Parked params q prio i skb rest) (now : Int) (fuel : Nat) :
    dwrrDequeue params now (fuel + 1) q =
      some (Parked.answer params now prio i skb rest q) := by
  obtain ⟨ring, head⟩ := parked.head
  unfold dwrrDequeue Parked.answer dwrrDequeueLoop
  simp only [parked.scheduled, head, parked.front, if_pos parked.affordable]
  split
  next short => rfl
  next enough => rfl

/-- A throttled dequeue has made its rotations and stopped at the packet it selected. -/
theorem parked_of_throttled {params : Params} {now : Int} {fuel : Nat} {q q' : DwrrSchedData}
    {expires : Int} (returns : dwrrDequeue params now fuel q = some (q', .throttled expires)) :
    ∃ prio i skb rest, Parked params q' prio i skb rest ∧
      ReflTransGen (Rotates params prio) q q' ∧
      tbfSchedule params (skbSize skb) q' now < 0 ∧
      expires = now - tbfSchedule params (skbSize skb) q' now := by
  rcases dwrrDequeue_cases returns with ⟨_, _, null⟩ | ⟨prio, middle, scheduled, rotations, exit⟩
  · cases null
  · cases exit with
    | @throttled i ring skb rest head front affordable short =>
        have same := prioSchedule_of_rotations rotations
        have parked : Parked params q' prio i skb rest :=
          ⟨same.trans scheduled, ⟨ring, head⟩, front, affordable⟩
        exact ⟨prio, i, skb, rest, parked, rotations, short, rfl⟩

/-! ### Resuming -/

/-- A dequeue of the first state goes through the second, whatever the clock. -/
def Resumes (params : Params) (q q' : DwrrSchedData) : Prop :=
  ∃ count, ∀ now fuel,
    dwrrDequeue params now (count + fuel) q = dwrrDequeue params now fuel q'

private theorem Resumes.trans {params : Params} {q middle q' : DwrrSchedData}
    (first : Resumes params q middle) (second : Resumes params middle q') :
    Resumes params q q' := by
  obtain ⟨count, firstSame⟩ := first
  obtain ⟨more, secondSame⟩ := second
  refine ⟨count + more, fun now fuel => ?_⟩
  rw [Nat.add_assoc, firstSame, secondSame]

private theorem resumes_of_throttled {params : Params} {now : Int} {fuel : Nat}
    {q q' : DwrrSchedData} {expires : Int}
    (returns : dwrrDequeue params now fuel q = some (q', .throttled expires)) :
    Resumes params q q' := by
  obtain ⟨prio, i, skb, rest, parked, rotations, _, _⟩ := parked_of_throttled returns
  obtain ⟨count, same⟩ := dwrrDequeueLoop_of_rotations rotations
  have scheduled : prioSchedule q = some prio :=
    (prioSchedule_of_rotations rotations).symm.trans parked.scheduled
  refine ⟨count, fun now fuel => ?_⟩
  simp only [dwrrDequeue, scheduled, parked.scheduled]
  exact same now fuel

/-- A dequeue that is throttled. -/
def IsThrottled (event : Event Param) : Prop :=
  ∃ now expires, event = .dequeue now (.throttled expires)

/-- Throttled dequeues one after the other leave the parameters alone and resume. -/
theorem resumes_of_run {bfifo : Bfifo} {s s' : Sys} {polls : List (Event Param)}
    (run : Run (Step bfifo) s polls s') (throttled : ∀ poll ∈ polls, IsThrottled poll) :
    s'.params = s.params ∧ Resumes s.params s.q s'.q := by
  induction run with
  | nil s => exact ⟨rfl, 0, fun now fuel => by rw [Nat.zero_add]⟩
  | @cons first middle last poll polls head _ inductionHypothesis =>
      obtain ⟨params, rest⟩ := inductionHypothesis fun later member =>
        throttled later (List.mem_cons_of_mem _ member)
      obtain ⟨now, expires, rfl⟩ := throttled poll List.mem_cons_self
      cases head with
      | dequeue later returns => exact ⟨params, (resumes_of_throttled returns).trans rest⟩

/-- The state the last of them leaves. -/
theorem parked_of_run {bfifo : Bfifo} {s s' : Sys} {polls : List (Event Param)}
    (run : Run (Step bfifo) s polls s') (throttled : ∀ poll ∈ polls, IsThrottled poll)
    (nonempty : polls ≠ []) : ∃ prio i skb rest, Parked s'.params s'.q prio i skb rest := by
  induction run with
  | nil s => exact absurd rfl nonempty
  | @cons first middle last poll polls head tail inductionHypothesis =>
      by_cases only : polls = []
      · subst only
        cases tail
        obtain ⟨now, expires, rfl⟩ := throttled poll List.mem_cons_self
        cases head with
        | dequeue later returns =>
            obtain ⟨prio, i, skb, rest, parked, _⟩ := parked_of_throttled returns
            exact ⟨prio, i, skb, rest, parked⟩
      · exact inductionHypothesis
          (fun later member => throttled later (List.mem_cons_of_mem _ member)) only

/-- **Transparent polls.** After throttled dequeues with no other operation in between, a
dequeue answers as it would have answered without them, at every time, and leaves the same
state. -/
theorem dequeue_after_polls {bfifo : Bfifo} {s s' : Sys} {polls : List (Event Param)}
    (run : Run (Step bfifo) s polls s') (throttled : ∀ poll ∈ polls, IsThrottled poll)
    (nonempty : polls ≠ []) (now : Int) :
    ∃ fuel₀ answer, ∀ fuel ≥ fuel₀, dwrrDequeue s'.params now fuel s'.q = some answer ∧
      dwrrDequeue s.params now fuel s.q = some answer := by
  obtain ⟨params, count, resumes⟩ := resumes_of_run run throttled
  obtain ⟨prio, i, skb, rest, parked⟩ := parked_of_run run throttled nonempty
  refine ⟨count + 1, Parked.answer s'.params now prio i skb rest s'.q, fun fuel more => ?_⟩
  constructor
  · obtain ⟨spare, rfl⟩ := Nat.exists_eq_add_of_le' (by omega : 1 ≤ fuel)
    exact parked.answers now spare
  · obtain ⟨spare, rfl⟩ := Nat.exists_eq_add_of_le more
    rw [Nat.add_assoc, resumes now (1 + spare), ← params, Nat.add_comm]
    exact parked.answers now spare

/-- The loaded qdisc after its first packet: queue 0 is due for a rotation. -/
def turningHistory : List (Event Param) :=
  loadedHistory ++ [.dequeue 100000 (.packet 0 (fullFrame 0))]

private theorem turningHistory_replays :
    (replay (Sys.next byteLimit 4) (fun _ => True) idle turningHistory).isSome = true := by
  decide

def turning : Sys :=
  (replay (Sys.next byteLimit 4) (fun _ => True) idle turningHistory).get turningHistory_replays

/-- Two dequeues before the bucket covers the frame of queue 1. -/
def turningPolls : List (Event Param) :=
  [.dequeue 100001 (.throttled 104608), .dequeue 104607 (.throttled 104608)]

private theorem turningPolls_replays :
    (replay (Sys.next byteLimit 4) (fun _ => True) turning turningPolls).isSome = true := by
  decide

theorem turning_dequeue_after_polls : ∃ polled fuel₀ answer,
    Run (Step byteLimit) turning turningPolls polled ∧
    ∀ fuel ≥ fuel₀, dwrrDequeue polled.params 104608 fuel polled.q = some answer ∧
      dwrrDequeue turning.params 104608 fuel turning.q = some answer := by
  have run := (RunWithin.of_replay_isSome Sys.next_sound turningPolls_replays).run
  have throttled : ∀ poll ∈ turningPolls, IsThrottled poll := by
    simp [turningPolls, IsThrottled]
  obtain ⟨fuel₀, answer, same⟩ := dequeue_after_polls run throttled (by decide) 104608
  exact ⟨_, fuel₀, answer, run, same⟩

/-! ### Waiting for the timer -/

/-- What the packet a qdisc is parked at answers at each time, by when it is due. -/
theorem Parked.waits {params : Params} {q : DwrrSchedData} {prio i : Fin 8} {skb : Skb}
    {rest : List Skb} (parked : Parked params q prio i skb rest) (tokens : 0 ≤ q.tokens)
    (covered : l2tNs q.rate (skbSize skb) ≤ bucketNs q.rate (params.value .bucket)) {fuel : Nat}
    (positive : 0 < fuel) {expires : Int}
    (expiry : expires = dueTime q.rate q.timeNs q.tokens (skbSize skb)) (now : Int) :
    (now < expires → dwrrDequeue params now fuel q = some (q, .throttled expires)) ∧
    (expires ≤ now → ∃ q' returned, dwrrDequeue params now fuel q = some (q', .packet i returned) ∧
      MarkedFrom skb returned) := by
  subst expiry
  obtain ⟨spare, rfl⟩ := Nat.exists_eq_add_of_le' positive
  rw [parked.answers now spare]
  unfold Parked.answer
  constructor
  · intro early
    have short : tbfSchedule params (skbSize skb) q now < 0 :=
      (tbfSchedule_lt_zero_iff tokens covered).mpr early
    have expires : now - tbfSchedule params (skbSize skb) q now =
        dueTime q.rate q.timeNs q.tokens (skbSize skb) :=
      sub_tbfSchedule_eq_dueTime tokens covered short
    simp only [if_pos short, expires]
  · intro late
    have enough : ¬tbfSchedule params (skbSize skb) q now < 0 := fun short =>
      absurd ((tbfSchedule_lt_zero_iff tokens covered).mp short) (not_lt.mpr late)
    simp only [if_neg enough]
    exact ⟨_, _, rfl, dwrrTransmit_markedFrom _ _ _ _ _ _ _ _⟩

/-- The timer of a throttled dequeue is armed for the time its packet is due. -/
theorem throttled_until {bfifo : Bfifo} {s : Sys} (reachable : Reachable bfifo s) {now : Int}
    {fuel : Nat} {q' : DwrrSchedData} {expires : Int}
    (returns : dwrrDequeue s.params now fuel s.q = some (q', .throttled expires)) :
    ∃ i skb, Selected s.params s.q i skb ∧ now < expires ∧
      (l2tNs s.q.rate (skbSize skb) ≤ bucketNs s.q.rate (s.params.value .bucket) →
        ∀ t, ∀ fuel > 0,
          (t < expires → dwrrDequeue s.params t fuel q' = some (q', .throttled expires)) ∧
          (expires ≤ t → ∃ q'' returned,
            dwrrDequeue s.params t fuel q' = some (q'', .packet i returned) ∧
              MarkedFrom skb returned)) := by
  obtain ⟨prio, i, skb, rest, parked, rotations, short, expiry⟩ := parked_of_throttled returns
  obtain ⟨same, sameRate⟩ := bucket_of_rotations rotations
  obtain ⟨ring, head⟩ := parked.head
  have selected : Selected s.params s.q i skb :=
    ⟨prio, q', ring, rest, (prioSchedule_of_rotations rotations).symm.trans parked.scheduled,
      rotations, head, (qdisc_of_view (view_of_rotations rotations) i).symm.trans parked.front,
      parked.affordable⟩
  refine ⟨i, skb, selected, by omega, fun covered t fuel positive => ?_⟩
  have tokens : 0 ≤ q'.tokens := by
    have sameTokens : q'.tokens = s.q.tokens := congrArg TokenBucket.Bucket.tokens same
    rw [sameTokens]
    exact (tokens_nonneg reachable).2
  rw [← sameRate] at covered
  exact parked.waits tokens covered positive
    (expiry.trans (sub_tbfSchedule_eq_dueTime tokens covered short)) t

end MqEcn.Kernel.Dwrr
