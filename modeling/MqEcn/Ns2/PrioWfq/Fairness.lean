import MqEcn.Ns2.PrioWfq.Schedule
import MqEcn.Ns2.Wfq.Fairness

/-!
Contract: weighted fairness of the WFQ queues of the NS2 PRIO_WFQ discipline under any priority
traffic.

Owns: what a WFQ discipline without priority queues would see of a run, the simulation of a run
by the least-finish-tag scheduler, and the fairness of two WFQ queues that stay backlogged.

Does not own: the fairness of the tags, and the moves that answer one operation of the WFQ
discipline.
-/

set_option autoImplicit false

namespace MqEcn.Ns2.PrioWfq

open Finset
open MqEcn.Library
open MqEcn.Library.Transition
open MqEcn.Ns2.PrioDwrr (highest)
open MqEcn.Ns2.Wfq (AnswersFor StoredWithin Relates unitWidth relates_idle inUse)

/-! ### The WFQ part of a run -/

/-- The WFQ discipline in the lowest priority. -/
def Sys.lowest (s : Sys) : Wfq.Sys := ⟨s.config.toConfig, s.q.wfq, s.clock⟩

/-- An event as the WFQ queues see it: what a priority queue sends is nothing. -/
def Event.lowest : Event → Ns2.Event Unit
  | .enque now p taken => .enque now p taken
  | .deque now (some (.inr i, pkt)) => .deque now (some (i, pkt))
  | .deque now _ => .deque now none
  | .command _ => .command ()
  | .timeout now => .timeout now

/-- `S_i`: bytes sent from a WFQ queue over a list of events. -/
def sentBytes (queue : Fin 64) (events : List Event) : Nat :=
  Ns2.sentBytes queue (events.map Event.lowest)

/-- `Lmax`: the largest packet taken over a list of events. -/
def largestSize (events : List Event) : Nat := Ns2.largestSize (events.map Event.lowest)

/-- Constant weights. -/
def Steady (weight : Fin 64 → ℚ) (s : Sys) : Prop := ∀ i, (s.q.wfq.queues i).weight = weight i

/-- The WFQ queue holds a packet. -/
def Backlogged (i : Fin 64) (s : Sys) : Prop := (s.q.wfq.queues i).packets ≠ []

instance (weight : Fin 64 → ℚ) : DecidablePred (Steady weight) := fun s =>
  inferInstanceAs (Decidable (∀ i, (s.q.wfq.queues i).weight = weight i))

instance (i : Fin 64) : DecidablePred (Backlogged i) := fun s =>
  inferInstanceAs (Decidable ((s.q.wfq.queues i).packets ≠ []))

/-! ### Operations as moves -/

section

variable {pow : ℚ → ℚ → ℚ} {config : Config} {limit : Nat} {weight : Fin 64 → ℚ}
  {watched : Fin 64 → Prop} {s s' : Sys} {event : Event} {q q' : PrioWfqQueue} {p : Packet}
  {now : ℚ} {tags : FinishTime.State (Fin 64) ℚ}

private theorem Enques.moves {taken : Bool} (enques : Enques config p q q' taken)
    (steady : ∀ i, (q.wfq.queues i).weight = weight i) (small : taken = true → p.size ≤ limit)
    (tracks : Wfq.Tracks q.wfq tags) (stored : StoredWithin limit q.wfq) :
    ∃ moves tags',
      Run (FinishTime.Step (unitWidth config.toConfig limit weight)) tags moves tags' ∧
        Wfq.Tracks q'.wfq tags' ∧ StoredWithin limit q'.wfq ∧
        ∀ k ∈ tags.backlogged, AnswersFor (weight k) k q.wfq q'.wfq 0 moves := by
  cases enques with
  | drop wfq prio | prio target marker wfq prio =>
      exact ⟨[], tags, .nil tags, tracks.of_same wfq, stored.of_same wfq,
        fun k _ => .nil (congrArg Wfq.PacketWfq.packets (congrFun wfq.queues k))⟩
  | wfq target marker queues content wfq prio =>
      obtain ⟨moves, tags', run, tracked, answers⟩ := tracks.enque steady wfq small
      exact ⟨moves, tags', run, tracked, stored.enque wfq small, answers⟩

private theorem Deques.moves {answer : Option (StrictPriority.QueueId × Packet)}
    (valid : Valid config q) (deques : Deques config now q q' answer)
    (steady : ∀ i, (q.wfq.queues i).weight = weight i) (tracks : Wfq.Tracks q.wfq tags)
    (stored : StoredWithin limit q.wfq) :
    ∃ moves tags',
      Run (FinishTime.Step (unitWidth config.toConfig limit weight)) tags moves tags' ∧
        Wfq.Tracks q'.wfq tags' ∧ StoredWithin limit q'.wfq ∧
        ∀ k ∈ tags.backlogged, (q'.wfq.queues k).packets ≠ [] →
          AnswersFor (weight k) k q.wfq q'.wfq ((Event.lowest (.deque now answer)).sentFrom k)
            moves := by
  cases deques with
  | prio found after =>
      subst after
      exact ⟨[], tags, .nil tags, tracks, stored, fun k _ _ => .nil rfl⟩
  | wfq idle wfq prio =>
      obtain ⟨moves, tags', run, tracked, answers⟩ :=
        tracks.deque valid.sound steady stored wfq
      exact ⟨moves, tags', run, tracked, stored.deque wfq, answers⟩
  | idle empty wfq prio =>
      exact ⟨[], tags, .nil tags, tracks.of_same wfq, stored.of_same wfq,
        fun k _ _ => .nil (congrArg Wfq.PacketWfq.packets (congrFun wfq.queues k))⟩

private theorem SameTimes.tracks (same : SameTimes q q') (tracks : Wfq.Tracks q.wfq tags) :
    Wfq.Tracks q'.wfq tags := by
  refine ⟨fun k => ?_, fun k member => ?_, same.currTime.trans tracks.clock⟩
  · rw [same.packets k]
    exact tracks.backlogged k
  · rw [same.finish k]
    exact tracks.finish k member

/-- The state and the scheduler agree, and the state is one the operations keep. -/
def Follows (config : Wfq.Config) (limit : Nat) (weight : Fin 64 → ℚ) (watched : Fin 64 → Prop)
    (s : Sys) (tags : FinishTime.State (Fin 64) ℚ) : Prop :=
  Valid s.config s.q ∧ Relates config limit weight watched s.lowest tags

/-- Every event is answered by moves of the least-finish-tag scheduler. -/
theorem moves_of_step (step : Step pow s event s') (valid : Valid s.config s.q)
    (steady : Steady weight s) (small : event.lowest.takenSize ≤ limit)
    (tracks : Wfq.Tracks s.q.wfq tags) (stored : StoredWithin limit s.q.wfq)
    (linked : ∀ k, watched k → k ∈ tags.backlogged) (stays : ∀ k, watched k → Backlogged k s') :
    ∃ moves tags',
      Run (FinishTime.Step (unitWidth s.config.toConfig limit weight)) tags moves tags' ∧
        Wfq.Tracks s'.q.wfq tags' ∧ StoredWithin limit s'.q.wfq ∧
        Wfq.Answers weight watched s.lowest [event.lowest] s'.lowest moves := by
  cases step with
  | @enque now p q' accepted later returns =>
      have fits : accepted = true → p.size ≤ limit := by
        intro isTaken
        subst isTaken
        exact small
      obtain ⟨moves, tags', run, tracked, within, answers⟩ :=
        (valid.enque_cases returns).moves steady fits tracks stored
      exact ⟨moves, tags', run, tracked, within,
        fun k isWatched => answers k (linked k isWatched)⟩
  | deque later returns =>
      obtain ⟨moves, tags', run, tracked, within, answers⟩ :=
        (valid.deque_cases returns).moves valid steady tracks stored
      exact ⟨moves, tags', run, tracked, within,
        fun k isWatched => answers k (linked k isWatched) (stays k isWatched)⟩
  | @command request q' returns =>
      obtain ⟨same, _⟩ := command_cases returns
      refine ⟨[], tags, .nil tags, same.tracks tracks, fun k pkt member => ?_,
        fun k _ => .nil (same.packets k)⟩
      rw [same.packets k] at member
      exact stored k pkt member
  | timeout later pending =>
      exact ⟨[], tags, .nil tags, tracks.of_same ⟨rfl, rfl, rfl⟩, stored,
        fun k _ => .nil rfl⟩

private theorem Follows.answer {config : Wfq.Config} (step : Step pow s event s')
    (steady : Steady weight s) (positive : ∀ i, 0 < weight i)
    (small : event.lowest.takenSize ≤ limit) (follows : Follows config limit weight watched s tags)
    (stays : ∀ k, watched k → Backlogged k s') :
    ∃ moves tags', Run (FinishTime.Step (unitWidth config limit weight)) tags moves tags' ∧
      Follows config limit weight watched s' tags' ∧
      Wfq.Answers weight watched s.lowest [event.lowest] s'.lowest moves := by
  obtain ⟨valid, related⟩ := follows
  obtain ⟨moves, tags', run, tracked, stored, answers⟩ :=
    moves_of_step step valid steady small related.tracks related.stored related.linked stays
  have sameConfig : s'.config = s.config := by
    cases step <;> rfl
  have kept : s.config.toConfig = config := related.config_eq
  have valid' := valid.step step
  rw [kept] at run
  have sameLowest : s'.config.toConfig = config := by
    rw [sameConfig, kept]
  refine ⟨moves, tags', run, ⟨valid', ?_⟩, answers⟩
  exact related.next positive run answers sameLowest (sameLowest ▸ valid'.sound) stored tracked

/-- A run during which the watched queues stay backlogged is a run of the
least-finish-tag scheduler that answers it. -/
theorem Follows.run {config : Wfq.Config} {first last : Sys} {events : List Event}
    (positive : ∀ i, 0 < weight i) (follows : Follows config limit weight watched first tags)
    (run : RunWithin (fun s => Steady weight s ∧ ∀ k, watched k → Backlogged k s)
      (Step pow) first events last)
    (small : ∀ event ∈ events, event.lowest.takenSize ≤ limit) :
    ∃ moves tags', Run (FinishTime.Step (unitWidth config limit weight)) tags moves tags' ∧
      Follows config limit weight watched last tags' ∧
      Wfq.Answers weight watched first.lowest (events.map Event.lowest) last.lowest moves := by
  apply RunWithin.simulate (FinishTime.Step (unitWidth config limit weight))
    (Follows config limit weight watched)
    (fun first events last moves =>
      Wfq.Answers weight watched first.lowest (events.map Event.lowest) last.lowest moves)
    _ Wfq.Answers.cons run small follows
  · intro first last event start before step after fits related
    exact related.answer step before.1 positive fits after.2
  · exact fun state k _ => .nil rfl

private theorem takenSize_le_largestSize {events : List Event} {event : Event}
    (member : event ∈ events) :
    event.lowest.takenSize ≤ largestSize events :=
  Ns2.takenSize_le_largestSize (List.mem_map_of_mem member)

/-- **Weighted fairness behind the priority queues.** With constant weights, two WFQ queues that
stay backlogged over an interval of a run are sent byte counts that, each divided by its weight,
differ by at most twice the largest packet over the weight of every WFQ queue and their own two,
whatever the priority queues take and send in the interval. -/
theorem prioWfq_byte_fairness {i j : Fin 64} {start first last : Sys}
    {history interval : List Event} (reachable : Reachable pow start)
    (idle : ∀ k, (start.q.wfq.queues k).packets = [])
    (before : RunWithin (Steady weight) (Step pow) start history first)
    (during : RunWithin (fun s => Steady weight s ∧ Backlogged i s ∧ Backlogged j s)
      (Step pow) first interval last) :
    |(sentBytes i interval : ℚ) / weight i - (sentBytes j interval : ℚ) / weight j| ≤
      2 * (∑ k ∈ inUse start.config.toConfig,
          (largestSize (history ++ interval) : ℚ) / weight k) +
        (largestSize (history ++ interval) : ℚ) / weight i +
        (largestSize (history ++ interval) : ℚ) / weight j := by
  set limit := largestSize (history ++ interval)
  have valid := valid_of_reachable reachable
  have positive : ∀ k, 0 < weight k := by
    intro k
    rw [← before.1 k]
    exact valid.sound.weights k
  -- the history brings the scheduler to the start of the interval
  obtain ⟨tags, related⟩ := @relates_idle limit weight start.lowest valid.sound idle
  have idleFollows : Follows start.config.toConfig limit weight (fun _ => False) start tags :=
    ⟨valid, related⟩
  obtain ⟨_, tags, _, ⟨validFirst, reached⟩, _⟩ :=
    idleFollows.run positive
      (before.mono fun s steady => ⟨steady, fun _ isWatched => isWatched.elim⟩)
      fun event member => takenSize_le_largestSize (List.mem_append_left _ member)
  have watching : Follows start.config.toConfig limit weight (fun k => k = i ∨ k = j) first tags :=
    ⟨validFirst, reached.watch fun k isWatched => by
      rcases isWatched with rfl | rfl
      · exact during.1.2.1
      · exact during.1.2.2⟩
  -- in the interval neither queue retires
  obtain ⟨moves, tags', intervalRun, ⟨_, related⟩, answers⟩ :=
    watching.run positive (during.mono fun s both => ⟨both.1, by simpa using both.2⟩)
      fun event member => takenSize_le_largestSize (List.mem_append_right _ member)
  exact watching.2.abs_sent_sub_le related positive intervalRun answers

end

/-! ### Two backlogged queues behind a priority packet -/

/-- The second WFQ queue gets four times the weight of the others. -/
def weighting : List Event := [.command (.setWeight 2 40000)]

private theorem weighting_replays :
    (replay (Sys.next wholePow) (fun _ => True) fresh weighting).isSome = true := by
  decide

def weighted : Sys :=
  (replay (Sys.next wholePow) (fun _ => True) fresh weighting).get weighting_replays

/-- The weights after the command. -/
def granted (i : Fin 64) : ℚ := (weighted.q.wfq.queues i).weight

/-- Two packets for either of two WFQ queues, and one of the priority queue. -/
def filling : List Event :=
  [.enque 0 (segment 1) true, .enque 0 (segment 1) true, .enque 0 (segment 2) true,
    .enque 0 (segment 2) true, .enque 0 (segment 0) true]

/-- The priority packet leaves, and one of a WFQ queue. -/
def sending : List Event :=
  [.deque 1 (some (.inl highest, segment 0)), .deque 2 (some (.inr 0, segment 1))]

private theorem filling_replays :
    (replay (Sys.next wholePow) (Steady granted) weighted filling).isSome = true := by
  decide +kernel

def filled : Sys :=
  (replay (Sys.next wholePow) (Steady granted) weighted filling).get filling_replays

private theorem sending_replays :
    (replay (Sys.next wholePow)
      (fun s => Steady granted s ∧ Backlogged 0 s ∧ Backlogged 1 s) filled sending).isSome =
        true := by
  decide +kernel

private theorem weighted_idle : ∀ k, (weighted.q.wfq.queues k).packets = [] := by decide

theorem filled_byte_fairness :
    |(sentBytes 0 sending : ℚ) / granted 0 - (sentBytes 1 sending : ℚ) / granted 1| ≤
      2 * (∑ k ∈ inUse weighted.config.toConfig,
          (largestSize (filling ++ sending) : ℚ) / granted k) +
        (largestSize (filling ++ sending) : ℚ) / granted 0 +
        (largestSize (filling ++ sending) : ℚ) / granted 1 :=
  prioWfq_byte_fairness
    ⟨fresh, weighting, rfl,
      (RunWithin.of_replay_isSome Sys.next_sound weighting_replays).run⟩
    weighted_idle (.of_replay_isSome Sys.next_sound filling_replays)
    (.of_replay_isSome Sys.next_sound sending_replays)

end MqEcn.Ns2.PrioWfq
