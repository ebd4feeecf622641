import Mathlib.Algebra.BigOperators.Field
import Mathlib.Tactic.Ring
import MqEcn.Library.FinishTime
import MqEcn.Ns2.Wfq.Step

/-!
Contract: weighted fairness of the WFQ discipline.

Owns: the simulation of the discipline along a run by the least-finish-tag scheduler, the
account of a queue's tag against the bytes it sends, and the fairness of two queues that
stay backlogged.

Does not own: the fairness of the tags.
-/

set_option autoImplicit false

namespace MqEcn.Ns2.Wfq

open Finset
open MqEcn.Library
open MqEcn.Library.Transition

/-- Constant weights. -/
def Steady (weight : Fin 64 → ℚ) (s : Sys) : Prop := ∀ i, (s.q.queues i).weight = weight i

/-- The queue holds a packet. -/
def Backlogged (i : Fin 64) (s : Sys) : Prop := (s.q.queues i).packets ≠ []

instance (weight : Fin 64 → ℚ) : DecidablePred (Steady weight) := fun s =>
  inferInstanceAs (Decidable (∀ i, (s.q.queues i).weight = weight i))

instance (i : Fin 64) : DecidablePred (Backlogged i) := fun s =>
  inferInstanceAs (Decidable ((s.q.queues i).packets ≠ []))

/-- The queues that hold packets are the backlogged flows, and the times are the tags. -/
structure Tracks (q : WfqQueue) (tags : FinishTime.State (Fin 64) ℚ) : Prop where
  backlogged : ∀ i, i ∈ tags.backlogged ↔ (q.queues i).packets ≠ []
  finish : ∀ i ∈ tags.backlogged, (q.queues i).headFinishTime = (tags.finish i : WithTop ℚ)
  clock : q.currTime = (tags.clock : WithTop ℚ)

/-- What a packet up to `limit` bytes advances a queue by; no packet is put in a queue out
of range. -/
def unitWidth (config : Config) (limit : Nat) (weight : Fin 64 → ℚ) (i : Fin 64) : ℚ :=
  if (i : Nat) < config.queueNum then limit / weight i else 0

/-- What the head of a FIFO advances its queue by. -/
def headUnits (weight : ℚ) : List Packet → ℚ
  | [] => 0
  | pkt :: _ => pkt.size / weight

/-- No packet in the discipline is larger than `limit` bytes. -/
def StoredWithin (limit : Nat) (q : WfqQueue) : Prop :=
  ∀ i, ∀ pkt ∈ (q.queues i).packets, pkt.size ≤ limit

section

variable {config : Config} {limit : Nat} {weight : Fin 64 → ℚ} {i : Fin 64}

private theorem unitWidth_nonneg (positive : ∀ i, 0 < weight i) (i : Fin 64) :
    0 ≤ unitWidth config limit weight i := by
  unfold unitWidth
  split
  · exact div_nonneg (Nat.cast_nonneg limit) (positive i).le
  · exact le_rfl

theorem increment_range {size : Nat} (positive : 0 < weight i) (nonempty : 0 < size)
    (small : size ≤ limit) (inside : (i : Nat) < config.queueNum) :
    0 < (size / weight i : ℚ) ∧ (size / weight i : ℚ) ≤ unitWidth config limit weight i := by
  constructor
  · exact div_pos (by exact_mod_cast nonempty) positive
  · rw [unitWidth, if_pos inside]
    exact div_le_div_of_nonneg_right (by exact_mod_cast small) positive.le

private theorem headUnits_range {packets : List Packet} (positive : 0 < weight i)
    (small : ∀ pkt ∈ packets, pkt.size ≤ limit) (inside : (i : Nat) < config.queueNum) :
    0 ≤ headUnits (weight i) packets ∧
      headUnits (weight i) packets ≤ unitWidth config limit weight i := by
  cases packets with
  | nil =>
      rw [unitWidth, if_pos inside]
      exact ⟨le_rfl, div_nonneg (Nat.cast_nonneg limit) positive.le⟩
  | cons pkt rest =>
      have range := increment_range positive pkt.size_pos (small pkt List.mem_cons_self) inside
      exact ⟨range.1.le, range.2⟩

end

/-! ### Operations as moves -/

section

variable {config : Config} {now : ℚ} {limit : Nat} {weight : Fin 64 → ℚ} {p : Packet}
  {q q' : WfqQueue} {taken : Bool} {pkt : Option (Fin 64 × Packet)}
  {tags : FinishTime.State (Fin 64) ℚ}

/-- What an answer by moves says about one queue that stays backlogged. -/
def AnswersFor (weight : ℚ) (k : Fin 64) (q q' : WfqQueue) (sent : Nat)
    (moves : List (FinishTime.Move (Fin 64) ℚ)) : Prop :=
  FinishTime.advanced k moves + headUnits weight (q.queues k).packets =
      sent / weight + headUnits weight (q'.queues k).packets ∧
    .retire k ∉ moves

section

variable {k : Fin 64} {share : ℚ} {moves : List (FinishTime.Move (Fin 64) ℚ)}

/-- Where its packets stay as they are, no move is an answer. -/
theorem AnswersFor.nil (same : (q'.queues k).packets = (q.queues k).packets) :
    AnswersFor share k q q' 0 [] := by
  refine ⟨?_, List.not_mem_nil⟩
  simp [FinishTime.advanced, same]

/-- Answers follow each other. -/
theorem AnswersFor.append {q'' : WfqQueue} {sent rest : Nat}
    {later : List (FinishTime.Move (Fin 64) ℚ)} (head : AnswersFor share k q q' sent moves)
    (tail : AnswersFor share k q' q'' rest later) :
    AnswersFor share k q q'' (sent + rest) (moves ++ later) := by
  obtain ⟨headAdvanced, headStays⟩ := head
  obtain ⟨tailAdvanced, tailStays⟩ := tail
  constructor
  · rw [FinishTime.advanced_append, Nat.cast_add, add_div]
    linarith
  · simp [headStays, tailStays]

end

/-- A state that agrees with the tracked one outside queue `i`. -/
theorem Tracks.update (tracks : Tracks q tags) {i : Fin 64} {cl : PacketWfq}
    (queues : q'.queues = Function.update q.queues i cl)
    {backlogged : Finset (Fin 64)} {time clock : ℚ}
    (member : i ∈ backlogged ↔ cl.packets ≠ [])
    (others : ∀ k, k ≠ i → (k ∈ backlogged ↔ k ∈ tags.backlogged))
    (stamp : i ∈ backlogged → cl.headFinishTime = (time : WithTop ℚ))
    (currTime : q'.currTime = (clock : WithTop ℚ)) :
    Tracks q' ⟨backlogged, Function.update tags.finish i time, clock⟩ := by
  refine ⟨fun k => ?_, fun k inside => ?_, currTime⟩
  · rw [queues]
    by_cases same : k = i
    · subst same
      simpa using member
    · simpa [Function.update_of_ne same, others k same] using tracks.backlogged k
  · rw [queues]
    by_cases same : k = i
    · subst same
      simpa using stamp inside
    · simpa [Function.update_of_ne same] using tracks.finish k ((others k same).mp inside)

theorem Tracks.of_same (tracks : Tracks q tags) (same : SameSchedule q q') : Tracks q' tags := by
  refine ⟨?_, ?_, ?_⟩
  · rw [same.queues]
    exact tracks.backlogged
  · rw [same.queues]
    exact tracks.finish
  · rw [same.currTime]
    exact tracks.clock

/-- A packet that is taken activates an empty queue and moves nothing elsewhere. -/
theorem Tracks.enque (steady : ∀ i, (q.queues i).weight = weight i)
    (enques : Enques config p q q' taken) (small : taken = true → p.size ≤ limit)
    (tracks : Tracks q tags) :
    ∃ moves tags', Run (FinishTime.Step (unitWidth config limit weight)) tags moves tags' ∧
      Tracks q' tags' ∧
      ∀ k ∈ tags.backlogged, AnswersFor (weight k) k q q' 0 moves := by
  cases enques with
  | drop same =>
      exact ⟨[], tags, .nil tags, tracks.of_same same, fun k _ => .nil (by rw [same.queues])⟩
  | @activate marked time empty positive size stamp queues currTime weightSum =>
      have absent : classify config p ∉ tags.backlogged := fun member =>
        (tracks.backlogged _).mp member empty
      rw [steady] at positive stamp
      have range := increment_range positive p.size_pos (small rfl) (classify_lt config p)
      rw [tracks.clock, ← WithTop.coe_add] at stamp
      refine ⟨[.activate (classify config p) _], _, .single (.activate absent range.1 range.2),
        tracks.update queues (by simp) (fun k different => by simp [different])
          (fun _ => stamp) (currTime.trans stamp), fun k member => ⟨?_, by simp⟩⟩
      have different : k ≠ classify config p := fun equal => absent (equal ▸ member)
      simp [FinishTime.advanced, queues, Function.update_of_ne different]
  | @append marked busy size queues currTime weightSum =>
      have member := (tracks.backlogged (classify config p)).mpr busy
      refine ⟨[], tags, .nil tags, ?_, fun k _ => ⟨?_, List.not_mem_nil⟩⟩
      · have kept := tracks.update queues (by simpa using member) (fun k _ => Iff.rfl)
          (fun _ => tracks.finish _ member) (currTime.trans tracks.clock)
        rwa [Function.update_eq_self] at kept
      · rw [queues]
        by_cases same : k = classify config p
        · subst same
          obtain ⟨head, rest, front⟩ := List.exists_cons_of_ne_nil busy
          simp [FinishTime.advanced, front, headUnits]
        · simp [FinishTime.advanced, Function.update_of_ne same]

private theorem Tracks.least (sound : Sound config q) (tracks : Tracks q tags) {i : Fin 64}
    (found : scan config q = some i) : FinishTime.Least tags i := by
  obtain ⟨_, busy, earliest⟩ := sound.scan_least found
  have member := (tracks.backlogged i).mpr busy
  refine ⟨member, fun k inside => ?_⟩
  have below := earliest k ((tracks.backlogged k).mp inside)
  rwa [tracks.finish i member, tracks.finish k inside, WithTop.coe_le_coe] at below

/-- A deque moves only the queue it serves: to its next head while it has one. -/
theorem Tracks.deque (sound : Sound config q) (steady : ∀ i, (q.queues i).weight = weight i)
    (stored : StoredWithin limit q) (deques : Deques config now q q' pkt)
    (tracks : Tracks q tags) :
    ∃ moves tags', Run (FinishTime.Step (unitWidth config limit weight)) tags moves tags' ∧
      Tracks q' tags' ∧
      ∀ k ∈ tags.backlogged, (q'.queues k).packets ≠ [] →
        AnswersFor (weight k) k q q' ((Event.deque now pkt : Event Command).sentFrom k) moves := by
  cases deques with
  | idle empty same =>
      exact ⟨[], tags, .nil tags, tracks.of_same same, fun k _ _ => .nil (by rw [same.queues])⟩
  | @advance i head next rest time drain found front positive stamp queues currTime weightSum =>
      have least := tracks.least sound found
      have small := stored i next (by simp [front])
      rw [steady] at positive stamp
      have range := increment_range positive next.size_pos small (sound.scan_least found).1
      rw [tracks.finish i least.1, ← WithTop.coe_add] at stamp
      refine ⟨[.advance i _], _, .single (.advance least range.1 range.2),
        tracks.update queues (by simp [least.1]) (fun k _ => Iff.rfl) (fun _ => stamp) ?_,
        fun k _ _ => ⟨?_, by simp⟩⟩
      · rw [currTime, tracks.clock, stamp]
        split
        next overtakes => rw [max_eq_right (WithTop.coe_lt_coe.mp overtakes).le]
        next behind =>
          rw [max_eq_left (not_lt.mp fun lower => behind (WithTop.coe_lt_coe.mpr lower))]
      · rw [queues]
        by_cases same : k = i
        · subst same
          simp [FinishTime.advanced, front, headUnits, Event.sentFrom, dequeMarking_size, add_comm]
        · simp [FinishTime.advanced, Function.update_of_ne same, Event.sentFrom, Ne.symm same]
  | @retire i head drain found front queues currTime weightSum =>
      have least := tracks.least sound found
      have tracked := @Tracks.update _ _ _ tracks _ _ queues (tags.backlogged.erase i)
        (tags.finish i) _ (by simp) (fun k different => by simp [different])
        (fun member => absurd rfl (mem_erase.mp member).1) (currTime.trans tracks.clock)
      rw [Function.update_eq_self] at tracked
      refine ⟨[.retire i], _, .single (.retire least), tracked, fun k _ busy => ?_⟩
      have different : k ≠ i := by
        intro same
        subst same
        exact busy (by simp [queues])
      refine ⟨?_, by simp [different]⟩
      simp [FinishTime.advanced, queues, Function.update_of_ne different, Event.sentFrom,
        Ne.symm different]

theorem StoredWithin.of_same (stored : StoredWithin limit q) (same : SameSchedule q q') :
    StoredWithin limit q' := by
  unfold StoredWithin
  rw [same.queues]
  exact stored

theorem StoredWithin.enque (stored : StoredWithin limit q) (enques : Enques config p q q' taken)
    (small : taken = true → p.size ≤ limit) : StoredWithin limit q' := by
  cases enques with
  | drop same => exact stored.of_same same
  | @activate marked time empty positive size stamp queues currTime weightSum =>
      intro i pkt member
      rw [queues] at member
      by_cases same : i = classify config p
      · subst same
        simp only [Function.update_self, List.mem_singleton] at member
        rw [member, size]
        exact small rfl
      · rw [Function.update_of_ne same] at member
        exact stored i pkt member
  | @append marked busy size queues currTime weightSum =>
      intro i pkt member
      rw [queues] at member
      by_cases same : i = classify config p
      · subst same
        simp only [Function.update_self, List.mem_append, List.mem_singleton] at member
        rcases member with old | rfl
        · exact stored _ pkt old
        · rw [size]
          exact small rfl
      · rw [Function.update_of_ne same] at member
        exact stored i pkt member

theorem StoredWithin.deque (stored : StoredWithin limit q) (deques : Deques config now q q' pkt) :
    StoredWithin limit q' := by
  have shrunk : ∀ i, ∀ inside ∈ (q'.queues i).packets, inside ∈ (q.queues i).packets := by
    intro k inside member
    cases deques with
    | idle empty same => rwa [same.queues] at member
    | @advance i head next rest time drain found front positive stamp queues currTime weightSum =>
        rw [queues] at member
        by_cases same : k = i
        · subst same
          rw [Function.update_self] at member
          rw [front]
          exact List.mem_cons_of_mem _ member
        · rwa [Function.update_of_ne same] at member
    | @retire i head drain found front queues currTime weightSum =>
        rw [queues] at member
        by_cases same : k = i
        · subst same
          rw [Function.update_self] at member
          exact absurd member List.not_mem_nil
        · rwa [Function.update_of_ne same] at member
  exact fun i inside member => stored i inside (shrunk i inside member)

end

/-- Commands leave every FIFO and every time as it is. -/
theorem command_times {config : Config} {q q' : WfqQueue} {request : Command}
    (returns : command config q request = some q') :
    (∀ i, (q'.queues i).packets = (q.queues i).packets ∧
      (q'.queues i).headFinishTime = (q.queues i).headFinishTime) ∧ q'.currTime = q.currTime := by
  have replaced : ∀ (cl : PacketWfq) (queue i : Fin 64),
      cl.packets = (q.queues queue).packets →
      cl.headFinishTime = (q.queues queue).headFinishTime →
      (Function.update q.queues queue cl i).packets = (q.queues i).packets ∧
        (Function.update q.queues queue cl i).headFinishTime = (q.queues i).headFinishTime := by
    intro cl queue i packets time
    by_cases same : i = queue
    · subst same
      simpa using ⟨packets, time⟩
    · simp [Function.update_of_ne same]
  cases request with
  | setWeight queueId weight =>
      obtain ⟨queue, _, _, _, rfl⟩ := setWeight_cases returns
      exact ⟨fun i => replaced _ queue i rfl rfl, rfl⟩
  | setThresh queueId thresh =>
      obtain ⟨queue, _, rfl⟩ := setThresh_cases returns
      exact ⟨fun i => replaced _ queue i rfl rfl, rfl⟩

/-! ### Runs -/

/-- Moves that answer events for the queues that stay backlogged. -/
def Answers {Request : Type} (weight : Fin 64 → ℚ) (watched : Fin 64 → Prop) (first : Sys)
    (events : List (Event Request)) (last : Sys)
    (moves : List (FinishTime.Move (Fin 64) ℚ)) : Prop :=
  ∀ k, watched k → AnswersFor (weight k) k first.q last.q (sentBytes k events) moves

theorem Answers.cons {Request : Type} {weight : Fin 64 → ℚ} {watched : Fin 64 → Prop}
    {first middle last : Sys} {event : Event Request} {events : List (Event Request)}
    {moves rest : List (FinishTime.Move (Fin 64) ℚ)}
    (head : Answers weight watched first [event] middle moves)
    (tail : Answers weight watched middle events last rest) :
    Answers weight watched first (event :: events) last (moves ++ rest) :=
  fun k isWatched => (head k isWatched).append (tail k isWatched)

/-- The relation one event preserves. -/
structure Relates (config : Config) (limit : Nat) (weight : Fin 64 → ℚ) (watched : Fin 64 → Prop)
    (s : Sys) (tags : FinishTime.State (Fin 64) ℚ) : Prop where
  config_eq : s.config = config
  sound : Sound config s.q
  stored : StoredWithin limit s.q
  tracks : Tracks s.q tags
  chained : FinishTime.Chained (unitWidth config limit weight) tags
  linked : ∀ k, watched k → k ∈ tags.backlogged

section

variable {pow : ℚ → ℚ → ℚ} {config : Config} {limit : Nat} {weight : Fin 64 → ℚ}
  {watched : Fin 64 → Prop} {s s' : Sys} {event : Event Command}
  {tags : FinishTime.State (Fin 64) ℚ}

/-- Every event is answered by moves of the least-finish-tag scheduler. -/
theorem Relates.moves (step : Step pow s event s') (steady : Steady weight s)
    (taken : event.takenSize ≤ limit) (relates : Relates config limit weight watched s tags)
    (stays : ∀ k, watched k → Backlogged k s') :
    ∃ moves tags', Run (FinishTime.Step (unitWidth config limit weight)) tags moves tags' ∧
      Tracks s'.q tags' ∧ StoredWithin limit s'.q ∧ Answers weight watched s [event] s' moves := by
  obtain ⟨rfl, sound, stored, tracks, _, linked⟩ := relates
  cases step with
  | @enque now p q' accepted later returns =>
      have enques := enque_cases returns
      have small : accepted = true → p.size ≤ limit := by
        intro isTaken
        subst isTaken
        exact taken
      obtain ⟨moves, tags', run, tracked, answers⟩ := tracks.enque steady enques small
      refine ⟨moves, tags', run, tracked, stored.enque enques small, fun k isWatched => ?_⟩
      exact answers k (linked k isWatched)
  | @deque now q' pkt later returns =>
      have deques := deque_cases returns
      obtain ⟨moves, tags', run, tracked, answers⟩ := tracks.deque sound steady stored deques
      refine ⟨moves, tags', run, tracked, stored.deque deques, fun k isWatched => ?_⟩
      exact answers k (linked k isWatched) (stays k isWatched)
  | @command request q' returns =>
      obtain ⟨same, sameTime⟩ := command_times returns
      refine ⟨[], tags, .nil tags, ⟨fun k => ?_, fun k member => ?_, ?_⟩, fun k pkt member => ?_,
        fun k _ => ⟨?_, List.not_mem_nil⟩⟩
      · rw [(same k).1]
        exact tracks.backlogged k
      · rw [(same k).2]
        exact tracks.finish k member
      · exact sameTime.trans tracks.clock
      · rw [(same k).1] at member
        exact stored k pkt member
      · simp [FinishTime.advanced, Event.sentFrom, (same k).1]
  | timeout later pending =>
      refine ⟨[], tags, .nil tags, ⟨tracks.backlogged, tracks.finish, tracks.clock⟩, stored,
        fun k _ => ⟨?_, List.not_mem_nil⟩⟩
      simp [FinishTime.advanced, Event.sentFrom, timeout]

/-- Moves that answer events from related states lead to related states. -/
theorem Relates.next {Request : Type} {events : List (Event Request)}
    {moves : List (FinishTime.Move (Fin 64) ℚ)} {tags' : FinishTime.State (Fin 64) ℚ}
    (relates : Relates config limit weight watched s tags) (positive : ∀ i, 0 < weight i)
    (run : Run (FinishTime.Step (unitWidth config limit weight)) tags moves tags')
    (answers : Answers weight watched s events s' moves) (same : s'.config = config)
    (sound : Sound config s'.q) (stored : StoredWithin limit s'.q) (tracks : Tracks s'.q tags') :
    Relates config limit weight watched s' tags' := by
  refine ⟨same, sound, stored, tracks, relates.chained.run (unitWidth_nonneg positive) run, ?_⟩
  intro k isWatched
  exact (FinishTime.finish_eq_add_advanced run (relates.linked k isWatched)
    (answers k isWatched).2).1

/-- Any queues that hold packets can be watched. -/
theorem Relates.watch {busy : Fin 64 → Prop} (relates : Relates config limit weight watched s tags)
    (backlogged : ∀ k, busy k → Backlogged k s) : Relates config limit weight busy s tags :=
  { relates with linked := fun k isBusy => (relates.tracks.backlogged k).mpr (backlogged k isBusy) }

private theorem Relates.answer (step : Step pow s event s') (steady : Steady weight s)
    (positive : ∀ i, 0 < weight i) (taken : event.takenSize ≤ limit)
    (relates : Relates config limit weight watched s tags)
    (stays : ∀ k, watched k → Backlogged k s') :
    ∃ moves tags', Run (FinishTime.Step (unitWidth config limit weight)) tags moves tags' ∧
      Relates config limit weight watched s' tags' ∧
      Answers weight watched s [event] s' moves := by
  obtain ⟨moves, tags', run, tracked, stored, answers⟩ := relates.moves step steady taken stays
  have sameConfig : s'.config = s.config := by
    cases step <;> rfl
  have sound := relates.sound
  rw [← relates.config_eq] at sound
  have sound' := sound.step step
  rw [sameConfig, relates.config_eq] at sound'
  exact ⟨moves, tags', run, relates.next positive run answers
    (sameConfig.trans relates.config_eq) sound' stored tracked, answers⟩

/-- A run during which the watched queues stay backlogged is a run of the
least-finish-tag scheduler that answers it. -/
theorem Relates.run {first last : Sys} {events : List (Event Command)}
    (positive : ∀ i, 0 < weight i) (relates : Relates config limit weight watched first tags)
    (run : RunWithin (fun s => Steady weight s ∧ ∀ k, watched k → Backlogged k s)
      (Step pow) first events last)
    (taken : ∀ event ∈ events, event.takenSize ≤ limit) :
    ∃ moves tags', Run (FinishTime.Step (unitWidth config limit weight)) tags moves tags' ∧
      Relates config limit weight watched last tags' ∧
      Answers weight watched first events last moves := by
  apply RunWithin.simulate (FinishTime.Step (unitWidth config limit weight))
    (Relates config limit weight watched) (Answers weight watched) _ Answers.cons run taken relates
  · intro first last event start before step after small related
    exact related.answer step before.1 positive small after.2
  · intro state k isWatched
    exact ⟨by simp [FinishTime.advanced], List.not_mem_nil⟩

end

/-! ### Fairness -/

/-- A discipline without packets tracks the idle scheduler. -/
theorem relates_idle (limit : Nat) (weight : Fin 64 → ℚ) {start : Sys}
    (sound : Sound start.config start.q) (idle : ∀ k, (start.q.queues k).packets = []) :
    ∃ tags, Relates start.config limit weight (fun _ => False) start tags := by
  obtain ⟨clock, currTime⟩ := WithTop.ne_top_iff_exists.mp sound.clock
  refine ⟨⟨∅, fun _ => 0, clock⟩, rfl, sound, fun k pkt member => ?_,
    ⟨fun k => ?_, fun k member => absurd member (notMem_empty k), currTime.symm⟩,
    FinishTime.chained_of_idle rfl, fun _ isWatched => isWatched.elim⟩
  · rw [idle k] at member
    exact absurd member List.not_mem_nil
  · simp [idle k]

/-- The queues below `queue_num_`. -/
def inUse (config : Config) : Finset (Fin 64) :=
  univ.filter fun k : Fin 64 => (k : Nat) < config.queueNum

private theorem sum_unitWidth (config : Config) (limit : Nat) (weight : Fin 64 → ℚ) :
    ∑ k, unitWidth config limit weight k =
      ∑ k ∈ inUse config, (limit : ℚ) / weight k := by
  rw [inUse, sum_filter]
  rfl

/-- Between two related states, the scheduler bounds what two backlogged queues are sent. -/
theorem Relates.abs_sent_sub_le {Request : Type} {config : Config} {limit : Nat}
    {weight : Fin 64 → ℚ} {i j : Fin 64} {first last : Sys} {events : List (Event Request)}
    {tags tags' : FinishTime.State (Fin 64) ℚ} {moves : List (FinishTime.Move (Fin 64) ℚ)}
    (before : Relates config limit weight (fun k => k = i ∨ k = j) first tags)
    (after : Relates config limit weight (fun k => k = i ∨ k = j) last tags')
    (positive : ∀ k, 0 < weight k)
    (run : Run (FinishTime.Step (unitWidth config limit weight)) tags moves tags')
    (answers : Answers weight (fun k => k = i ∨ k = j) first events last moves) :
    |(sentBytes i events : ℚ) / weight i - (sentBytes j events : ℚ) / weight j| ≤
      2 * (∑ k ∈ inUse config, (limit : ℚ) / weight k) + (limit : ℚ) / weight i +
        (limit : ℚ) / weight j := by
  have inside : ∀ k, k = i ∨ k = j → (k : Nat) < config.queueNum := by
    intro k isWatched
    by_contra beyond
    exact (before.tracks.backlogged k).mp (before.linked k isWatched)
      (before.sound.outside k (not_lt.mp beyond))
  have head : ∀ k (s : Sys), k = i ∨ k = j → StoredWithin limit s.q →
      0 ≤ headUnits (weight k) (s.q.queues k).packets ∧
        headUnits (weight k) (s.q.queues k).packets ≤ unitWidth config limit weight k :=
    fun k s isWatched stored => headUnits_range (positive k) (stored k) (inside k isWatched)
  have fair := @FinishTime.abs_sent_sub_le _ _ _ _ _ _ _ _ (unitWidth_nonneg positive) _ _ _ i j
    run before.chained after.chained before.linked
    (fun k isWatched => (answers k isWatched).2) (fun k => sentBytes k events / weight k)
    (fun k => headUnits (weight k) (first.q.queues k).packets)
    (fun k => headUnits (weight k) (last.q.queues k).packets)
    (fun k isWatched => (answers k isWatched).1)
    (fun k isWatched => head k first isWatched before.stored)
    (fun k isWatched => head k last isWatched after.stored)
  have own : ∀ k, k = i ∨ k = j → unitWidth config limit weight k = limit / weight k :=
    fun k isWatched => if_pos (inside k isWatched)
  rwa [← two_mul, sum_unitWidth, own i (Or.inl rfl), own j (Or.inr rfl)] at fair

/-- **Weighted fairness.** With constant weights, two queues that stay backlogged over an
interval of a run are sent byte counts that, each divided by its weight, differ by at most
twice the largest packet over the weight of every queue and their own two, whatever else
happens in the interval. -/
theorem weighted_byte_fairness {pow : ℚ → ℚ → ℚ} {weight : Fin 64 → ℚ} {i j : Fin 64}
    {start first last : Sys} {history interval : List (Event Command)}
    (reachable : Reachable pow start) (idle : ∀ k, (start.q.queues k).packets = [])
    (before : RunWithin (Steady weight) (Step pow) start history first)
    (during : RunWithin (fun s => Steady weight s ∧ Backlogged i s ∧ Backlogged j s)
      (Step pow) first interval last) :
    |(sentBytes i interval : ℚ) / weight i - (sentBytes j interval : ℚ) / weight j| ≤
      2 * (∑ k ∈ inUse start.config, (largestSize (history ++ interval) : ℚ) / weight k) +
        (largestSize (history ++ interval) : ℚ) / weight i +
        (largestSize (history ++ interval) : ℚ) / weight j := by
  set limit := largestSize (history ++ interval)
  have sound := sound_of_reachable reachable
  have positive : ∀ k, 0 < weight k := by
    intro k
    rw [← before.1 k]
    exact sound.weights k
  -- the history brings the scheduler to the start of the interval
  obtain ⟨tags, related⟩ := relates_idle limit weight sound idle
  obtain ⟨joined, tags, historyRun, reached, _⟩ :=
    related.run positive (before.mono fun s steady => ⟨steady, fun _ isWatched => isWatched.elim⟩)
      fun event member => takenSize_le_largestSize (List.mem_append_left _ member)
  have watching := reached.watch (fun k (isWatched : k = i ∨ k = j) => by
    rcases isWatched with rfl | rfl
    · exact during.1.2.1
    · exact during.1.2.2)
  -- in the interval neither queue retires
  obtain ⟨moves, tags', intervalRun, related, answers⟩ :=
    watching.run positive (during.mono fun s both => ⟨both.1, by simpa using both.2⟩)
      fun event member => takenSize_le_largestSize (List.mem_append_right _ member)
  exact watching.abs_sent_sub_le related positive intervalRun answers

/-! ### A run with weights 100000 and 400000 -/

def fresh : Sys := ⟨defaultConfig, construct, 0⟩

/-- The weights of the two queues, as commands. -/
def weighting : List (Event Command) :=
  [.command (.setWeight 0 100000), .command (.setWeight 1 400000)]

private theorem weighting_replays :
    (replay (Sys.next wholePow) (fun _ => True) fresh weighting).isSome = true := by
  decide

def weighted : Sys :=
  (replay (Sys.next wholePow) (fun _ => True) fresh weighting).get weighting_replays

private theorem weighted_reachable : Reachable wholePow weighted :=
  ⟨fresh, weighting, rfl, (RunWithin.of_replay_isSome Sys.next_sound weighting_replays).run⟩

/-- A packet of the given priority, not ECN-capable. -/
def segment (prio : Int) : Packet := ⟨prio, 1500, false, false, 0, by decide⟩

/-- Two packets in either queue. -/
def filling : List (Event Command) :=
  [.enque 0 (segment 0) true, .enque 0 (segment 0) true, .enque 0 (segment 1) true,
    .enque 0 (segment 1) true]

private theorem filling_replays :
    (replay (Sys.next wholePow) (Steady fun i => (weighted.q.queues i).weight) weighted
      filling).isSome = true := by
  decide +kernel

def filled : Sys :=
  (replay (Sys.next wholePow) (Steady fun i => (weighted.q.queues i).weight) weighted filling).get
    filling_replays

private theorem sending_replays :
    (replay (Sys.next wholePow)
      (fun s => Steady (fun i => (weighted.q.queues i).weight) s ∧ Backlogged 0 s ∧ Backlogged 1 s)
      filled [.deque 1 (some (0, segment 0))]).isSome = true := by
  decide +kernel

theorem filled_weighted_fairness :
    |(sentBytes 0 [(.deque 1 (some (0, segment 0)) : Event Command)] : ℚ) /
          (weighted.q.queues 0).weight -
        (sentBytes 1 [(.deque 1 (some (0, segment 0)) : Event Command)] : ℚ) /
          (weighted.q.queues 1).weight| ≤
      2 * (∑ k ∈ inUse defaultConfig,
          (largestSize (filling ++ [.deque 1 (some (0, segment 0))]) : ℚ) /
            (weighted.q.queues k).weight) +
        (largestSize (filling ++ [.deque 1 (some (0, segment 0))]) : ℚ) /
          (weighted.q.queues 0).weight +
        (largestSize (filling ++ [.deque 1 (some (0, segment 0))]) : ℚ) /
          (weighted.q.queues 1).weight := by
  have idle : ∀ k, (weighted.q.queues k).packets = [] := by decide
  have before := RunWithin.of_replay_isSome Sys.next_sound filling_replays
  have during := RunWithin.of_replay_isSome Sys.next_sound sending_replays
  have fair := @weighted_byte_fairness wholePow (fun i => (weighted.q.queues i).weight) 0 1 weighted
    filled _ filling _ weighted_reachable idle before during
  beta_reduce at fair
  have same : weighted.config = defaultConfig := by rfl
  rwa [same] at fair

end MqEcn.Ns2.Wfq
