import MqEcn.Ns2.Passage
import MqEcn.Ns2.PrioDwrr.Schedule
import MqEcn.Ns2.PrioWfq.Schedule
import MqEcn.Ns2.Priority.Model
import MqEcn.Ns2.Wrr.Step

/-!
Contract: the NS2 disciplines as FIFOs.

Owns: the reading of each discipline, and what its operations do to the packets of its queues.

Does not own: what follows for the runs, and which queue is served.
-/

set_option autoImplicit false

/-! ### Priority -/

namespace MqEcn.Ns2.Priority

/-- `Priority` as FIFOs. -/
def reading : Reading Sys (Event Empty) Config (Fin 64) where
  config := Discipline.config
  clock := Discipline.clock
  fifo := fun s => s.q.queues
  classify := fun config p => some (classify config p)
  latency := fun config => latencyOf (config.markingScheme = Dwrr.latencyMarking)
    (config.thresh * config.meanPktsize * 8 : Int) config.linkCapacity
  accepted := Event.accepted
  sent := Event.sent

theorem reading_moves {s s' : Sys} {event : Event Empty} (step : Step s event s') :
    reading.Moves s s' event := by
  cases step with
  | @enque now p q' taken later returns =>
      unfold enque at returns
      split at returns
      · cases returns
        exact .rest rfl rfl later rfl rfl
      · obtain ⟨marked, marks, same⟩ := Option.map_eq_some_iff.mp returns
        cases same
        exact .accept rfl rfl later rfl rfl rfl (storedFrom_of_marks marks) rfl
  | @deque now q' pkt later returns =>
      unfold deque at returns
      split at returns
      next busy =>
        split at returns
        next =>
          cases returns
          exact .rest rfl rfl later rfl rfl
        next i found =>
          split at returns
          next =>
            cases returns
            exact .rest rfl rfl later rfl rfl
          next head rest front =>
            cases returns
            exact .send rfl rfl later rfl rfl front (sentFrom_ite _ _ _ _ _) rfl
      next idle =>
        cases returns
        exact .rest rfl rfl later rfl rfl

end MqEcn.Ns2.Priority

/-! ### WFQ -/

namespace MqEcn.Ns2.Wfq

/-- The packets of each queue. -/
def contents (q : WfqQueue) : Fin 64 → List Packet := PacketWfq.packets ∘ q.queues

/-- The threshold of the sojourn time. -/
def Config.latency (config : Config) : Option ℚ :=
  latencyOf (config.markingScheme = latencyMarking)
    (config.portThresh * config.meanPktsize * 8) config.linkCapacity

/-- `WFQ` as FIFOs. -/
def reading : Reading Sys (Event Command) Config (Fin 64) where
  config := Discipline.config
  clock := Discipline.clock
  fifo := fun s => contents s.q
  classify := fun config p => some (classify config p)
  latency := Config.latency
  accepted := Event.accepted
  sent := Event.sent

section

variable {q q' : WfqQueue} {i : Fin 64}

theorem contents_update {cl : PacketWfq} (queues : q'.queues = Function.update q.queues i cl) :
    contents q' = Function.update (contents q) i cl.packets := by
  unfold contents
  rw [queues, Function.comp_update]

theorem contents_of_update {cl : PacketWfq} (queues : q'.queues = Function.update q.queues i cl)
    (same : cl.packets = contents q i) : contents q' = contents q := by
  rw [contents_update queues, same, Function.update_eq_self]

private theorem contents_of_same (same : SameSchedule q q') : contents q' = contents q := by
  unfold contents
  rw [same.queues]

private theorem contents_activate {size : Nat} (activates : activate i size q = some q') :
    contents q' = contents q := by
  unfold activate at activates
  simp only at activates
  split at activates
  · cases activates
    exact contents_of_update rfl rfl
  · cases activates

private theorem contents_stamped {size : Nat}
    (stamps : (if (q.queues i).packets = [] then activate i size q else some q) = some q') :
    contents q' = contents q := by
  split at stamps
  · exact contents_activate stamps
  · cases stamps
    rfl

private theorem contents_advance (advances : advance i q = some q') : contents q' = contents q := by
  unfold advance at advances
  simp only at advances
  split at advances
  · cases advances
    exact contents_of_update rfl rfl
  · split at advances
    · cases advances
      exact contents_of_update rfl rfl
    · cases advances

private theorem contents_push (i : Fin 64) (p : Packet) (q : WfqQueue) :
    contents (push i p q) = Function.update (contents q) i (contents q i ++ [p]) := by
  have queues : (push i p q).queues = Function.update q.queues i _ := rfl
  exact contents_update queues

private theorem contents_pop (config : Config) (now : ℚ) (i : Fin 64) (pkt : Packet)
    (rest : List Packet) (q : WfqQueue) :
    contents (pop config now i pkt rest q) = Function.update (contents q) i rest := by
  have queues : (pop config now i pkt rest q).queues = Function.update q.queues i _ := rfl
  exact contents_update queues

end

theorem reading_moves {pow : ℚ → ℚ → ℚ} {s s' : Sys} {event : Event Command}
    (step : Step pow s event s') : reading.Moves s s' event := by
  cases step with
  | @enque now p q' taken later returns =>
      have same := contents_of_same ((sameSchedule_startTimer s.config s.q).trans
        (sameSchedule_decayEstimate pow s.config now (startTimer s.config s.q)))
      unfold enque at returns
      simp only at returns
      generalize decayEstimate pow s.config now (startTimer s.config s.q) = settled at same returns
      split at returns
      · cases returns
        exact .rest rfl rfl later rfl same
      · simp only [admission, Option.map_eq_some_iff, Option.bind_eq_some_iff] at returns
        obtain ⟨_, ⟨stamped, stamps, marked, marks, rfl⟩, rfl, rfl⟩ := returns
        refine .accept rfl rfl later rfl rfl rfl (storedFrom_of_marks marks) ?_
        show contents _ = Function.update (contents s.q) _ (contents s.q _ ++ _)
        rw [contents_push, contents_stamped stamps, same]
        rfl
  | @deque now q' pkt later returns =>
      unfold deque at returns
      split at returns
      next busy =>
        split at returns
        next => cases returns
        next i found =>
          split at returns
          next => cases returns
          next head rest front =>
            obtain ⟨advanced, advances, same⟩ := Option.map_eq_some_iff.mp returns
            cases same
            refine .send rfl rfl later rfl rfl front (sentFrom_ite _ _ _ _ _) ?_
            exact (contents_of_same (sameSchedule_sampleEstimate s.config now advanced)).trans
              ((contents_advance advances).trans (contents_pop s.config now i head rest s.q))
      next idle =>
        cases returns
        exact .rest rfl rfl later rfl
          (contents_of_same (sameSchedule_sampleEstimate s.config now s.q))
  | @command request q' returns =>
      refine .rest rfl rfl le_rfl rfl ?_
      cases request with
      | setWeight queueId weight =>
          obtain ⟨i, _, _, _, rfl⟩ := setWeight_cases returns
          exact contents_of_update rfl rfl
      | setThresh queueId thresh =>
          obtain ⟨i, _, rfl⟩ := setThresh_cases returns
          exact contents_of_update rfl rfl
  | timeout later pending => exact .rest rfl rfl later rfl rfl

end MqEcn.Ns2.Wfq

/-! ### WRR -/

namespace MqEcn.Ns2.Wrr

open MqEcn.Library.Visits (Visit)
open MqEcn.Ns2.Dwrr (Command latencyMarking)

/-- The packets of each queue. -/
def contents (q : WrrQueue) : Fin 64 → List Packet := PacketWrr.packets ∘ q.queues

/-- `WRR` as FIFOs. -/
def reading : Reading Sys (Event Command) Config (Fin 64) where
  config := Discipline.config
  clock := Discipline.clock
  fifo := fun s => contents s.q
  classify := fun config p => some (classify config p)
  latency := fun config => latencyOf (config.markingScheme = latencyMarking)
    (config.portThresh * config.meanPktsize * 8) config.linkCapacity
  accepted := Event.accepted
  sent := Event.sent

section

variable {config : Config} {now : ℚ} {q q' : WrrQueue} {i : Fin 64}

theorem contents_update {cl : PacketWrr} (queues : q'.queues = Function.update q.queues i cl) :
    contents q' = Function.update (contents q) i cl.packets := by
  unfold contents
  rw [queues, Function.comp_update]

private theorem contents_of_update {cl : PacketWrr}
    (queues : q'.queues = Function.update q.queues i cl) (same : cl.packets = contents q i) :
    contents q' = contents q := by
  rw [contents_update queues, same, Function.update_eq_self]

private theorem contents_resetIdle (pow : ℚ → ℚ → ℚ) (config : Config) (now : ℚ) (q : WrrQueue) :
    contents (resetIdle pow config now q) = contents q := by
  funext k
  unfold contents
  obtain ⟨startTime, queue⟩ := resetIdle_queue pow config now q k
  rw [Function.comp_apply, Function.comp_apply, queue]

private theorem contents_settle (config : Config) (now : ℚ) (q : WrrQueue) :
    contents (settle config now q) = contents q := by
  unfold settle
  split <;> rfl

/-- The loop moves no packet up to the one it sends. -/
theorem Serves.contents {visits : List (Visit (Fin 64))} {answer : Fin 64 × Packet}
    (serves : Serves config now q visits q' answer) :
    ∃ head rest, Wrr.contents q answer.1 = head :: rest ∧
      answer.2 = dequeMarking config now head ∧
      Wrr.contents q' = Function.update (Wrr.contents q) answer.1 rest := by
  induction serves with
  | @sends q pkt rest front enough =>
      refine ⟨pkt, rest, front, rfl, ?_⟩
      rw [contents_update (serve_queues config now pkt rest q)]
      split <;> rfl
  | @skips q q' visits answer empty later inductionHypothesis =>
      have same : Wrr.contents (move config now q) = Wrr.contents q :=
        contents_of_update (move_queues config now q) rfl
      rw [same] at inductionHypothesis
      exact inductionHypothesis
  | @exhausts q q' visits answer pkt rest front short later inductionHypothesis =>
      have same : Wrr.contents (exhaust config now (refresh q)) = Wrr.contents q :=
        contents_of_update (exhaust_queues config now q) rfl
      rw [same] at inductionHypothesis
      exact inductionHypothesis

end

theorem reading_moves {pow : ℚ → ℚ → ℚ} {s s' : Sys} {event : Event Command}
    (step : Step pow s event s') : reading.Moves s s' event := by
  cases step with
  | @enque now p q' taken later returns =>
      have same := contents_resetIdle pow s.config now s.q
      unfold enque at returns
      simp only at returns
      generalize resetIdle pow s.config now s.q = settled at same returns
      split at returns
      · cases returns
        exact .rest rfl rfl later rfl same
      · obtain ⟨marked, marks, taken⟩ := Option.map_eq_some_iff.mp returns
        cases taken
        have queues : (push (classify s.config p) marked settled).queues =
            Function.update settled.queues (classify s.config p) _ := rfl
        refine .accept rfl rfl later rfl rfl rfl (storedFrom_of_marks marks) ?_
        show contents _ = Function.update (contents s.q) _ (contents s.q _ ++ _)
        rw [contents_update queues, ← same]
        rfl
  | @deque now fuel q' pkt later returns =>
      rcases deque_cases returns with ⟨rfl, rfl⟩ | ⟨visits, last, answer, _, serves, rfl, rfl⟩
      · exact .rest rfl rfl later rfl (contents_settle s.config now s.q)
      · obtain ⟨head, rest, front, marks, after⟩ := serves.contents
        refine .send rfl rfl later rfl rfl front ?_
          ((contents_settle s.config now last).trans after)
        rw [marks]
        exact sentFrom_ite _ _ _ _ _
  | @command request q' returns =>
      refine .rest rfl rfl le_rfl rfl ?_
      cases request with
      | setQuantum queueId quantum =>
          obtain ⟨_, i, rfl⟩ := setQuantum_cases returns
          exact contents_of_update rfl rfl
      | setThresh queueId thresh =>
          obtain ⟨i, rfl⟩ := setThresh_cases returns
          exact contents_of_update rfl rfl

end MqEcn.Ns2.Wrr

/-! ### DWRR -/

namespace MqEcn.Ns2.Dwrr

/-- The packets of each queue. -/
def contents (q : DwrrQueue) : Fin 64 → List Packet := PacketDwrr.packets ∘ q.queues

/-- The threshold of the sojourn time. -/
def Tuning.latency (tuning : Tuning) : Option ℚ :=
  latencyOf (tuning.markingScheme = latencyMarking)
    (tuning.portThresh * tuning.meanPktsize * 8) tuning.linkCapacity

/-- `DWRR` as FIFOs. -/
def reading : Reading Sys (Event Command) Config (Fin 64) where
  config := Discipline.config
  clock := Discipline.clock
  fifo := fun s => contents s.q
  classify := fun config p => some (classify config p)
  latency := fun config => config.toTuning.latency
  accepted := Event.accepted
  sent := Event.sent

section

variable {config : Config} {tuning : Tuning} {now : ℚ} {q q' : DwrrQueue} {i : Fin 64}
  {p marked : Packet} {choice : Choice}

theorem contents_update {cl : PacketDwrr} (queues : q'.queues = Function.update q.queues i cl) :
    contents q' = Function.update (contents q) i cl.packets := by
  unfold contents
  rw [queues, Function.comp_update]

theorem contents_of_update {cl : PacketDwrr} (queues : q'.queues = Function.update q.queues i cl)
    (same : cl.packets = contents q i) : contents q' = contents q := by
  rw [contents_update queues, same, Function.update_eq_self]

private theorem contents_of_same (same : SameSchedule q q') : contents q' = contents q := by
  unfold contents
  rw [same.queues]

private theorem contents_insertTailList (inserts : insertTailList i q = some q') :
    contents q' = contents q := by
  obtain ⟨links, _, rfl⟩ := Option.map_eq_some_iff.mp inserts
  rfl

private theorem contents_removeHeadList (removes : removeHeadList q = some (i, q')) :
    contents q' = contents q := by
  obtain ⟨⟨head, links⟩, _, same⟩ := Option.map_eq_some_iff.mp removes
  cases same
  rfl

private theorem contents_activate (activates : activate now i q = some q') :
    contents q' = contents q := by
  unfold activate at activates
  simp only at activates
  split at activates
  · cases activates
    rfl
  · obtain ⟨linked, inserts, rfl⟩ := Option.map_eq_some_iff.mp activates
    exact (contents_insertTailList inserts).trans (contents_of_update rfl rfl)

private theorem contents_push (i : Fin 64) (p : Packet) (q : DwrrQueue) :
    contents (push i p q) = Function.update (contents q) i (contents q i ++ [p]) := by
  have queues : (push i p q).queues = Function.update q.queues i _ := rfl
  exact contents_update queues

private theorem contents_refresh (i : Fin 64) (q : DwrrQueue) :
    contents (refresh i q) = contents q := by
  unfold refresh
  simp only
  split
  · rfl
  · exact contents_of_update rfl rfl

private theorem contents_rotate (rotates : rotate tuning now q = some q') :
    contents q' = contents q := by
  unfold rotate at rotates
  obtain ⟨⟨head, removed⟩, removes, inserts⟩ := Option.bind_eq_some_iff.mp rotates
  rw [contents_insertTailList inserts, ← contents_removeHeadList removes]
  exact contents_of_update rfl rfl

/-- The loop moves no packet up to the one it finds. -/
theorem contents_select {fuel : Nat} (selects : select tuning now fuel q = some (q', choice)) :
    contents q' = contents q ∧ contents q choice.queue = choice.pkt :: choice.rest := by
  induction fuel generalizing q with
  | zero => cases selects
  | succ fuel inductionHypothesis =>
      unfold select at selects
      split at selects
      next => cases selects
      next head first =>
        split at selects
        next => exact inductionHypothesis selects
        next pkt rest front =>
          simp only at selects
          split at selects
          next enough =>
            cases selects
            exact ⟨contents_refresh head q, front⟩
          next short =>
            obtain ⟨rotated, rotates, later⟩ := Option.bind_eq_some_iff.mp selects
            have same := (contents_rotate rotates).trans (contents_refresh head q)
            rw [← same]
            exact inductionHypothesis later

/-- The packet leaves, and the queue with it if it is empty then. -/
theorem contents_retire
    (retires : retire tuning now choice (measure tuning now choice (pop choice q)) = some q') :
    contents q' = Function.update (contents q) choice.queue choice.rest := by
  have popped : (pop choice q).queues = Function.update q.queues choice.queue _ := rfl
  have measured : (measure tuning now choice (pop choice q)).queues =
      Function.update (pop choice q).queues choice.queue _ := rfl
  have sent := (contents_of_update measured rfl).trans (contents_update popped)
  unfold retire at retires
  simp only at retires
  split at retires
  · obtain ⟨⟨head, unlinked⟩, removes, retired⟩ := Option.map_eq_some_iff.mp retires
    have queues : q'.queues = Function.update unlinked.queues head
        { unlinked.queues head with
          deficitCounter := 0, active := false, current := false } := by
      rw [← retired]
    exact ((contents_of_update queues rfl).trans (contents_removeHeadList removes)).trans sent
  · cases retires
    exact sent

private theorem enqueMarking_storedFrom (marks : enqueMarking config now i p q = some marked) :
    StoredFrom config.toTuning.latency (now, p) marked := by
  apply @storedFrom_of_marks _ _ _ _ _ _ _
    (if config.dequeMarking then some false else markingEcn config q i)
  rw [← marks]
  unfold enqueMarking
  by_cases deferred : config.dequeMarking = true
  · simp only [if_pos deferred, Option.map_some, Bool.false_eq_true, false_and, if_false]
  · simp only [if_neg deferred]

private theorem dequeMarking_sentFrom {pkt : Packet}
    (marks : dequeMarking config now i pkt q = some marked) :
    SentFrom config.toTuning.latency pkt (now, marked) := by
  unfold dequeMarking at marks
  split at marks
  next other =>
    unfold Tuning.latency latencyOf
    rw [if_neg other]
    split at marks
    · obtain ⟨mark, _, rfl⟩ := Option.map_eq_some_iff.mp marks
      exact remarked_ite _ _
    · cases marks
      exact Or.inl rfl
  next timed =>
    cases marks
    unfold Tuning.latency latencyOf
    rw [if_pos (not_not.mp timed)]
    rfl

end

theorem reading_moves {pow : ℚ → ℚ → ℚ} {s s' : Sys} {event : Event Command}
    (step : Step pow s event s') : reading.Moves s s' event := by
  cases step with
  | @enque now p q' taken later returns =>
      have same := contents_of_same ((sameSchedule_startTimer s.config.toTuning s.q).trans
        (sameSchedule_decayIdle pow s.config.toTuning now (totalByteLength s.config s.q = 0)
          (startTimer s.config.toTuning s.q)))
      unfold enque at returns
      simp only at returns
      split at returns
      · cases returns
        exact .rest rfl rfl later rfl same
      · simp only [admission, Option.map_eq_some_iff, Option.bind_eq_some_iff] at returns
        obtain ⟨_, ⟨activated, activates, marked, marks, rfl⟩, rfl, rfl⟩ := returns
        refine .accept rfl rfl later rfl rfl rfl (enqueMarking_storedFrom marks) ?_
        show contents _ = Function.update (contents s.q) _ (contents s.q _ ++ _)
        rw [contents_push, contents_activate activates, same]
        rfl
  | @deque now fuel q' pkt later returns =>
      unfold deque at returns
      obtain ⟨⟨last, answer⟩, found, same⟩ := Option.map_eq_some_iff.mp returns
      cases same
      have finishes := fun idle => contents_of_same
        (sameSchedule_finish s.config.toTuning now idle last)
      split at found
      next busy =>
        obtain ⟨⟨selected, choice⟩, selects, served⟩ := Option.bind_eq_some_iff.mp found
        obtain ⟨⟨sent, packet⟩, serves, same⟩ := Option.map_eq_some_iff.mp served
        cases same
        unfold serve at serves
        obtain ⟨marked, marks, retired⟩ := Option.bind_eq_some_iff.mp serves
        obtain ⟨after, retires, same⟩ := Option.map_eq_some_iff.mp retired
        cases same
        obtain ⟨before, front⟩ := contents_select selects
        refine .send rfl rfl later rfl rfl front (dequeMarking_sentFrom marks) ?_
        show contents _ = Function.update (contents s.q) _ _
        rw [finishes, contents_retire retires, before]
      next idle =>
        cases found
        exact .rest rfl rfl later rfl (finishes _)
  | @command request q' returns =>
      refine .rest rfl rfl le_rfl rfl ?_
      cases request with
      | setQuantum queueId quantum =>
          obtain ⟨i, _, _, rfl⟩ := exists_setQuantum_eq returns
          exact contents_of_update rfl rfl
      | setThresh queueId thresh =>
          obtain ⟨i, _, rfl⟩ := exists_setThresh_eq returns
          exact contents_of_update rfl rfl
  | timeout later pending => exact .rest rfl rfl later rfl rfl

end MqEcn.Ns2.Dwrr

/-! ### Priority queues above others -/

namespace MqEcn.Ns2.StrictPriority

section

variable {State Lower : Type} {latency : Option ℚ} {now : ℚ}
  {packets : State → QueueId → List Packet} {q q' : State} {answer : Option (QueueId × Packet)}

/-- A packet joins the queue it is routed to. -/
theorem joined_of_route {joins : QueueId → Prop} {target : Option QueueId}
    {prio : Fin 8 → Option State} {lower : Fin 64 → Option State}
    (admits : (match target with
      | none => none
      | some (.inl i) => prio i
      | some (.inr i) => lower i) = some q')
    (fromPrio : ∀ i, prio i = some q' → joins (.inl i))
    (fromLower : ∀ i, lower i = some q' → joins (.inr i)) :
    ∃ queue, target = some queue ∧ joins queue := by
  split at admits
  next => cases admits
  next i => exact ⟨.inl i, rfl, fromPrio i admits⟩
  next i => exact ⟨.inr i, rfl, fromLower i admits⟩

/-- The queue holds it as the marking leaves it. -/
theorem joined_of_marks {p : Packet} {mark : Option Packet} {push : Packet → State}
    {queue : QueueId} (admits : mark.map push = some q')
    (storing : ∀ stored, mark = some stored → StoredFrom latency (now, p) stored)
    (pushes : ∀ stored, packets (push stored) =
      Function.update (packets q) queue (packets q queue ++ [stored])) :
    ∃ stored, StoredFrom latency (now, p) stored ∧
      packets q' = Function.update (packets q) queue (packets q queue ++ [stored]) := by
  obtain ⟨stored, marks, rfl⟩ := Option.map_eq_some_iff.mp admits
  exact ⟨stored, storing stored marks, pushes stored⟩

/-- A priority queue hands out the head the search found. -/
theorem hands_of_found {found : Option (Fin 8 × Packet × List Packet)}
    {serve : Fin 8 → Packet → List Packet → State} {mark : Packet → Packet}
    (returns : (match found with
      | none => (q, none)
      | some (i, pkt, rest) => (serve i pkt rest, some (.inl i, mark pkt))) = (q', answer))
    (front : ∀ i pkt rest, found = some (i, pkt, rest) → packets q (.inl i) = pkt :: rest)
    (sending : ∀ pkt, SentFrom latency pkt (now, mark pkt))
    (serves : ∀ i pkt rest, packets (serve i pkt rest) =
      Function.update (packets q) (.inl i) rest) :
    Hands latency now (packets q) (packets q') answer := by
  split at returns
  next =>
    cases returns
    rfl
  next i pkt rest =>
    cases returns
    exact ⟨pkt, rest, front i pkt rest rfl, sending pkt, serves i pkt rest⟩

/-- A deque asks the priority queues, then the queues below them. -/
theorem hands_of_tiers {prioBusy lowerBusy : Prop} [Decidable prioBusy] [Decidable lowerBusy]
    {prio : State × Option (QueueId × Packet)}
    {lower : Option (Lower × Option (QueueId × Packet))} {put : Lower → State}
    {finish : State → State}
    (returns : (if prioBusy then some prio
      else if lowerBusy then lower.map fun served => (finish (put served.1), served.2)
      else some (finish q, none)) = some (q', answer))
    (finished : ∀ q, packets (finish q) = packets q)
    (fromPrio : Hands latency now (packets q) (packets prio.1) prio.2)
    (fromLower : ∀ after answer, lower = some (after, answer) →
      Hands latency now (packets q) (packets (put after)) answer) :
    Hands latency now (packets q) (packets q') answer := by
  split at returns
  next =>
    cases returns
    exact fromPrio
  next =>
    split at returns
    next =>
      obtain ⟨⟨after, served⟩, body, same⟩ := Option.map_eq_some_iff.mp returns
      cases same
      rw [finished]
      exact fromLower after served body
    next =>
      cases returns
      exact finished q

end

end MqEcn.Ns2.StrictPriority

/-! ### PRIO_DWRR -/

namespace MqEcn.Ns2.PrioDwrr

open MqEcn.Ns2.StrictPriority

/-- `PRIO_DWRR` as FIFOs. -/
def reading : Reading Sys Event Config QueueId where
  config := Discipline.config
  clock := Discipline.clock
  fifo := fun s => packets s.q
  classify := fun config p => queueOf config (queueIndex config p)
  latency := fun config => config.toTuning.latency
  accepted := Event.accepted
  sent := Event.sent

section

variable {config : Config} {q q' : PrioDwrrQueue}

private theorem packets_of_contents {i : Fin 64} {content : List Packet}
    (prio : q'.prioQueues = q.prioQueues)
    (dwrr : Dwrr.contents q'.dwrr = Function.update (Dwrr.contents q.dwrr) i content) :
    packets q' = Function.update (packets q) (.inr i) content :=
  elim_of_lower prio dwrr

private theorem packets_pushPrio (i : Fin 8) (p : Packet) (q : PrioDwrrQueue) :
    packets (pushPrio i p q) =
      Function.update (packets q) (.inl i) (packets q (.inl i) ++ [p]) := by
  have prio : (pushPrio i p q).prioQueues = Function.update q.prioQueues i _ := rfl
  exact packets_of_prio prio rfl

private theorem front_of_firstPrio {i : Fin 8} {pkt : Packet} {rest : List Packet}
    (found : firstPrio config q = some (i, pkt, rest)) : packets q (.inl i) = pkt :: rest :=
  (asks_firstPrio q).front_of_findSome found

private theorem packets_of_finished (config : Config) (now : ℚ) (q : PrioDwrrQueue) :
    packets (finishIdle config now q) = packets q :=
  packets_of_same (finishIdle_prioQueues config now q) (sameSchedule_finishIdle config now q)

/-- A packet that is admitted joins its queue. -/
theorem packets_of_admission {now : ℚ} {p : Packet} (admits : admission config now p q = some q') :
    ∃ queue, queueOf config (queueIndex config p) = some queue ∧
      ∃ stored, StoredFrom config.toTuning.latency (now, p) stored ∧
        packets q' = Function.update (packets q) queue (packets q queue ++ [stored]) := by
  apply joined_of_route admits
  · intro i pushed
    exact joined_of_marks pushed (fun _ => storedFrom_of_marks)
      fun stored => packets_pushPrio i stored q
  · intro i activation
    obtain ⟨activated, activates, admitted⟩ := Option.bind_eq_some_iff.mp activation
    apply joined_of_marks admitted (fun _ => storedFrom_of_marks)
    intro stored
    refine packets_of_contents rfl ?_
    show Dwrr.contents (Dwrr.push i stored activated) = _
    rw [Dwrr.contents_push, Dwrr.contents_activate activates]
    rfl

private theorem hands_of_dequePrio (config : Config) (now : ℚ) (q : PrioDwrrQueue) :
    Hands config.toTuning.latency now (packets q) (packets (dequePrio config now q).1)
      (dequePrio config now q).2 :=
  hands_of_found rfl (fun _ _ _ => front_of_firstPrio) (fun _ => sentFrom_ite _ _ _ _ _)
    fun i pkt rest => packets_servePrio config now i pkt rest q

private theorem hands_of_dequeDwrr {now : ℚ} {fuel : Nat} {dwrr : Dwrr.DwrrQueue}
    {answer : Option (QueueId × Packet)}
    (returns : dequeDwrr config now fuel q.dwrr = some (dwrr, answer)) :
    Hands config.toTuning.latency now (packets q) (packets { q with dwrr }) answer := by
  unfold dequeDwrr at returns
  obtain ⟨⟨selected, choice⟩, selects, retired⟩ := Option.bind_eq_some_iff.mp returns
  obtain ⟨after, retires, same⟩ := Option.map_eq_some_iff.mp retired
  cases same
  obtain ⟨before, front⟩ := Dwrr.contents_select selects
  refine ⟨choice.pkt, choice.rest, front, sentFrom_ite _ _ _ _ _, packets_of_contents rfl ?_⟩
  rw [← before]
  exact Dwrr.contents_retire retires

private theorem hands_of_deque {now : ℚ} {fuel : Nat} {answer : Option (QueueId × Packet)}
    (returns : deque config now fuel q = some (q', answer)) :
    Hands config.toTuning.latency now (packets q) (packets q') answer :=
  hands_of_tiers returns (packets_of_finished config now) (hands_of_dequePrio config now q)
    fun _ _ => hands_of_dequeDwrr

end

theorem reading_moves {pow : ℚ → ℚ → ℚ} {s s' : Sys} {event : Event}
    (step : Step pow s event s') : reading.Moves s s' event := by
  cases step with
  | @enque now p q' taken later returns =>
      have same := packets_of_settled pow s.config now s.q
      unfold enque at returns
      simp only at returns
      generalize settle pow s.config now s.q = settled at same returns
      split at returns
      · cases returns
        exact .rest rfl rfl later rfl same
      · obtain ⟨admitted, admits, taken⟩ := Option.map_eq_some_iff.mp returns
        cases taken
        obtain ⟨queue, target, stored, storing, after⟩ := packets_of_admission admits
        rw [same] at after
        exact .accept rfl rfl later rfl rfl target storing after
  | @deque now fuel q' pkt later returns =>
      have hands := hands_of_deque returns
      cases pkt with
      | none => exact .rest rfl rfl later rfl hands
      | some answer =>
          obtain ⟨stored, rest, front, sending, after⟩ := hands
          exact .send rfl rfl later rfl rfl front sending after
  | @command request q' returns =>
      exact .rest rfl rfl le_rfl rfl (packets_of_command returns)
  | timeout later pending => exact .rest rfl rfl later rfl rfl

end MqEcn.Ns2.PrioDwrr

/-! ### PRIO_WFQ -/

namespace MqEcn.Ns2.PrioWfq

open MqEcn.Ns2.StrictPriority

/-- `PRIO_WFQ` as FIFOs. -/
def reading : Reading Sys Event Config QueueId where
  config := Discipline.config
  clock := Discipline.clock
  fifo := fun s => packets s.q
  classify := fun config p => queueOf config (queueIndex config p)
  latency := fun config => config.toConfig.latency
  accepted := Event.accepted
  sent := Event.sent

section

variable {config : Config} {now : ℚ} {q q' : PrioWfqQueue}

private theorem packets_of_contents {i : Fin 64} {content : List Packet}
    (prio : q'.prioQueues = q.prioQueues)
    (wfq : Wfq.contents q'.wfq = Function.update (Wfq.contents q.wfq) i content) :
    packets q' = Function.update (packets q) (.inr i) content :=
  elim_of_lower prio wfq

private theorem packets_pushPrio (i : Fin 8) (p : Packet) (q : PrioWfqQueue) :
    packets (pushPrio i p q) =
      Function.update (packets q) (.inl i) (packets q (.inl i) ++ [p]) := by
  have prio : (pushPrio i p q).prioQueues = Function.update q.prioQueues i _ := rfl
  exact packets_of_prio prio rfl

private theorem front_of_firstPrio {i : Fin 8} {pkt : Packet} {rest : List Packet}
    (found : firstPrio config q = some (i, pkt, rest)) : packets q (.inl i) = pkt :: rest :=
  (asks_firstPrio q).front_of_findSome found

private theorem packets_of_sampled (config : Config) (now : ℚ) (q : PrioWfqQueue) :
    packets (sampleEstimate config now q) = packets q :=
  packets_of_same (sampleEstimate_prioQueues config now q)
    (sameSchedule_sampleEstimate config now q)

/-- A packet that is admitted joins its queue. -/
theorem packets_of_admission {p : Packet} (admits : admission config now p q = some q') :
    ∃ queue, queueOf config (queueIndex config p) = some queue ∧
      ∃ stored, StoredFrom config.toConfig.latency (now, p) stored ∧
        packets q' = Function.update (packets q) queue (packets q queue ++ [stored]) := by
  apply joined_of_route admits
  · intro i pushed
    exact joined_of_marks pushed (fun _ => storedFrom_of_marks)
      fun stored => packets_pushPrio i stored q
  · intro i stamping
    obtain ⟨stamped, stamps, admitted⟩ := Option.bind_eq_some_iff.mp stamping
    apply joined_of_marks admitted (fun _ => storedFrom_of_marks)
    intro stored
    refine packets_of_contents rfl ?_
    show Wfq.contents (Wfq.push i stored stamped) = _
    rw [Wfq.contents_push, Wfq.contents_stamped stamps]
    rfl

private theorem hands_of_dequePrio (config : Config) (now : ℚ) (q : PrioWfqQueue) :
    Hands config.toConfig.latency now (packets q) (packets (dequePrio config now q).1)
      (dequePrio config now q).2 :=
  hands_of_found rfl (fun _ _ _ => front_of_firstPrio) (fun _ => sentFrom_ite _ _ _ _ _)
    fun i pkt rest => packets_servePrio config now i pkt rest q

private theorem hands_of_dequeWfq {wfq : Wfq.WfqQueue} {answer : Option (QueueId × Packet)}
    (returns : dequeWfq config now q.wfq = some (wfq, answer)) :
    Hands config.toConfig.latency now (packets q) (packets { q with wfq }) answer := by
  unfold dequeWfq at returns
  split at returns
  next => cases returns
  next i found =>
    split at returns
    next => cases returns
    next pkt rest front =>
      obtain ⟨after, advances, same⟩ := Option.map_eq_some_iff.mp returns
      cases same
      refine ⟨pkt, rest, front, sentFrom_ite _ _ _ _ _, packets_of_contents rfl ?_⟩
      exact (Wfq.contents_advance advances).trans
        (Wfq.contents_pop config.toConfig now i pkt rest q.wfq)

private theorem hands_of_deque {answer : Option (QueueId × Packet)}
    (returns : deque config now q = some (q', answer)) :
    Hands config.toConfig.latency now (packets q) (packets q') answer :=
  hands_of_tiers returns (packets_of_sampled config now) (hands_of_dequePrio config now q)
    fun _ _ => hands_of_dequeWfq

end

theorem reading_moves {pow : ℚ → ℚ → ℚ} {s s' : Sys} {event : Event}
    (step : Step pow s event s') : reading.Moves s s' event := by
  cases step with
  | @enque now p q' taken later returns =>
      have same := packets_of_settled pow s.config now s.q
      unfold enque at returns
      simp only at returns
      generalize settle pow s.config now s.q = settled at same returns
      split at returns
      · cases returns
        exact .rest rfl rfl later rfl same
      · obtain ⟨admitted, admits, taken⟩ := Option.map_eq_some_iff.mp returns
        cases taken
        obtain ⟨queue, target, stored, storing, after⟩ := packets_of_admission admits
        rw [same] at after
        exact .accept rfl rfl later rfl rfl target storing after
  | @deque now q' pkt later returns =>
      have hands := hands_of_deque returns
      cases pkt with
      | none => exact .rest rfl rfl later rfl hands
      | some answer =>
          obtain ⟨stored, rest, front, sending, after⟩ := hands
          exact .send rfl rfl later rfl rfl front sending after
  | @command request q' returns =>
      exact .rest rfl rfl le_rfl rfl (command_cases returns).1.packets_eq
  | timeout later pending => exact .rest rfl rfl later rfl rfl

end MqEcn.Ns2.PrioWfq
