import MqEcn.Ns2.DrainRate
import MqEcn.Ns2.Dwrr.Step
import MqEcn.Ns2.Priority.Model
import MqEcn.Ns2.Wfq.Step
import MqEcn.Ns2.Wrr.Step

/-!
Contract: the departure rates of DWRR, WFQ, WRR and Priority.

Owns: what the operations of each discipline do to the measurements and to the bytes of its
queues, and the bounds on its departure rates.

Does not own: the measurement itself.
-/

set_option autoImplicit false

/-! ### Priority -/

namespace MqEcn.Ns2.Priority

/-- The measurement of the departure rates. -/
def Config.meter (config : Config) : Meter :=
  ⟨config.dqThresh, config.estimateRateAlpha, config.linkCapacity⟩

def gauges (q : PriorityQueue) : Fin 64 → Gauge := fun i =>
  ⟨q.drains i, byteLength (q.queues i)⟩

private theorem gauges_push (i : Fin 64) (p : Packet) (q : PriorityQueue) :
    gauges (push i p q) = Function.update (gauges q) i
      ⟨(gauges q i).drain, (gauges q i).backlog + byteLength [p]⟩ := by
  funext k
  unfold gauges push
  by_cases same : k = i
  · subst same
    simp only [Function.update_self, byteLength_append]
  · simp only [Function.update_of_ne same]

private theorem gauges_pop (config : Config) (now : ℚ) (i : Fin 64) (pkt : Packet)
    (rest : List Packet) (q : PriorityQueue) :
    gauges (pop config now i pkt rest q) = Function.update (gauges q) i
      ⟨config.meter.measure now (byteLength rest) pkt.size (gauges q i).drain,
        byteLength rest⟩ := by
  funext k
  unfold gauges pop
  by_cases same : k = i
  · subst same
    simp only [Function.update_self]
    rfl
  · simp only [Function.update_of_ne same]

private theorem dequeMarking_size (config : Config) (now : ℚ) (pkt : Packet) :
    (dequeMarking config now pkt).size = pkt.size := by
  unfold dequeMarking
  simp only
  split_ifs
  all_goals rfl

private theorem metered : Metered Initial Step (fun s => s.config.meter) (fun s => gauges s.q) where
  fresh fresh i := by rw [fresh]; rfl
  fixed step := by cases step with
    | enque => rfl
    | deque => rfl
  moves {s event s'} step := by
    cases step with
    | @enque now p q' taken later returns =>
        unfold enque at returns
        split at returns
        · cases returns
          exact .rests (Event.silent rfl) rfl
        · obtain ⟨marked, _, same⟩ := Option.map_eq_some_iff.mp returns
          cases same
          exact .joins (Event.silent rfl) (gauges_push _ marked s.q) rfl (Nat.le_add_right _ _)
    | @deque now q' pkt later returns =>
        unfold deque at returns
        split at returns
        next busy =>
          split at returns
          next =>
            cases returns
            exact .rests (Event.silent rfl) rfl
          next i found =>
            split at returns
            next =>
              cases returns
              exact .rests (Event.silent rfl) rfl
            next head rest front =>
              cases returns
              exact .leaves (dequeMarking_size s.config now head) (congrArg byteLength front)
                (gauges_pop s.config now i head rest s.q)
        next idle =>
          cases returns
          exact .rests (Event.silent rfl) rfl

end MqEcn.Ns2.Priority

/-! ### WFQ -/

namespace MqEcn.Ns2.Wfq

/-- The measurement of the departure rates. -/
def Config.meter (config : Config) : Meter :=
  ⟨config.dqThresh, config.estimateRateAlpha, config.linkCapacity⟩

def PacketWfq.gauge (cl : PacketWfq) : Gauge := ⟨cl.drain, byteLength cl.packets⟩

def gauges (q : WfqQueue) : Fin 64 → Gauge := fun i => (q.queues i).gauge

private theorem gauges_update {q q' : WfqQueue} {i : Fin 64} {cl : PacketWfq}
    (queues : q'.queues = Function.update q.queues i cl) :
    gauges q' = Function.update (gauges q) i cl.gauge :=
  gauges_of_replaced PacketWfq.gauge queues

private theorem gauges_pop (config : Config) (now : ℚ) (i : Fin 64) (pkt : Packet)
    (rest : List Packet) (q : WfqQueue) :
    gauges (pop config now i pkt rest q) = Function.update (gauges q) i
      ⟨config.meter.measure now (byteLength rest) pkt.size (gauges q i).drain,
        byteLength rest⟩ := by
  have queues : (pop config now i pkt rest q).queues = Function.update q.queues i _ := rfl
  exact gauges_update queues

private theorem gauges_of_update {q q' : WfqQueue} {i : Fin 64} {cl : PacketWfq}
    (queues : q'.queues = Function.update q.queues i cl) (same : cl.gauge = gauges q i) :
    gauges q' = gauges q :=
  gauges_of_kept PacketWfq.gauge queues same

private theorem gauges_of_same {q q' : WfqQueue} (same : SameSchedule q q') :
    gauges q' = gauges q := by
  unfold gauges
  rw [same.queues]

private theorem gauges_advance {i : Fin 64} {q q' : WfqQueue} (advances : advance i q = some q') :
    gauges q' = gauges q := by
  unfold advance at advances
  simp only at advances
  split at advances
  · cases advances
    exact gauges_of_update rfl rfl
  · split at advances
    · cases advances
      exact gauges_of_update rfl rfl
    · cases advances

private theorem metered (pow : ℚ → ℚ → ℚ) :
    Metered Initial (Step pow) (fun s => s.config.meter) (fun s => gauges s.q) where
  fresh fresh i := by rw [fresh]; rfl
  fixed step := by cases step with
    | enque => rfl
    | deque => rfl
    | command => rfl
    | timeout => rfl
  moves {s event s'} step := by
    cases step with
    | @enque now p q' taken later returns =>
        cases enque_cases returns with
        | drop same => exact .rests (Event.silent rfl) (gauges_of_same same)
        | @activate marked time empty positive size stamp queues currTime weightSum =>
            have none : (gauges s.q (classify s.config p)).backlog = 0 :=
              byteLength_eq_zero_iff.mpr empty
            exact .joins (Event.silent rfl) (gauges_update queues) rfl (none ▸ Nat.zero_le _)
        | @append marked busy size queues currTime weightSum =>
            refine .joins (Event.silent rfl) (gauges_update queues) rfl ?_
            exact (Nat.le_add_right _ _).trans_eq (byteLength_append _ [marked]).symm
    | @deque now q' pkt later returns =>
        unfold deque at returns
        split at returns
        next busy =>
          split at returns
          next => cases returns
          next i found =>
            split at returns
            next => cases returns
            next head rest front =>
              obtain ⟨advanced, advances, same⟩ := Option.map_eq_some_iff.mp returns
              cases same
              refine .leaves (dequeMarking_size s.config now head) (congrArg byteLength front) ?_
              rw [gauges_of_same (sameSchedule_sampleEstimate s.config now advanced),
                gauges_advance advances]
              exact gauges_pop s.config now i head rest s.q
        next idle =>
          cases returns
          exact .rests (Event.silent rfl)
            (gauges_of_same (sameSchedule_sampleEstimate s.config now s.q))
    | @command request q' returns =>
        refine .rests (Event.silent rfl) ?_
        cases request with
        | setWeight queueId weight =>
            obtain ⟨i, _, _, _, rfl⟩ := setWeight_cases returns
            exact gauges_of_update rfl rfl
        | setThresh queueId thresh =>
            obtain ⟨i, _, rfl⟩ := setThresh_cases returns
            exact gauges_of_update rfl rfl
    | timeout later pending => exact .rests (Event.silent rfl) rfl

end MqEcn.Ns2.Wfq

/-! ### WRR -/

namespace MqEcn.Ns2.Wrr

open MqEcn.Ns2.Dwrr (Command)
open MqEcn.Library.Visits

/-- The measurement of the departure rates. -/
def Config.meter (config : Config) : Meter :=
  ⟨config.dqThresh, config.estimateRateAlpha, config.linkCapacity⟩

def PacketWrr.gauge (cl : PacketWrr) : Gauge := ⟨cl.drain, byteLength cl.packets⟩

def gauges (q : WrrQueue) : Fin 64 → Gauge := fun i => (q.queues i).gauge

private theorem gauges_update {q q' : WrrQueue} {i : Fin 64} {cl : PacketWrr}
    (queues : q'.queues = Function.update q.queues i cl) :
    gauges q' = Function.update (gauges q) i cl.gauge :=
  gauges_of_replaced PacketWrr.gauge queues

private theorem gauges_of_update {q q' : WrrQueue} {i : Fin 64} {cl : PacketWrr}
    (queues : q'.queues = Function.update q.queues i cl) (same : cl.gauge = gauges q i) :
    gauges q' = gauges q :=
  gauges_of_kept PacketWrr.gauge queues same

private theorem gauges_resetIdle (pow : ℚ → ℚ → ℚ) (config : Config) (now : ℚ) (q : WrrQueue) :
    gauges (resetIdle pow config now q) = gauges q := by
  funext i
  unfold gauges
  obtain ⟨startTime, same⟩ := resetIdle_queue pow config now q i
  rw [same]
  rfl

private theorem gauges_settle (config : Config) (now : ℚ) (q : WrrQueue) :
    gauges (settle config now q) = gauges q := by
  unfold settle
  split
  · rfl
  · rfl

/-- The visits of a deque measure the packet it sends. -/
theorem Serves.gauges {config : Config} {now : ℚ} {q q' : WrrQueue}
    {visits : List (Visit (Fin 64))} {answer : Fin 64 × Packet}
    (serves : Serves config now q visits q' answer) :
    ∃ head rest, answer.2.size = head.size ∧
      (gauges q answer.1).backlog = byteLength (head :: rest) ∧
      gauges q' = Function.update (gauges q) answer.1
        ⟨config.meter.measure now (byteLength rest) head.size (gauges q answer.1).drain,
          byteLength rest⟩ := by
  induction serves with
  | @sends q pkt rest front enough =>
      refine ⟨pkt, rest, dequeMarking_size config now pkt, congrArg byteLength front, ?_⟩
      rw [gauges_update (serve_queues config now pkt rest q)]
      split
      · rfl
      · rfl
  | @skips q q' visits answer empty later inductionHypothesis =>
      have same : Wrr.gauges (move config now q) = Wrr.gauges q :=
        gauges_of_update (move_queues config now q) rfl
      rw [same] at inductionHypothesis
      exact inductionHypothesis
  | @exhausts q q' visits answer pkt rest front short later inductionHypothesis =>
      have same : Wrr.gauges (exhaust config now (refresh q)) = Wrr.gauges q :=
        gauges_of_update (exhaust_queues config now q) rfl
      rw [same] at inductionHypothesis
      exact inductionHypothesis

private theorem metered (pow : ℚ → ℚ → ℚ) :
    Metered Initial (Step pow) (fun s => s.config.meter) (fun s => gauges s.q) where
  fresh fresh i := by rw [fresh]; rfl
  fixed step := by cases step with
    | enque => rfl
    | deque => rfl
    | command => rfl
  moves {s event s'} step := by
    cases step with
    | @enque now p q' taken later returns =>
        rcases enque_cases returns with ⟨rfl, rfl⟩ | ⟨rfl, marked, size, rfl⟩
        · exact .rests (Event.silent rfl) (gauges_resetIdle pow s.config now s.q)
        · rw [← gauges_resetIdle pow s.config now s.q]
          refine .joins (Event.silent rfl) (gauges_update rfl) rfl ?_
          exact (Nat.le_add_right _ _).trans_eq (byteLength_append _ [marked]).symm
    | @deque now fuel q' pkt later returns =>
        rcases deque_cases returns with
          ⟨rfl, rfl⟩ | ⟨visits, last, answer, busy, serves, rfl, rfl⟩
        · exact .rests (Event.silent rfl) (gauges_settle s.config now s.q)
        · obtain ⟨head, rest, size, backlog, after⟩ := serves.gauges
          refine .leaves size backlog ?_
          rw [gauges_settle]
          exact after
    | @command request q' returns =>
        refine .rests (Event.silent rfl) ?_
        cases request with
        | setQuantum queueId quantum =>
            obtain ⟨positive, i, rfl⟩ := setQuantum_cases returns
            exact gauges_of_update rfl rfl
        | setThresh queueId thresh =>
            obtain ⟨i, rfl⟩ := setThresh_cases returns
            exact gauges_of_update rfl rfl

end MqEcn.Ns2.Wrr

/-! ### DWRR -/

namespace MqEcn.Ns2.Dwrr

open MqEcn.Library.LinkedList

/-- The measurement of the departure rates. -/
def Tuning.meter (tuning : Tuning) : Meter :=
  ⟨tuning.dqThresh, tuning.estimateRateAlpha, tuning.linkCapacity⟩

def PacketDwrr.gauge (cl : PacketDwrr) : Gauge := ⟨cl.drain, byteLength cl.packets⟩

def gauges (q : DwrrQueue) : Fin 64 → Gauge := fun i => (q.queues i).gauge

section

variable {q q' q'' : DwrrQueue} {i : Fin 64}

theorem gauges_update {cl : PacketDwrr} (queues : q'.queues = Function.update q.queues i cl) :
    gauges q' = Function.update (gauges q) i cl.gauge :=
  gauges_of_replaced PacketDwrr.gauge queues

theorem gauges_of_update {cl : PacketDwrr} (queues : q'.queues = Function.update q.queues i cl)
    (same : cl.gauge = gauges q i) : gauges q' = gauges q :=
  gauges_of_kept PacketDwrr.gauge queues same

private theorem gauges_of_same (same : SameSchedule q q') : gauges q' = gauges q := by
  unfold gauges
  rw [same.queues]

private theorem gauges_insertTailList (inserts : insertTailList i q = some q') :
    gauges q' = gauges q := by
  obtain ⟨links, _, rfl⟩ := Option.map_eq_some_iff.mp inserts
  rfl

private theorem gauges_removeHeadList (removes : removeHeadList q = some (i, q')) :
    gauges q' = gauges q := by
  obtain ⟨⟨head, links⟩, _, same⟩ := Option.map_eq_some_iff.mp removes
  cases same
  rfl

private theorem gauges_activate {now : ℚ} (activates : activate now i q = some q') :
    gauges q' = gauges q := by
  unfold activate at activates
  simp only at activates
  split at activates
  · cases activates
    rfl
  · obtain ⟨linked, inserts, rfl⟩ := Option.map_eq_some_iff.mp activates
    exact (gauges_insertTailList inserts).trans (gauges_of_update rfl rfl)

private theorem gauges_push (i : Fin 64) (p : Packet) (q : DwrrQueue) :
    gauges (push i p q) = Function.update (gauges q) i
      ⟨(gauges q i).drain, (gauges q i).backlog + p.size⟩ := by
  have queues : (push i p q).queues = Function.update q.queues i _ := rfl
  have bytes := byteLength_append (q.queues i).packets [p]
  rw [gauges_update queues]
  unfold PacketDwrr.gauge
  rw [bytes]
  rfl

private theorem gauges_admission {config : Config} {now : ℚ} {p : Packet}
    (admits : admission config now p q = some q') :
    ∃ marked : Packet, gauges q' = Function.update (gauges q) (classify config p)
      ⟨(gauges q (classify config p)).drain,
        (gauges q (classify config p)).backlog + marked.size⟩ := by
  unfold admission at admits
  obtain ⟨activated, activates, marks⟩ := Option.bind_eq_some_iff.mp admits
  obtain ⟨marked, _, rfl⟩ := Option.map_eq_some_iff.mp marks
  refine ⟨marked, ?_⟩
  rw [gauges_push, gauges_activate activates]

private theorem gauges_refresh (i : Fin 64) (q : DwrrQueue) : gauges (refresh i q) = gauges q := by
  unfold refresh
  simp only
  split
  · rfl
  · exact gauges_of_update rfl rfl

private theorem gauges_rotate {tuning : Tuning} {now : ℚ}
    (rotates : rotate tuning now q = some q') :
    gauges q' = gauges q := by
  unfold rotate at rotates
  obtain ⟨⟨head, removed⟩, removes, inserts⟩ := Option.bind_eq_some_iff.mp rotates
  rw [gauges_insertTailList inserts, ← gauges_removeHeadList removes]
  exact gauges_of_update rfl rfl

/-- The loop measures nothing up to the packet it finds. -/
theorem gauges_select {tuning : Tuning} {now : ℚ} {fuel : Nat} {choice : Choice}
    (selects : select tuning now fuel q = some (q', choice)) :
    gauges q' = gauges q ∧
      (gauges q choice.queue).backlog = byteLength (choice.pkt :: choice.rest) := by
  induction fuel generalizing q with
  | zero => cases selects
  | succ fuel inductionHypothesis =>
      unfold select at selects
      split at selects
      next => cases selects
      next head first =>
        split at selects
        next => exact inductionHypothesis selects
        next pkt rest front =>
          simp only at selects
          split at selects
          next enough =>
            cases selects
            exact ⟨gauges_refresh head q, congrArg byteLength front⟩
          next short =>
            obtain ⟨rotated, rotates, later⟩ := Option.bind_eq_some_iff.mp selects
            have same := (gauges_rotate rotates).trans (gauges_refresh head q)
            rw [← same]
            exact inductionHypothesis later

private theorem gauges_pop (choice : Choice) (q : DwrrQueue) :
    gauges (pop choice q) = Function.update (gauges q) choice.queue
      ⟨(gauges q choice.queue).drain, byteLength choice.rest⟩ := by
  have queues : (pop choice q).queues = Function.update q.queues choice.queue _ := rfl
  exact gauges_update queues

private theorem gauges_measure (tuning : Tuning) (now : ℚ) (choice : Choice) (q : DwrrQueue) :
    gauges (measure tuning now choice q) = Function.update (gauges q) choice.queue
      ⟨tuning.meter.measure now (gauges q choice.queue).backlog choice.pkt.size
          (gauges q choice.queue).drain, (gauges q choice.queue).backlog⟩ := by
  have queues : (measure tuning now choice q).queues =
      Function.update q.queues choice.queue _ := rfl
  exact gauges_update queues

private theorem gauges_retire {tuning : Tuning} {now : ℚ} {choice : Choice}
    (retires : retire tuning now choice q = some q') : gauges q' = gauges q := by
  unfold retire at retires
  simp only at retires
  split at retires
  · obtain ⟨⟨head, unlinked⟩, removes, retired⟩ := Option.map_eq_some_iff.mp retires
    have queues : q'.queues = Function.update unlinked.queues head
        { unlinked.queues head with
          deficitCounter := 0, active := false, current := false } := by
      rw [← retired]
    have unlinks := gauges_removeHeadList removes
    exact (gauges_of_update queues rfl).trans unlinks
  · cases retires
    rfl

private theorem gauges_serve {config : Config} {now : ℚ} {choice : Choice} {pkt : Packet}
    (serves : serve config now choice q = some (q', pkt)) :
    pkt.size = choice.pkt.size ∧ gauges q' = Function.update (gauges q) choice.queue
      ⟨config.meter.measure now (byteLength choice.rest) choice.pkt.size
          (gauges q choice.queue).drain, byteLength choice.rest⟩ := by
  unfold serve at serves
  obtain ⟨marked, marks, served⟩ := Option.bind_eq_some_iff.mp serves
  obtain ⟨retired, retires, same⟩ := Option.map_eq_some_iff.mp served
  cases same
  refine ⟨(dequeMarking_markedFrom marks).1, ?_⟩
  rw [gauges_retire retires, gauges_measure, gauges_pop, Function.update_idem,
    Function.update_self]

end

private theorem metered (pow : ℚ → ℚ → ℚ) :
    Metered Initial (Step pow) (fun s => s.config.meter) (fun s => gauges s.q) where
  fresh fresh i := by rw [fresh]; rfl
  fixed step := by cases step with
    | enque => rfl
    | deque => rfl
    | command => rfl
    | timeout => rfl
  moves {s event s'} step := by
    cases step with
    | @enque now p q' taken later returns =>
        have same := gauges_of_same ((sameSchedule_startTimer s.config.toTuning s.q).trans
          (sameSchedule_decayIdle pow s.config.toTuning now (totalByteLength s.config s.q = 0)
            (startTimer s.config.toTuning s.q)))
        unfold enque at returns
        simp only at returns
        split at returns
        · cases returns
          exact .rests (Event.silent rfl) same
        · obtain ⟨admitted, admits, taken⟩ := Option.map_eq_some_iff.mp returns
          cases taken
          obtain ⟨marked, after⟩ := gauges_admission admits
          rw [same] at after
          exact .joins (Event.silent rfl) after rfl (Nat.le_add_right _ _)
    | @deque now fuel q' pkt later returns =>
        unfold deque at returns
        obtain ⟨⟨last, answer⟩, found, same⟩ := Option.map_eq_some_iff.mp returns
        cases same
        have finishes := fun idle => gauges_of_same
          (sameSchedule_finish s.config.toTuning now idle last)
        split at found
        next busy =>
          obtain ⟨⟨selected, choice⟩, selects, served⟩ := Option.bind_eq_some_iff.mp found
          obtain ⟨⟨sent, packet⟩, serves, same⟩ := Option.map_eq_some_iff.mp served
          cases same
          obtain ⟨before, backlog⟩ := gauges_select selects
          obtain ⟨size, after⟩ := gauges_serve serves
          refine .leaves size backlog ?_
          rw [finishes, after, before]
        next idle =>
          cases found
          exact .rests (Event.silent rfl) (finishes _)
    | @command request q' returns =>
        refine .rests (Event.silent rfl) ?_
        cases request with
        | setQuantum queueId quantum =>
            obtain ⟨i, _, _, rfl⟩ := exists_setQuantum_eq returns
            exact gauges_of_update rfl rfl
        | setThresh queueId thresh =>
            obtain ⟨i, rfl⟩ := exists_setThresh_eq returns
            exact gauges_of_update rfl rfl
    | timeout later pending => exact .rests (Event.silent rfl) rfl

end MqEcn.Ns2.Dwrr

namespace MqEcn.Ns2

/-- **Departure rates of the disciplines.** -/
theorem departureRates_bounded (pow : ℚ → ℚ → ℚ) :
    RatesBounded Dwrr.Initial (Dwrr.Step pow) (fun s => s.config.meter)
        (fun s => Dwrr.gauges s.q) ∧
      RatesBounded Wfq.Initial (Wfq.Step pow) (fun s => s.config.meter)
        (fun s => Wfq.gauges s.q) ∧
      RatesBounded Wrr.Initial (Wrr.Step pow) (fun s => s.config.meter)
        (fun s => Wrr.gauges s.q) ∧
      RatesBounded Priority.Initial Priority.Step (fun s => s.config.meter)
        (fun s => Priority.gauges s.q) :=
  ⟨(Dwrr.metered pow).ratesBounded, (Wfq.metered pow).ratesBounded,
    (Wrr.metered pow).ratesBounded, Priority.metered.ratesBounded⟩

open MqEcn.Library.Transition
open MqEcn.Ns2.Dwrr (Command fresh segment)

/-- Eight packets of 1500 bytes join queue 0 of DWRR, and seven are sent back to back. -/
def backToBack : List (Event Command) :=
  List.replicate 8 (.enque 0 (segment 0 1500 fullSize_pos) true) ++
    (List.range 7).map fun (sent : Nat) =>
      .deque (sent * 12 / 10000000) (some (0, segment 0 1500 fullSize_pos))

private theorem backToBack_replays :
    (replay (Dwrr.Sys.next wholePow 8) (fun _ => True) fresh backToBack).isSome = true := by
  decide +kernel

def measured : Dwrr.Sys :=
  (replay (Dwrr.Sys.next wholePow 8) (fun _ => True) fresh backToBack).get backToBack_replays

/-- The measurement of queue 0 ends with the seventh packet, at the rate of the link. -/
theorem measured_departureRate :
    (Dwrr.gauges measured.q 0).drain.avgDqRate = 10000000000 ∧
      Rated fresh.config.meter (Dwrr.gauges measured.q 0).drain := by
  have initial : Dwrr.Initial fresh := rfl
  have run := (RunWithin.of_replay_isSome Dwrr.Sys.next_sound backToBack_replays).run
  have valid : fresh.config.meter.Valid :=
    ⟨by decide, by decide +kernel, by decide +kernel, by decide⟩
  have paced : Paced fresh.config.meter none backToBack := by decide +kernel
  have bounds := (departureRates_bounded wholePow).1 initial run valid paced
  exact ⟨by decide +kernel, (bounds.1 0).2⟩

end MqEcn.Ns2
