import MqEcn.Kernel.Dwrr.Loop
import MqEcn.Library.DeficitRoundRobin

/-!
Contract: weighted fairness of `sch_dwrr` in DWRR mode.

Owns: the simulation of the qdisc, seen from one priority, by deficit round robin
over the queues of that priority: a rotation is a turn, a packet is a service, an
activation is a join and an emptied queue leaves. The fairness of two queues that
stay backlogged is that of deficit round robin.

Does not own: the fairness argument itself.
-/

set_option autoImplicit false

namespace MqEcn.Kernel.Dwrr

open MqEcn.Kernel
open MqEcn.Library
open MqEcn.Library.Transition
open MqEcn.Library.Word
open Relation (ReflTransGen)

/-- DWRR mode with the given quanta. -/
def Steady (quantum : Fin 8 → Nat) (s : Sys) : Prop :=
  s.params.value .enableWrr = 0 ∧ ∀ i, s.params.queueQuantum i = quantum i

/-- The bookkeeping the simulation rests on, and the largest stored packet. -/
structure Stable (limit : Nat) (q : DwrrSchedData) : Prop where
  linked : Linked q
  balanced : (view q).Balanced
  stored : StoredWithin limit q

/-- The qdisc seen from priority `prio` is the round robin `ring`: the same queues in
the same order, with the same deficits. -/
structure Tracks (limit : Nat) (prio : Fin 8) (q : DwrrSchedData)
    (ring : DeficitRoundRobin.State (Fin 8)) : Prop where
  stable : Stable limit q
  active : ring.ring = q.active prio
  deficit : ∀ i ∈ q.active prio, ring.deficit i = (q.queues i).deficit

/-- Moves that answer events for the queues that stay linked: they send what the events
take from such a queue, and it does not leave. -/
def Answers (watched : Fin 8 → Prop) (events : List (Event Param))
    (moves : List (DeficitRoundRobin.Move (Fin 8))) : Prop :=
  ∀ k, watched k → DeficitRoundRobin.sent k moves = sentBytes k events ∧ .leave k ∉ moves

private theorem Answers.cons {watched : Fin 8 → Prop} {event : Event Param}
    {events : List (Event Param)} {moves rest : List (DeficitRoundRobin.Move (Fin 8))}
    (head : Answers watched [event] moves) (tail : Answers watched events rest) : Answers watched
    (event :: events) (moves ++ rest) := by
  intro k isWatched
  obtain ⟨headSent, headStays⟩ := head k isWatched
  obtain ⟨tailSent, tailStays⟩ := tail k isWatched
  constructor
  · rw [DeficitRoundRobin.sent_append, headSent, tailSent]
    simp
  · simp [headStays, tailStays]

section

variable {params : Params} {now result : Int} {limit : Nat} {quantum : Fin 8 → Nat}
  {prio other i : Fin 8} {tail : List (Fin 8)} {skb : Skb} {rest : List Skb}
  {q : DwrrSchedData} {ring : DeficitRoundRobin.State (Fin 8)}

/-! ### What stays stable -/

private theorem Stable.rotate (stable : Stable limit q) (head : q.active prio = i :: tail) :
    Stable limit (dwrrRotate params prio i q) where
  linked := stable.linked.rotate head
  balanced := by
    rw [view_rotate]
    exact stable.balanced
  stored := stable.stored.of_view (view_rotate params prio i q)

private theorem Stable.transmit (params : Params) (now result : Int) (stable : Stable limit q)
    (head : q.active prio = i :: tail) (front : (q.queues i).qdisc = skb :: rest) :
    Stable limit (dwrrTransmit params now prio i skb rest result q).1 where
  linked := stable.linked.transmit head front
  balanced := by
    rw [view_transmit]
    exact stable.balanced.depart front (stable.linked.head head).1
  stored := by
    intro k packet member
    rw [dwrrTransmit_qdisc] at member
    split at member
    next same =>
      subst same
      exact stable.stored k packet (by rw [front]; exact List.mem_cons_of_mem _ member)
    next => exact stable.stored k packet member

private theorem Stable.store (params : Params) (now : Int) (prio : Fin 8) (stable : Stable limit q)
    (fits : backlog (q.queues i).qdisc + skb.len ≤ maxBufferBytes) (size : skbSize skb ≤ limit) :
    Stable limit (dwrrAdmit params now i prio skb q) where
  linked := stable.linked.store _ _ _ _ _
  balanced := by
    obtain ⟨marked, sameLen, viewed⟩ := view_admit params now i prio skb q
    rw [viewed]
    apply stable.balanced.enter
    rw [sameLen]
    exact fits
  stored := by
    obtain ⟨marked, sameLen, fifo⟩ := dwrrAdmit_qdisc params now i prio skb q
    intro k packet member
    rw [fifo k, List.mem_append, List.mem_ite_nil_right, List.mem_singleton] at member
    rcases member with old | ⟨_, rfl⟩
    · exact stable.stored k packet old
    · rwa [skbSize_eq_of_len_eq sameLen]

/-! ### Rotations -/

/-- The head of another active list is not a queue of this priority. -/
theorem Linked.head_ne (linked : Linked q) (elsewhere : other ≠ prio)
    (head : q.active other = i :: tail) {k : Fin 8} (member : k ∈ q.active prio) : k ≠ i := by
  intro same
  subst same
  exact elsewhere ((linked.head head).1.symm.trans (linked.mem_iff.mp member).1)

private theorem Tracks.rotate_elsewhere {q' : DwrrSchedData}
    (tracks : Tracks limit prio q ring) (elsewhere : other ≠ prio)
    (rotates : Rotates params other q q') : Tracks limit prio q' ring := by
  cases rotates with
  | @intro i tail skb rest head front blocked =>
      refine ⟨tracks.stable.rotate head, ?_, fun k member => ?_⟩
      · rw [dwrrRotate_active, Function.update_of_ne (Ne.symm elsewhere)]
        exact tracks.active
      · rw [dwrrRotate_active, Function.update_of_ne (Ne.symm elsewhere)] at member
        rw [dwrrRotate_deficit_of_ne _ _ _ (tracks.stable.linked.head_ne elsewhere head member)]
        exact tracks.deficit k member

/-- A rotation of the own active list is a turn. -/
theorem Tracks.rotate_turn {q' : DwrrSchedData} (dwrr : params.value .enableWrr = 0)
    (quanta : ∀ i, params.queueQuantum i = quantum i) (tracks : Tracks limit prio q ring)
    (rotates : Rotates params prio q q') :
    ∃ flow ring', DeficitRoundRobin.Step quantum limit ring (.turn flow) ring' ∧
      Tracks limit prio q' ring' := by
  cases rotates with
  | @intro i tail skb rest head front blocked =>
      have granted := rotate_deficit_exact prio dwrr (by decide)
        (storedWithin_of_balanced tracks.stable.balanced) front blocked
      obtain ⟨flows, deficit⟩ := ring
      obtain rfl : flows = i :: tail := tracks.active.trans head
      have headDeficit : deficit i = (q.queues i).deficit :=
        tracks.deficit i (by simp [head])
      have size := tracks.stable.stored i skb (by simp [front])
      refine ⟨i, _, .turn (by omega), tracks.stable.rotate head, ?_, fun k member => ?_⟩
      · simp [head]
      · rw [granted k]
        unfold grantedDeficit
        by_cases isHead : k = i
        · subst isHead
          simp [headDeficit, quanta k]
        · have before : k ∈ q.active prio := by
            simpa [head, isHead] using member
          have own := tracks.deficit k before
          simpa [isHead] using own

private theorem Tracks.rotations {middle : DwrrSchedData}
    (dwrr : params.value .enableWrr = 0) (quanta : ∀ i, params.queueQuantum i = quantum i)
    (tracks : Tracks limit prio q ring)
    (rotations : ReflTransGen (Rotates params other) q middle) :
    ∃ (flows : List (Fin 8)) (ring' : DeficitRoundRobin.State (Fin 8)),
      Run (DeficitRoundRobin.Step quantum limit) ring (flows.map .turn) ring' ∧
      Tracks limit prio middle ring' := by
  induction rotations with
  | refl => exact ⟨[], ring, .nil ring, tracks⟩
  | tail _ last inductionHypothesis =>
      obtain ⟨flows, before, run, tracked⟩ := inductionHypothesis
      by_cases here : other = prio
      · subst here
        obtain ⟨flow, after, turn, tracked'⟩ := tracked.rotate_turn dwrr quanta last
        refine ⟨flows ++ [flow], after, ?_, tracked'⟩
        rw [List.map_append]
        exact run.append (.single turn)
      · exact ⟨flows, before, run, tracked.rotate_elsewhere here last⟩

private theorem sent_map_turn (k : Fin 8) (flows : List (Fin 8)) :
    DeficitRoundRobin.sent k (flows.map .turn) = 0 := by
  induction flows with
  | nil => rfl
  | cons flow flows inductionHypothesis => exact inductionHypothesis

/-! ### Packets -/

private theorem Tracks.transmit_elsewhere (tracks : Tracks limit prio q ring)
    (elsewhere : other ≠ prio) (head : q.active other = i :: tail)
    (front : (q.queues i).qdisc = skb :: rest) :
    Tracks limit prio (dwrrTransmit params now other i skb rest result q).1 ring := by
  have active : (dwrrTransmit params now other i skb rest result q).1.active prio =
      q.active prio := by
    rw [dwrrTransmit_active]
    split
    · rw [Function.update_of_ne (Ne.symm elsewhere)]
    · rfl
  refine ⟨tracks.stable.transmit params now result head front, by rw [active]; exact tracks.active,
    fun k member => ?_⟩
  rw [active] at member
  rw [dwrrTransmit_deficit_of_ne _ _ _ _ _ _ _
    (tracks.stable.linked.head_ne elsewhere head member)]
  exact tracks.deficit k member

/-- A packet of the own active list is a service, and an emptied queue leaves. -/
theorem Tracks.transmit_serve (fit : DeficitsFit q) (tracks : Tracks limit prio q ring)
    (head : q.active prio = i :: tail) (front : (q.queues i).qdisc = skb :: rest)
    (affordable : skbSize skb ≤ (q.queues i).deficit) :
    ∃ ring', Run (DeficitRoundRobin.Step quantum limit) ring
        (.serve i (skbSize skb) :: if rest = [] then [.leave i] else []) ring' ∧
      Tracks limit prio (dwrrTransmit params now prio i skb rest result q).1 ring' := by
  obtain ⟨flows, deficit⟩ := ring
  obtain rfl : flows = i :: tail := tracks.active.trans head
  have headDeficit : deficit i = (q.queues i).deficit := tracks.deficit i (by simp [head])
  have stable := tracks.stable.transmit params now result head front
  have served : ∀ k ∈ q.active prio,
      Function.update deficit i (deficit i - skbSize skb) k =
        ((dwrrTransmit params now prio i skb rest result q).1.queues k).deficit := by
    intro k member
    by_cases same : k = i
    · subst same
      rw [Function.update_self, dwrrTransmit_deficit, headDeficit,
        u32Sub_of_le (fit k) affordable]
    · rw [Function.update_of_ne same, dwrrTransmit_deficit_of_ne _ _ _ _ _ _ _ same]
      exact tracks.deficit k member
  have serve : DeficitRoundRobin.Step quantum limit ⟨i :: tail, deficit⟩
      (.serve i (skbSize skb)) ⟨i :: tail, Function.update deficit i (deficit i - skbSize skb)⟩ :=
    .serve (by omega)
  by_cases last : rest = []
  · rw [if_pos last]
    refine ⟨_, .cons serve (.single .leave), stable, ?_, fun k member => served k ?_⟩
    · simp [dwrrTransmit_active, last, head]
    · rw [head]
      simp only [dwrrTransmit_active, last, if_true, Function.update_self, head,
        List.erase_cons_head] at member
      exact List.mem_cons_of_mem _ member
  · rw [if_neg last]
    refine ⟨_, .single serve, stable, ?_, fun k member => served k ?_⟩
    · simp [dwrrTransmit_active, last, head]
    · simpa [dwrrTransmit_active, last] using member

/-- The pass that returns is answered by a service where it serves this priority. -/
theorem Tracks.exit {q' : DwrrSchedData} {outcome : Dequeued} (fit : DeficitsFit q)
    (tracks : Tracks limit prio q ring) (exit : Exits params now other q q' outcome) :
    ∃ moves ring', Run (DeficitRoundRobin.Step quantum limit) ring moves ring' ∧
      Tracks limit prio q' ring' ∧
      ∀ k ∈ q.active prio, (q'.queues k).qdisc ≠ [] →
        DeficitRoundRobin.sent k moves = (Event.dequeue now outcome : Event Param).sentFrom k ∧
          .leave k ∉ moves := by
  cases exit with
  | fault | null | throttled =>
      exact ⟨[], ring, .nil ring, tracks, fun k _ _ => ⟨rfl, List.not_mem_nil⟩⟩
  | @packet i tail skb rest head front affordable enough =>
      have size := skbSize_eq_of_len_eq (dwrrTransmit_markedFrom params now other i skb rest
        (tbfSchedule params (skbSize skb) q now) q).len_eq
      by_cases here : other = prio
      · subst here
        obtain ⟨ring', serves, tracked⟩ := tracks.transmit_serve fit head front affordable
        refine ⟨_, ring', serves, tracked, fun k _ nonempty => ⟨?_, ?_⟩⟩
        · have leaves : DeficitRoundRobin.sent k
              (if rest = [] then [DeficitRoundRobin.Move.leave i] else []) = 0 := by
            split <;> rfl
          simp only [Event.sentFrom, size, DeficitRoundRobin.sent, leaves, Nat.add_zero]
        · rw [dwrrTransmit_qdisc] at nonempty
          rw [List.mem_cons, not_or]
          refine ⟨by simp, fun leaves => ?_⟩
          -- a queue that leaves has nothing stored
          split at leaves
          next last =>
            obtain rfl := DeficitRoundRobin.Move.leave.inj (List.mem_singleton.mp leaves)
            exact nonempty (by rw [if_pos rfl, last])
          next => exact List.not_mem_nil leaves
      · refine ⟨[], ring, .nil ring, tracks.transmit_elsewhere here head front,
          fun k member _ => ?_⟩
        have different := tracks.stable.linked.head_ne here head member
        simp only [DeficitRoundRobin.sent, Event.sentFrom, if_neg (Ne.symm different),
          List.not_mem_nil, not_false_eq_true, and_self]

/-! ### Activations -/

/-- A stored packet is a join when it activates a queue of this priority. -/
theorem Tracks.store (quanta : ∀ i, params.queueQuantum i = quantum i)
    (tracks : Tracks limit prio q ring)
    (fits : backlog (q.queues i).qdisc + skb.len ≤ maxBufferBytes) (size : skbSize skb ≤ limit) :
    ∃ (flows : List (Fin 8)) (ring' : DeficitRoundRobin.State (Fin 8)),
      Run (DeficitRoundRobin.Step quantum limit) ring (flows.map .join) ring' ∧
      Tracks limit prio (dwrrAdmit params now i other skb q) ring' := by
  have stable := tracks.stable.store params now other fits size
  by_cases idle : (q.queues i).qdisc = []
  · have absent : ∀ p, i ∉ q.active p := fun p member =>
      (tracks.stable.linked.mem_iff.mp member).2 idle
    by_cases here : other = prio
    · subst here
      obtain ⟨flows, deficit⟩ := ring
      obtain rfl : flows = q.active other := tracks.active
      refine ⟨[i], _, .single (.join (absent other)), stable, ?_, fun k member => ?_⟩
      · simp [dwrrAdmit_active, idle]
      · rw [dwrrAdmit_deficit]
        by_cases same : k = i
        · subst same
          simp [idle, quanta k]
        · have before : k ∈ q.active other := by
            simpa [dwrrAdmit_active, idle, same] using member
          have own := tracks.deficit k before
          simpa [same] using own
    · have active : (dwrrAdmit params now i other skb q).active prio = q.active prio := by
        simp [dwrrAdmit_active, idle, Function.update_of_ne (Ne.symm here)]
      refine ⟨[], ring, .nil ring, stable, by rw [active]; exact tracks.active,
        fun k member => ?_⟩
      rw [active] at member
      rw [dwrrAdmit_deficit, if_neg (fun both : k = i ∧ _ => absent prio (both.1 ▸ member))]
      exact tracks.deficit k member
  · refine ⟨[], ring, .nil ring, stable, ?_, fun k member => ?_⟩
    · simpa [dwrrAdmit_active, idle] using tracks.active
    · rw [dwrrAdmit_deficit, if_neg (fun both : k = i ∧ _ => idle both.2)]
      exact tracks.deficit k (by simpa [dwrrAdmit_active, idle] using member)

private theorem sent_map_join (k : Fin 8) (flows : List (Fin 8)) :
    DeficitRoundRobin.sent k (flows.map .join) = 0 := by
  induction flows with
  | nil => rfl
  | cons flow flows inductionHypothesis => exact inductionHypothesis

end

/-! ### Events -/

/-- The relation one event preserves: the deficits are 32-bit values, the round robin
tracks the qdisc, and the watched queues are linked. -/
structure Relates (limit : Nat) (prio : Fin 8) (watched : Fin 8 → Prop) (s : Sys)
    (ring : DeficitRoundRobin.State (Fin 8)) : Prop where
  fit : DeficitsFit s.q
  tracks : Tracks limit prio s.q ring
  linked : ∀ k, watched k → k ∈ s.q.active prio

section

variable {bfifo : Bfifo} {limit : Nat} {quantum : Fin 8 → Nat} {prio : Fin 8}
  {watched : Fin 8 → Prop} {s s' : Sys} {event : Event Param}
  {ring : DeficitRoundRobin.State (Fin 8)}

/-- Every event is answered by moves of the round robin. -/
theorem Tracks.answer (bounded : bfifo.Bounded) (step : Step bfifo s event s')
    (steady : Steady quantum s) (accepted : event.acceptedSize ≤ limit) (fit : DeficitsFit s.q)
    (tracks : Tracks limit prio s.q ring) (linked : ∀ k, watched k → k ∈ s.q.active prio)
    (stays : ∀ k, watched k → (s'.q.queues k).qdisc ≠ []) :
    ∃ moves ring', Run (DeficitRoundRobin.Step quantum limit) ring moves ring' ∧
      Tracks limit prio s'.q ring' ∧ Answers watched [event] moves := by
  cases step with
  | enqueue later returns =>
      obtain ⟨roundTime, ⟨_, rfl⟩ | ⟨rfl, taken, rfl⟩⟩ := dwrrEnqueue_cases returns
      · exact ⟨[], ring, .nil ring, ⟨⟨tracks.stable.linked, tracks.stable.balanced,
          tracks.stable.stored⟩, tracks.active, tracks.deficit⟩,
          fun k _ => ⟨rfl, List.not_mem_nil⟩⟩
      · have reset : Tracks limit prio { s.q with roundTime } ring :=
          ⟨⟨tracks.stable.linked, tracks.stable.balanced, tracks.stable.stored⟩, tracks.active,
            tracks.deficit⟩
        obtain ⟨flows, ring', run, tracked⟩ := reset.store steady.2 (bounded _ _ taken) accepted
        exact ⟨_, ring', run, tracked, fun k _ => ⟨sent_map_join k flows, by simp⟩⟩
  | @dequeue now fuel q' outcome later returns =>
      rcases dwrrDequeue_cases returns with ⟨_, rfl, rfl⟩ | ⟨other, middle, _, rotations, exit⟩
      · exact ⟨[], ring, .nil ring, tracks, fun k _ => ⟨rfl, List.not_mem_nil⟩⟩
      · obtain ⟨flows, between, turns, rotated⟩ := tracks.rotations steady.1 steady.2 rotations
        obtain ⟨moves, ring', serves, tracked, answers⟩ :=
          rotated.exit (fit.rotations rotations) exit
        refine ⟨_, ring', turns.append serves, tracked, fun k isWatched => ?_⟩
        have member : k ∈ middle.active prio := by
          have same := view_of_rotations rotations
          rw [rotated.stable.linked.mem_iff, prio_of_view same, qdisc_of_view same,
            ← tracks.stable.linked.mem_iff]
          exact linked k isWatched
        obtain ⟨sent, notLeft⟩ := answers k member (stays k isWatched)
        constructor
        · rw [DeficitRoundRobin.sent_append, sent_map_turn, sent, Nat.zero_add]
          rfl
        · simp [notLeft]
  | sysctl => exact ⟨[], ring, .nil ring, tracks, fun k _ => ⟨rfl, List.not_mem_nil⟩⟩
  | change =>
      exact ⟨[], ring, .nil ring, ⟨⟨tracks.stable.linked, tracks.stable.balanced,
        tracks.stable.stored⟩, tracks.active, tracks.deficit⟩,
        fun k _ => ⟨rfl, List.not_mem_nil⟩⟩

private theorem Relates.answer (bounded : bfifo.Bounded) (step : Step bfifo s event s')
    (steady : Steady quantum s) (accepted : event.acceptedSize ≤ limit)
    (relates : Relates limit prio watched s ring)
    (stays : ∀ k, watched k → (s'.q.queues k).qdisc ≠ []) :
    ∃ moves ring', Run (DeficitRoundRobin.Step quantum limit) ring moves ring' ∧
      Relates limit prio watched s' ring' ∧ Answers watched [event] moves := by
  obtain ⟨moves, ring', run, tracked, answers⟩ := relates.tracks.answer bounded step steady accepted
    relates.fit relates.linked stays
  refine ⟨moves, ring', run, ⟨relates.fit.step step, tracked, fun k isWatched => ?_⟩, answers⟩
  have member := relates.linked k isWatched
  rw [← relates.tracks.active] at member
  rw [← tracked.active]
  exact DeficitRoundRobin.mem_run run member (answers k isWatched).2

/-- A run during which the watched queues stay backlogged is a run of the round robin
in which they do not leave and send what was dequeued from them. -/
theorem Relates.run {first last : Sys} {events : List (Event Param)}
    (relates : Relates limit prio watched first ring) (bounded : bfifo.Bounded)
    (run : RunWithin (fun s => Steady quantum s ∧ ∀ k, watched k → (s.q.queues k).qdisc ≠ [])
      (Step bfifo) first events last)
    (accepted : ∀ event ∈ events, event.acceptedSize ≤ limit) :
    ∃ moves ring', Run (DeficitRoundRobin.Step quantum limit) ring moves ring' ∧
      Relates limit prio watched last ring' ∧ Answers watched events moves := by
  apply RunWithin.simulate (DeficitRoundRobin.Step quantum limit) (Relates limit prio watched)
    (fun _ events _ moves => Answers watched events moves) _ Answers.cons run accepted relates
  · intro first last event start before step after small related
    exact related.answer bounded step before.1 small after.2
  · intro state k _
    exact ⟨rfl, List.not_mem_nil⟩

end

/-! ### Fairness -/

/-- A qdisc just created tracks the empty round robin. -/
theorem relates_initial (limit : Nat) (prio : Fin 8) {start : Sys} (fresh : Initial start) :
    Relates limit prio (fun _ => False) start ⟨[], fun _ => 0⟩ := by
  obtain ⟨rate, initial⟩ := fresh
  refine ⟨fun i => ?_, ⟨⟨?_, ?_, ?_⟩, ?_, ?_⟩, fun k isWatched => isWatched.elim⟩
  · simp [initial, dwrrInit, dwrrChange]
  · rw [initial]
    exact linked_dwrrInit _ _
  · rw [initial]
    exact balanced_dwrrInit _ _
  · intro i skb member
    simp [initial, dwrrInit, dwrrChange] at member
  · simp [initial, dwrrInit, dwrrChange]
  · intro i member
    simp [initial, dwrrInit, dwrrChange] at member

/-- The queue holds a packet. -/
def Backlogged (i : Fin 8) (s : Sys) : Prop := (s.q.queues i).qdisc ≠ []

instance (i : Fin 8) (s : Sys) : Decidable (Backlogged i s) :=
  inferInstanceAs (Decidable ((s.q.queues i).qdisc ≠ []))

/-- **Weighted fairness.** In DWRR mode with constant quanta, two queues of one
priority that stay backlogged over an interval of a run are dequeued by byte counts
that, each in its own quanta, differ by at most three and the largest packet of the
run in either quantum, whatever else happens in the interval. -/
theorem dwrr_weighted_fairness {bfifo : Bfifo} (bounded : bfifo.Bounded) {quantum : Fin 8 → Nat}
    {i j : Fin 8} {start first last : Sys} {history interval : List (Event Param)}
    (fresh : Initial start)
    (before : RunWithin (Steady quantum) (Step bfifo) start history first)
    (during : RunWithin (fun s => Steady quantum s ∧ Backlogged i s ∧ Backlogged j s)
      (Step bfifo) first interval last)
    (samePrio : (first.q.queues i).prio = (first.q.queues j).prio) :
    |(sentBytes i interval : ℚ) / quantum i - (sentBytes j interval : ℚ) / quantum j| ≤
      3 + (largestSize (history ++ interval) : ℚ) / quantum i +
        (largestSize (history ++ interval) : ℚ) / quantum j := by
  set limit := largestSize (history ++ interval)
  by_cases different : i = j
  · subst different
    rw [sub_self, abs_zero]
    positivity
  have quanta : ∀ k, 0 < quantum k := fun k => by
    rw [← during.1.1.2 k]
    have range := (first.params.queueQuantum_range k).1
    omega
  -- the history brings the round robin to the start of the interval
  obtain ⟨joined, ring, historyRun, reached, _⟩ :=
    (relates_initial limit (first.q.queues i).prio fresh).run bounded
      (before.mono fun s steady => ⟨steady, fun _ isWatched => isWatched.elim⟩)
      fun event member => acceptedSize_le_largestSize (List.mem_append_left _ member)
  have iMember := reached.tracks.stable.linked.mem_iff.mpr ⟨rfl, during.1.2.1⟩
  have jMember := reached.tracks.stable.linked.mem_iff.mpr ⟨samePrio.symm, during.1.2.2⟩
  have positive : 0 < limit := by
    obtain ⟨skb, inside⟩ := List.exists_mem_of_ne_nil _ during.1.2.1
    have size := (reached.tracks.stable.balanced.stored_size inside).1
    have stored := reached.tracks.stable.stored i skb inside
    omega
  have sound := historyRun.preserves (DeficitRoundRobin.Sound quantum limit)
    (fun step => DeficitRoundRobin.Sound.step positive step)
    ⟨List.nodup_nil, fun _ member => absurd member List.not_mem_nil⟩
  have watching : Relates limit (first.q.queues i).prio (fun k => k = i ∨ k = j) first ring :=
    ⟨reached.fit, reached.tracks, by simpa using ⟨iMember, jMember⟩⟩
  -- the interval is a run of the round robin in which neither queue leaves
  obtain ⟨moves, ring', intervalRun, related, answers⟩ :=
    watching.run bounded
      (during.mono fun s both => ⟨both.1, by simpa [Backlogged] using both.2⟩)
      fun event member => acceptedSize_le_largestSize (List.mem_append_right _ member)
  have sound' := intervalRun.preserves (DeficitRoundRobin.Sound quantum limit)
    (fun step => DeficitRoundRobin.Sound.step positive step) sound
  have iAnswer := answers i (Or.inl rfl)
  have jAnswer := answers j (Or.inr rfl)
  have fair := DeficitRoundRobin.weighted_fairness intervalRun sound sound' different quanta
    (reached.tracks.active ▸ iMember) (related.tracks.active ▸ related.linked i (Or.inl rfl))
    (reached.tracks.active ▸ jMember) (related.tracks.active ▸ related.linked j (Or.inr rfl))
    iAnswer.2 jAnswer.2
  rwa [iAnswer.1, jAnswer.1] at fair

private theorem steady_paramsInit {s : Sys} (initial : s.params = paramsInit) :
    Steady (fun _ => 1538) s := by
  unfold Steady
  rw [initial]
  exact ⟨rfl, by decide⟩

/-- What a dequeue from the loaded qdisc returns. -/
def served : DwrrSchedData × Dequeued :=
  (dwrrDequeue loaded.params 100000 1 loaded.q).getD (loaded.q, .fault)

private theorem served_step :
    Step byteLimit loaded (.dequeue 100000 served.2) ⟨paramsInit, served.1, 100000⟩ :=
  .dequeue (by decide) (rfl : dwrrDequeue loaded.params 100000 1 loaded.q = some served)

/-- The run that takes one frame from the loaded qdisc, with the default quanta. -/
theorem loaded_weighted_fairness :
    |(sentBytes 0 [(.dequeue 100000 served.2 : Event Param)] : ℚ) / (1538 : Nat) -
        (sentBytes 1 [(.dequeue 100000 served.2 : Event Param)] : ℚ) / (1538 : Nat)| ≤
      3 + (largestSize (loadedHistory ++ [.dequeue 100000 served.2]) : ℚ) / (1538 : Nat) +
        (largestSize (loadedHistory ++ [.dequeue 100000 served.2]) : ℚ) / (1538 : Nat) := by
  have enqueued : ∀ {s : Sys} {now : Int} {skb : Skb}, s.params = paramsInit → s.clock ≤ now →
      (dwrrEnqueue byteLimit s.params now skb s.q).2 = .success →
      Within (Steady fun _ => 1538) (Step byteLimit) s (.enqueue now skb .success)
        (s.enqueue now skb) := fun initial later returns =>
    ⟨steady_paramsInit initial, Sys.enqueue_step later returns, steady_paramsInit initial⟩
  have before : RunWithin (Steady fun _ => 1538) (Step byteLimit) idle loadedHistory loaded :=
    ⟨steady_paramsInit rfl, .cons (enqueued rfl (by decide) (by decide))
      (.cons (enqueued rfl (by decide) (by decide))
        (.single (enqueued rfl (by decide) (by decide))))⟩
  have start : Backlogged 0 loaded ∧ Backlogged 1 loaded := ⟨by decide, by decide⟩
  have finish : Backlogged 0 ⟨paramsInit, served.1, 100000⟩ ∧
      Backlogged 1 ⟨paramsInit, served.1, 100000⟩ := ⟨by decide, by decide⟩
  have steady : Steady (fun _ => 1538) loaded := steady_paramsInit rfl
  have during : RunWithin (fun s => Steady (fun _ => 1538) s ∧ Backlogged 0 s ∧ Backlogged 1 s)
      (Step byteLimit) loaded [.dequeue 100000 served.2] ⟨paramsInit, served.1, 100000⟩ :=
    ⟨⟨steady, start⟩, .single ⟨⟨steady, start⟩, served_step, steady_paramsInit rfl, finish⟩⟩
  have samePrio : (loaded.q.queues 0).prio = (loaded.q.queues 1).prio := by decide
  have fresh : Initial idle := ⟨125000000, rfl⟩
  have fair := @dwrr_weighted_fairness byteLimit byteLimit_bounded (fun _ => 1538) 0 1 idle loaded
    _ _ _ fresh before during samePrio
  beta_reduce at fair
  exact fair

end MqEcn.Kernel.Dwrr
