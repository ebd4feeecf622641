import MqEcn.Kernel.PrioDwrr.Bookkeeping
import MqEcn.Library.RingFairness

/-!
Contract: the schedule of the DWRR queues of `sch_prio_dwrr` while no priority queue holds a
packet.

Owns: the port the active list stands for, the action an event stands for, the simulation of
every such run by the runs of the port, and the termination of the dequeue.

Does not own: what the token bucket refuses, and drops.
-/

set_option autoImplicit false

namespace MqEcn.Kernel.PrioDwrr

open MqEcn.Kernel
open MqEcn.Library
open MqEcn.Library.RingSchedule
open MqEcn.Library.Transition
open MqEcn.Library.Word
open Relation (ReflTransGen)

/-- What a queue may send before its turn ends, over unbounded integers. -/
def DwrrClass.due (cl : DwrrClass) : Nat := cl.deficitCounter + if cl.curr then 0 else cl.quantum

/-- The packets of a queue as the port counts them. -/
def sizes (q : PrioDwrrSchedData) (i : Fin 7) : List Nat := (q.dwrrQueues i).qdisc.map skbSize

/-- The active list with what its queues may send. -/
def port (q : PrioDwrrSchedData) : Port Nat :=
  .numbered q.activeList (fun i => (q.dwrrQueues i).due) (sizes q)

/-- What an event stands for; a refused packet, a throttled dequeue and a packet of a priority
queue stand for nothing. -/
def action (params : Params) : Event Param → Option (Action Nat)
  | .enqueue _ skb .success =>
      match queueOf (qdiscClassify params skb) with
      | .inl _ => none
      | .inr i => some (.accept i (skbSize skb))
  | .dequeue _ .null => some (.dequeue none)
  | .dequeue _ (.packet id skb) =>
      match queueOf id with
      | .inl _ => none
      | .inr i => some (.dequeue (some ((i : Nat), skbSize skb)))
  | _ => none

/-- The quantum of a queue by its number. -/
def quanta (params : Params) : Nat → Nat := spread params.queueQuantum

section

variable {params : Params} {i : Fin 7} {now : Int} {q q' : PrioDwrrSchedData}
  {ring : List (Fin 7)}

private theorem DwrrClass.credit_of_due_lt {cl : DwrrClass} (fits : cl.due < 2 ^ 32) :
    cl.credit = cl.due := by
  unfold due at fits ⊢
  unfold credit
  split
  next current => simp
  next fresh =>
    rw [if_neg fresh] at fits
    exact u32_of_lt fits

private theorem DwrrClass.turned_due (now : Int) (quantum : Nat) (cl : DwrrClass) :
    (cl.turned now quantum).due = cl.credit + quantum := rfl

private theorem DwrrClass.sent_due (rate : RateCfg) (now : Int) (skb : Skb) {rest : List Skb}
    (cl : DwrrClass) (last : rest ≠ []) :
    (cl.sent rate now skb rest).due = u32Sub cl.credit (skbSize skb) := by
  unfold sent due
  simp only [last, if_false, if_true, Nat.add_zero]

private theorem DwrrClass.stored_qdisc (now : Int) (quantum : Nat) (marked : Skb) (cl : DwrrClass) :
    (cl.stored now quantum marked).qdisc = cl.qdisc ++ [marked] := by
  unfold stored
  split <;> rfl

private theorem DwrrClass.stored_due (now : Int) (quantum : Nat) (marked : Skb) (cl : DwrrClass) :
    (cl.stored now quantum marked).due = if cl.active then cl.due else quantum := by
  unfold stored
  split
  · rfl
  · exact Nat.zero_add quantum

private theorem sizes_front {skb : Skb} {rest : List Skb}
    (front : (q.dwrrQueues i).qdisc = skb :: rest) :
    sizes q i = skbSize skb :: rest.map skbSize := by
  unfold sizes
  rw [front]
  rfl

/-- Where one queue is replaced, only its packets can change. -/
theorem sizes_update {cl : DwrrClass}
    (queues : q'.dwrrQueues = Function.update q.dwrrQueues i cl) (k : Fin 7) :
    sizes q' k = Function.update (sizes q) i (cl.qdisc.map skbSize) k := by
  unfold sizes
  rw [queues]
  by_cases same : k = i
  · subst same
    rw [Function.update_self, Function.update_self]
  · rw [Function.update_of_ne same, Function.update_of_ne same]

/-- Where one queue is replaced, the others may send what they could before. -/
theorem due_of_ne {cl : DwrrClass} (queues : q'.dwrrQueues = Function.update q.dwrrQueues i cl)
    (k : Fin 7) (other : k ≠ i) : (q'.dwrrQueues k).due = (q.dwrrQueues k).due := by
  rw [queues, Function.update_of_ne other]

/-- Where no DWRR queue holds a packet, none is listed. -/
theorem port_of_empty (scheduled : Scheduled q) (empty : ∀ i, (q.dwrrQueues i).qdisc = []) :
    port q = Port.empty := by
  have unlisted : q.activeList = [] := by
    cases head : q.activeList with
    | nil => rfl
    | cons i ring => exact absurd (empty i) (scheduled.head_busy head)
  unfold port
  rw [unlisted]
  apply Port.numbered_nil
  intro i
  unfold sizes
  rw [empty, List.map_nil]

/-- The packets an action takes are of the seven DWRR queues. -/
theorem action_within {event : Event Param} {act : Action Nat}
    (stands : action params event = some act) : act.operation.Within (· < 7) := by
  unfold action at stands
  split at stands
  · split at stands
    · cases stands
    next i _ =>
      cases stands
      exact i.isLt
  · cases stands
    exact trivial
  · split at stands
    · cases stands
    · cases stands
      exact trivial
  · cases stands

/-- The head is listed once. -/
theorem Scheduled.head_fresh (scheduled : Scheduled q) (head : q.activeList = i :: ring) :
    i ∉ ring := by
  have nodup := scheduled.consistent.nodup
  rw [head] at nodup
  exact (List.nodup_cons.mp nodup).1

/-- What the head of the list may send is what its 32-bit counter says. -/
theorem credit_of_below (below : (port q).Below (2 ^ 32)) (head : q.activeList = i :: ring) :
    (q.dwrrQueues i).credit = (q.dwrrQueues i).due := by
  apply DwrrClass.credit_of_due_lt
  apply below ((i : Nat), (q.dwrrQueues i).due)
  unfold port
  rw [head]
  exact List.mem_cons_self

/-- A rotation is a turn. -/
theorem turns_of_rotates (scheduled : Scheduled q) (below : (port q).Below (2 ^ 32))
    (rotates : Rotates params now q q') : Turns (quanta params) (port q) (port q') := by
  cases rotates with
  | @intro i ring skb rest head front blocked =>
      have credit := credit_of_below below head
      have queues := rotate_dwrrQueues params now i q
      rw [credit] at blocked
      unfold port quanta
      rw [head, rotate_activeList params now head]
      apply turns_numbered (scheduled.head_fresh head) (sizes_front front) blocked
      · exact due_of_ne queues
      · rw [queues, Function.update_self, DwrrClass.turned_due, credit]
      · intro k
        rw [sizes_update queues k]
        show Function.update (sizes q) i (sizes q i) k = sizes q k
        rw [Function.update_eq_self]

private theorem size_le (counted : Counted q) {skb : Skb} (member : skb ∈ (q.dwrrQueues i).qdisc) :
    skbSize skb ≤ 2000024 := by
  rcases counted with ⟨dwrrLenBytes, balanced⟩
  have stored : skb ∈ ((view dwrrLenBytes q).queues (dwrrId i)).fifo := by
    show skb ∈ (account q (dwrrId i)).fifo
    rw [account_dwrrId]
    exact member
  exact (balanced.stored_size stored).2

/-- A packet and a quantum together are far below `2 ^ 32`. -/
theorem size_add_quantum_le (counted : Counted q) (flow size : Nat) (others : List Nat)
    (front : (port q).fifo flow = size :: others) : size + quanta params flow ≤ 2 ^ 32 := by
  have inside : flow < 7 := by
    by_contra outside
    have empty : (port q).fifo flow = [] := by
      show spread (sizes q) flow = []
      unfold spread
      rw [dif_neg outside]
      rfl
    rw [empty] at front
    cases front
  obtain ⟨i, rfl⟩ : ∃ i : Fin 7, (i : Nat) = flow := ⟨⟨flow, inside⟩, rfl⟩
  unfold port at front
  rw [Port.numbered_fifo] at front
  unfold sizes at front
  rcases List.map_eq_cons_iff.mp front with ⟨skb, rest, content, rfl, -⟩
  have small : skbSize skb ≤ 2000024 :=
    size_le (i := i) counted (by rw [content]; exact List.mem_cons_self)
  have bound := (params.queueQuantum_range i).2
  unfold quanta
  rw [spread_val]
  omega

/-- A packet that leaves is sent by the port. -/
theorem sends_of_transmit {skb : Skb} {rest : List Skb} {toks : Int} (scheduled : Scheduled q)
    (below : (port q).Below (2 ^ 32)) (head : q.activeList = i :: ring)
    (front : (q.dwrrQueues i).qdisc = skb :: rest)
    (affordable : skbSize skb ≤ (q.dwrrQueues i).credit) :
    Sends (port q) (some ((i : Nat), skbSize skb))
      (port (transmit params now i skb rest toks (refresh i q)).1) := by
  have credit := credit_of_below below head
  have fits := DwrrClass.credit_lt (scheduled.deficit_lt i)
  have queues := transmit_dwrrQueues params now toks i skb rest q
  have leaves := u32Sub_of_le fits affordable
  rw [credit] at affordable leaves
  have after : (transmit params now i skb rest toks (refresh i q)).1.activeList =
      if rest.map skbSize = [] then ring else i :: ring := by
    rw [transmit_activeList params now toks skb rest head]
    simp only [List.map_eq_nil_iff]
  unfold port
  rw [head, after]
  apply sends_numbered (scheduled.head_fresh head) (sizes_front front) affordable
  · exact due_of_ne queues
  · intro more
    rw [queues, Function.update_self,
      DwrrClass.sent_due _ _ _ _ (mt List.map_eq_nil_iff.mpr more), credit, leaves]
  · exact sizes_update queues

/-- A queue is marked active while the port holds packets of it. -/
theorem active_iff_sizes (scheduled : Scheduled q) (i : Fin 7) :
    (q.dwrrQueues i).active = true ↔ sizes q i ≠ [] := by
  have marks : (q.dwrrQueues i).active = !(q.dwrrQueues i).qdisc.isEmpty :=
    scheduled.consistent.active_eq i
  rw [marks]
  unfold sizes
  simp

/-- A packet that is stored is accepted by the port. -/
theorem accept_of_stored (scheduled : Scheduled q) (skb : Skb) :
    port (dwrrAdmit params now i skb q) = (port q).accept (quanta params) i (skbSize skb) := by
  obtain ⟨marked, sameLen, queues⟩ := dwrrAdmit_dwrrQueues params now i skb q
  have active_iff := active_iff_sizes scheduled i
  have after : (dwrrAdmit params now i skb q).activeList =
      if sizes q i = [] then q.activeList ++ [i] else q.activeList := by
    show (if (q.dwrrQueues i).active then q.activeList else q.activeList ++ [i]) = _
    by_cases active : (q.dwrrQueues i).active = true
    · rw [if_pos active, if_neg (active_iff.mp active)]
    · rw [if_neg active, if_pos (not_not.mp (mt active_iff.mpr active))]
  unfold port quanta
  rw [after]
  apply accept_numbered
  · intro idle member
    have busy : (flags q i).busy = true := (scheduled.consistent.mem_iff i).mp member
    exact active_iff.mp ((scheduled.consistent.active_eq i).trans busy) idle
  · exact due_of_ne queues
  · rw [queues, Function.update_self, DwrrClass.stored_due]
    by_cases active : (q.dwrrQueues i).active = true
    · rw [if_pos active, if_neg (active_iff.mp active)]
    · rw [if_neg active, if_pos (not_not.mp (mt active_iff.mpr active))]
  · intro k
    rw [sizes_update queues k, DwrrClass.stored_qdisc, List.map_append,
      ← skbSize_eq_of_len_eq sameLen]
    rfl

end

/-! ### Termination -/

section

variable {params : Params} {now : Int} {q q' middle : PrioDwrrSchedData}

/-- What the simulation of the loop rests on. -/
structure Steady (q : PrioDwrrSchedData) : Prop where
  scheduled : Scheduled q
  counted : Counted q
  below : (port q).Below (2 ^ 32)

/-- A pass that rotates is a turn, and what it rests on stays. -/
theorem Steady.rotate (steady : Steady q) (rotates : Rotates params now q q') :
    Turns (quanta params) (port q) (port q') ∧ Steady q' := by
  have turns : Turns (quanta params) (port q) (port q') :=
    turns_of_rotates steady.scheduled steady.below rotates
  refine ⟨turns, steady.scheduled.rotations (.single rotates), ?_,
    turns.below steady.below (size_add_quantum_le steady.counted)⟩
  rcases steady.counted with ⟨dwrrLenBytes, balanced⟩
  rw [← view_of_rotations dwrrLenBytes (.single rotates)] at balanced
  exact ⟨dwrrLenBytes, balanced⟩

private theorem Steady.rotations (steady : Steady q)
    (rotations : ReflTransGen (Rotates params now) q middle) :
    ReflTransGen (Turns (quanta params)) (port q) (port middle) ∧ Steady middle := by
  induction rotations with
  | refl => exact ⟨.refl, steady⟩
  | tail _ last inductionHypothesis =>
      rcases inductionHypothesis with ⟨turns, before⟩
      rcases before.rotate last with ⟨turn, after⟩
      exact ⟨turns.tail turn, after⟩

/-- With more fuel than the shortfall of the port the loop returns. -/
theorem dwrrQueuesLoop_returns {fuel : Nat} (steady : Steady q)
    (enough : (port q).shortfall < fuel) :
    ∃ result, dwrrQueuesLoop params now fuel q = some result := by
  induction fuel generalizing q with
  | zero => omega
  | succ fuel inductionHypothesis =>
      rcases dwrrQueuesLoop_succ params now fuel q with
        ⟨last, outcome, found, _⟩ | ⟨next, rotation, continues⟩
      · exact ⟨_, found⟩
      · rcases steady.rotate rotation with ⟨turns, after⟩
        have lower := turns.shortfall_lt (by
          intro entry member
          rcases List.mem_map.mp member with ⟨i, _, rfl⟩
          show 0 < quanta params i
          unfold quanta
          rw [spread_val]
          exact lt_of_lt_of_le (by decide) (params.queueQuantum_range i).1)
        rw [continues]
        exact inductionHypothesis after (by omega)

/-- `prio_dwrr_qdisc_dequeue` returns. -/
theorem qdiscDequeue_returns (params : Params) (now : Int) (steady : Steady q) :
    ∃ fuel result, qdiscDequeue params now fuel q = some result := by
  obtain ⟨result, returns⟩ : ∃ result,
      dwrrQueuesLoop params now ((port q).shortfall + 1) q = some result :=
    dwrrQueuesLoop_returns steady (Nat.lt_succ_self _)
  refine ⟨(port q).shortfall + 1, ?_⟩
  unfold qdiscDequeue dwrrQueuesDequeue
  split
  · exact ⟨_, rfl⟩
  · split
    next active => exact ⟨_, returns⟩
    next => exact ⟨_, rfl⟩

end

/-! ### Events -/

section

variable {bfifo : Bfifo} {params : Params} {s s' : Sys} {event : Event Param}
  {i : Fin 7} {now : Int} {q q' : PrioDwrrSchedData} {ring : List (Fin 7)} {outcome : Dequeued}

/-- Whether an idle port is reset or not, its schedule stays. -/
theorem port_idleReset (params : Params) (now : Int) (q : PrioDwrrSchedData) :
    port (idleReset params now q) = port q := by
  rcases exists_idleReset_eq params now q with ⟨roundTimeNs, quantumSumEstimate, reset⟩
  rw [reset]
  rfl

/-- An enqueue to a DWRR queue, the reset of an idle port included. -/
theorem accept_of_enqueue {q : PrioDwrrSchedData} (now : Int) (scheduled : Scheduled q)
    (below : (port q).Below (2 ^ 32)) (i : Fin 7) (skb : Skb) :
    RingSchedule.Step (quanta params) (port q) (.accept i (skbSize skb))
        (port (dwrrAdmit params now i skb (idleReset params now q))) ∧
      (port (dwrrAdmit params now i skb (idleReset params now q))).Below (2 ^ 32) := by
  have accepts : port (dwrrAdmit params now i skb (idleReset params now q)) =
      (port (idleReset params now q)).accept (quanta params) i (skbSize skb) :=
    accept_of_stored (scheduled.idleReset params now) skb
  have quantum : quanta params i < 2 ^ 32 := by
    have bound := (params.queueQuantum_range i).2
    unfold quanta
    rw [spread_val]
    omega
  rw [accepts, port_idleReset]
  exact ⟨.accept _ _, below.accept (skbSize skb) quantum⟩

/-- A visit that starts grants what was due. -/
theorem port_refresh (below : (port q).Below (2 ^ 32)) (head : q.activeList = i :: ring) :
    port (refresh i q) = port q := by
  have queues := refresh_dwrrQueues i q
  have credits : ∀ k, ((refresh i q).dwrrQueues k).due = (q.dwrrQueues k).due := by
    intro k
    by_cases same : k = i
    · subst same
      rw [refresh_visited, ← credit_of_below below head]
      exact Nat.add_zero _
    · exact due_of_ne queues k same
  have packets : ∀ k, sizes (refresh i q) k = sizes q k := fun k => by
    unfold sizes
    rw [refresh_qdisc]
  unfold port
  rw [refresh_activeList, funext credits, funext packets]

/-- The pass that returns sends the packet it returns, or leaves the port alone. -/
theorem Steady.exits (steady : Steady q) (exit : Exits params now q q' outcome) :
    (port q' = port q ∧ action params (.dequeue now outcome) = none) ∨
      ∃ i skb, outcome = .packet (dwrrId i) skb ∧
        Sends (port q) (some ((i : Nat), skbSize skb)) (port q') := by
  cases exit with
  | fault => exact Or.inl ⟨rfl, rfl⟩
  | null head empty => exact absurd empty (steady.scheduled.head_busy head)
  | throttled head => exact Or.inl ⟨port_refresh steady.below head, rfl⟩
  | @packet i ring skb marked rest head front affordable enough marker =>
      refine Or.inr ⟨i, marked, rfl, ?_⟩
      rw [skbSize_eq_of_len_eq marker.len_eq]
      exact sends_of_transmit steady.scheduled steady.below head front affordable

/-- Every event does to the port what it stands for, or takes turns alone. -/
theorem Steady.answer (bounded : bfifo.Bounded) (steady : Steady s.q)
    (step : Step bfifo s event s') :
    Answer (quanta s.params) (port s.q) (action s.params event) (port s'.q) ∧ Steady s'.q := by
  rcases steady with ⟨scheduled, counted, below⟩
  have after := scheduled.step step
  have count := counted.step bounded step
  -- an event that leaves the port alone
  have silent : port s'.q = port s.q → action s.params event = none →
      Answer (quanta s.params) (port s.q) (action s.params event) (port s'.q) ∧ Steady s'.q := by
    intro same nothing
    refine ⟨?_, after, count, ?_⟩
    · rw [nothing, same]
      exact .turns .refl
    · rw [same]
      exact below
  cases step with
  | @enqueue now skb q' ret later returns =>
      cases qdiscEnqueue_cases returns with
      | refused refuses =>
          apply silent (port_idleReset s.params now s.q)
          cases ret with
          | success => exact absurd rfl refuses
          | drop | cn => rfl
      | prio target accepted =>
          apply silent (port_idleReset s.params now s.q)
          simp only [action, target, queueOf_prioId]
      | @dwrr i target accepted =>
          rcases accept_of_enqueue now scheduled below i skb with ⟨accepts, small⟩
          simp only [action, target, queueOf_dwrrId]
          exact ⟨.action accepts, after, count, small⟩
  | @dequeue now fuel q' outcome later returns =>
      cases qdiscDequeue_cases returns with
      | prio busy ends =>
          cases ends with
          | null nothing => exact absurd nothing (prioQueuesPeek_ne_none counted busy)
          | throttled => exact silent rfl rfl
          | packet =>
              apply silent rfl
              simp only [action, queueOf_prioId]
      | idle _ inactive stays nothing =>
          subst stays nothing
          refine ⟨.action (.dequeue .refl (.idle ?_)), scheduled, counted, below⟩
          unfold port
          rw [inactive]
          rfl
      | @dwrr middle _ active rotations exit =>
          have steady : Steady s.q := ⟨scheduled, counted, below⟩
          rcases steady.rotations rotations with ⟨turns, rotated⟩
          rcases rotated.exits exit with ⟨same, nothing⟩ | ⟨i, skb, rfl, sends⟩
          · rw [nothing]
            show Answer _ _ _ (port q') ∧ _
            rw [same]
            refine ⟨.turns turns, after, count, ?_⟩
            show (port q').Below _
            rw [same]
            exact rotated.below
          · simp only [action, queueOf_dwrrId]
            exact ⟨.action (.dequeue turns sends), after, count, sends.below rotated.below⟩
  | sysctl => exact silent rfl rfl
  | change => exact silent rfl rfl

end

/-! ### Runs -/

/-- What the simulation of the qdisc with the given parameters rests on. -/
structure NoPriority (params : Params) (s : Sys) : Prop where
  params : s.params = params
  steady : Steady s.q
  sumPrioLenBytes : s.q.sumPrioLenBytes = 0

section

variable {bfifo : Bfifo} {params : Params} {s s' : Sys} {event : Event Param}

/-- A state that is reached and holds nothing. -/
theorem NoPriority.of_reachable (bounded : bfifo.Bounded) (reachable : Reachable bfifo s)
    (prioEmpty : ∀ i, (s.q.prioQueues i).qdisc = [])
    (dwrrEmpty : ∀ i, (s.q.dwrrQueues i).qdisc = []) : NoPriority s.params s := by
  have scheduled := scheduled_of_reachable reachable
  have counted := counted_of_reachable bounded reachable
  have bookkeeping := bookkeeping_of_invariants scheduled counted
  refine ⟨rfl, ⟨scheduled, counted, ?_⟩, ?_⟩
  · rw [port_of_empty scheduled dwrrEmpty]
    exact List.forall_mem_nil _
  · rw [bookkeeping.sumPrioLenBytes]
    apply Finset.sum_eq_zero
    intro i _
    rw [bookkeeping.prioLenBytes, prioEmpty]
    rfl

private theorem idleReset_sumPrioLenBytes (params : Params) (now : Int) (q : PrioDwrrSchedData) :
    (idleReset params now q).sumPrioLenBytes = q.sumPrioLenBytes := by
  rcases exists_idleReset_eq params now q with ⟨roundTimeNs, quantumSumEstimate, reset⟩
  rw [reset]

private theorem sumPrioLenBytes_of_rotations {now : Int} {q q' : PrioDwrrSchedData}
    (rotations : ReflTransGen (Rotates params now) q q') :
    q'.sumPrioLenBytes = q.sumPrioLenBytes := by
  induction rotations with
  | refl => rfl
  | tail _ last inductionHypothesis =>
      cases last with
      | @intro i =>
          rw [← inductionHypothesis, refresh_eq]
          rfl

/-- An event that stands for an action does to the port what the action does. -/
theorem NoPriority.step {act : Action Nat} (bounded : bfifo.Bounded)
    (related : NoPriority params s) (step : Step bfifo s event s')
    (stands : action params event = some act) :
    RingSchedule.Step (quanta params) (port s.q) act (port s'.q) ∧ NoPriority params s' := by
  rcases related with ⟨same, steady, idle⟩
  subst same
  rcases steady.answer bounded step with ⟨answers, after⟩
  rw [stands] at answers
  cases answers with
  | action answers =>
      -- no packet enters a priority queue
      cases step with
      | @enqueue now skb q' ret later returns =>
          refine ⟨answers, rfl, after, ?_⟩
          cases qdiscEnqueue_cases returns with
          | refused => exact (idleReset_sumPrioLenBytes s.params now s.q).trans idle
          | prio target =>
              simp only [action, target, queueOf_prioId] at stands
              cases stands
          | dwrr => exact (idleReset_sumPrioLenBytes s.params now s.q).trans idle
      | @dequeue now fuel q' outcome later returns =>
          refine ⟨answers, rfl, after, ?_⟩
          cases qdiscDequeue_cases returns with
          | prio busy => omega
          | idle _ inactive stays nothing =>
              subst stays
              exact idle
          | @dwrr middle _ active rotations exit =>
              rw [← sumPrioLenBytes_of_rotations rotations] at idle
              cases exit with
              | fault => exact idle
              | null | throttled =>
                  rw [refresh_eq]
                  exact idle
              | @packet i ring skb marked rest =>
                  obtain ⟨_, _, keeps, _⟩ :=
                    transmit_counters s.params now (refilled s.params now middle) i skb rest middle
                  exact keeps.trans idle
      | sysctl => cases stands
      | change => cases stands

/-- A run that leaves the priority queues alone is a run of the port. -/
theorem NoPriority.run {last : Sys} {events : List (Event Param)} {actions : List (Action Nat)}
    (bounded : bfifo.Bounded) (related : NoPriority params s)
    (run : Run (Step bfifo) s events last)
    (stand : events.map (action params) = actions.map some) :
    Run (RingSchedule.Step (quanta params)) (port s.q) actions (port last.q) ∧
      NoPriority params last := by
  obtain ⟨finish, abstract, rfl, holds⟩ :=
    Run.refine (fun s shown => shown = port s.q ∧ NoPriority params s)
      (fun step stands related => by
        rcases related with ⟨rfl, holds⟩
        rcases holds.step bounded step stands with ⟨answers, after⟩
        exact ⟨_, answers, rfl, after⟩) run stand ⟨rfl, related⟩
  exact ⟨abstract, holds⟩

end

end MqEcn.Kernel.PrioDwrr
