import MqEcn.Kernel.Ledger
import MqEcn.Kernel.Wfq.Model

/-!
Contract: what each operation of `sch_wfq` can do, said once.

Owns: the inversion of both entry points, the view of the qdisc its counters
account for, what each branch does to the finish times and the virtual times; and the
step relation as a function of the event.

Does not own: the invariants derived from these facts.
-/

set_option autoImplicit false

namespace MqEcn.Kernel.Wfq

open MqEcn.Kernel
open MqEcn.Library.Word

/-! ### Markers -/

theorem wfqQlenMarking_markedFrom (params : Params) (skb : Skb) (q : WfqSchedData) (i : Fin 8)
    (cl : WfqClass) : MarkedFrom skb (wfqQlenMarking params skb q i cl) := by
  unfold wfqQlenMarking
  split
  · exact markedFrom_ite
  · exact markedFrom_ite
  · exact Or.inl rfl

private theorem dequeueMarking_markedFrom (params : Params) (now : Int) (skb : Skb)
    (q : WfqSchedData) (i : Fin 8) (cl : WfqClass) : MarkedFrom skb
    (dequeueMarking params now skb q i cl).1 := by
  unfold dequeueMarking
  split
  · exact tcnMarking_markedFrom _ _ _
  · split
    · exact codelMarking_markedFrom _ _ _ _ _ _
    · split
      · exact wfqQlenMarking_markedFrom _ _ _ _ _
      · exact Or.inl rfl

private theorem enqueueMarking_len (params : Params) (now : Int) (skb : Skb) (q : WfqSchedData)
    (i : Fin 8) (cl : WfqClass) : (enqueueMarking params now skb q i cl).len = skb.len := by
  unfold enqueueMarking
  split
  · rfl
  · split
    · exact (wfqQlenMarking_markedFrom _ _ _ _ _).len_eq
    · rfl

/-! ### Dequeue -/

theorem prioSchedule_eq_some {q : WfqSchedData} {prio : Fin 8}
    (selected : prioSchedule q = some prio) :
    0 < q.prioLenBytes prio ∧ ∀ higher < prio, q.prioLenBytes higher = 0 := by
  obtain ⟨positive, earlier⟩ := find?_finRange_eq_some selected
  exact ⟨by simpa using positive, fun higher lower => by simpa using earlier higher lower⟩

theorem prioSchedule_eq_none {q : WfqSchedData} (idle : prioSchedule q = none) (prio : Fin 8) :
    q.prioLenBytes prio = 0 := by
  simpa using find?_finRange_eq_none idle prio

/-- How a dequeue ends. -/
inductive Exits (params : Params) (now : Int) (q : WfqSchedData) : WfqSchedData → Dequeued → Prop
  | idle (nothing : prioSchedule q = none) : Exits params now q q .null
  | fault {prio : Fin 8} (selected : prioSchedule q = some prio) (missing : scan q prio = none) :
      Exits params now q q .fault
  | null {prio i : Fin 8} (selected : prioSchedule q = some prio) (found : scan q prio = some i)
      (empty : (q.queues i).qdisc = []) : Exits params now q q .null
  | throttled {prio i : Fin 8} {skb : Skb} {rest : List Skb}
      (selected : prioSchedule q = some prio) (found : scan q prio = some i)
      (front : (q.queues i).qdisc = skb :: rest)
      (short : tbfSchedule params (skbSize skb) q now < 0) :
      Exits params now q q (.throttled (now - tbfSchedule params (skbSize skb) q now))
  | packet {prio i : Fin 8} {skb : Skb} {rest : List Skb}
      (selected : prioSchedule q = some prio) (found : scan q prio = some i)
      (front : (q.queues i).qdisc = skb :: rest)
      (enough : 0 ≤ tbfSchedule params (skbSize skb) q now) :
      Exits params now q
        (wfqTransmit params now prio i skb rest (tbfSchedule params (skbSize skb) q now) q).1
        (.packet i
          (wfqTransmit params now prio i skb rest (tbfSchedule params (skbSize skb) q now) q).2)

theorem wfqDequeue_cases {params : Params} {now : Int} {q q' : WfqSchedData} {outcome : Dequeued}
    (returns : wfqDequeue params now q = (q', outcome)) : Exits params now q q' outcome := by
  unfold wfqDequeue at returns
  split at returns
  next nothing =>
    cases returns
    exact .idle nothing
  next prio selected =>
    split at returns
    next missing =>
      cases returns
      exact .fault selected missing
    next i found =>
      split at returns
      next empty =>
        cases returns
        exact .null selected found empty
      next skb rest front =>
        simp only at returns
        split at returns
        next short =>
          cases returns
          exact .throttled selected found front short
        next enough =>
          cases returns
          exact .packet selected found front (by omega)

/-! ### Enqueue -/

/-- A packet is refused, which changes nothing, or its queue takes it. -/
theorem wfqEnqueue_cases {bfifo : Bfifo} {params : Params} {now : Int} {skb : Skb}
    {q q' : WfqSchedData} {ret : NetXmit}
    (returns : wfqEnqueue bfifo params now skb q = (q', ret)) :
    (ret ≠ .success ∧ q' = q) ∨
      (ret = .success ∧ bfifo (q.queues (wfqClassify params skb)).qdisc skb = .success ∧
        q' = wfqAdmit params now (wfqClassify params skb) skb q) := by
  unfold wfqEnqueue at returns
  simp only at returns
  split at returns
  · cases returns
    exact Or.inl ⟨by simp, rfl⟩
  · split at returns
    next accepted =>
      cases returns
      exact Or.inr ⟨rfl, accepted, rfl⟩
    all_goals
      cases returns
      exact Or.inl ⟨by simp, rfl⟩

/-! ### The view of the counters -/

/-- What the counters of the qdisc account for. -/
def view (q : WfqSchedData) : Ledger where
  queues := fun i => ⟨(q.queues i).prio, (q.queues i).lenBytes, (q.queues i).qdisc⟩
  prioLenBytes := q.prioLenBytes
  sumLenBytes := q.sumLenBytes
  qlen := q.qlen

theorem view_transmit (params : Params) (now : Int) (prio i : Fin 8) (skb : Skb)
    (rest : List Skb) (result : Int) (q : WfqSchedData) :
    view (wfqTransmit params now prio i skb rest result q).1 =
      (view q).depart prio i skb rest := by
  simp only [view, wfqTransmit, Ledger.depart, Ledger.mk.injEq, and_true]
  funext other
  by_cases same : other = i
  · subst same
    simp
  · simp [Function.update_of_ne same]

/-- An activation changes the priority and the times, not the counters. -/
theorem wfqActivate_eq (params : Params) (i : Fin 8) (len : Nat) (q : WfqSchedData) :
    wfqActivate params i len q =
      ({ q.queues i with
          prio := params.queuePrio i
          headFinTime :=
            u64 (len / params.queueWeight i + q.virtualTime (params.queuePrio i)) },
        Function.update q.virtualTime (params.queuePrio i)
          (u64 (len / params.queueWeight i + q.virtualTime (params.queuePrio i)))) := by
  unfold wfqActivate
  rw [if_pos (params.queueWeight_range i).1]

theorem view_admit (params : Params) (now : Int) (i : Fin 8) (skb : Skb) (q : WfqSchedData) :
    ∃ marked, marked.len = skb.len ∧
      view (wfqAdmit params now i skb q) = (view q).enter i (params.queuePrio i) marked := by
  unfold wfqAdmit
  simp only [wfqActivate_eq]
  generalize stored : enqueueMarking params now skb _ i _ = marked
  have sameLen : marked.len = skb.len := by
    rw [← stored]
    exact enqueueMarking_len _ _ _ _ _ _
  have sameSize : skbSize marked = skbSize skb := skbSize_eq_of_len_eq sameLen
  refine ⟨marked, sameLen, ?_⟩
  unfold view Ledger.enter Ledger.entryPrio
  simp only [sameSize, Ledger.mk.injEq, and_true]
  by_cases idle : (q.queues i).qdisc = []
  · simp only [idle, if_true, and_true]
    funext other
    by_cases same : other = i
    · subst same
      simp
    · simp [Function.update_of_ne same]
  · simp only [idle, if_false, and_true]
    funext other
    by_cases same : other = i
    · subst same
      simp
    · simp [Function.update_of_ne same]

/-- The packet is appended to the FIFO of its queue, marked or not. -/
theorem wfqAdmit_qdisc (params : Params) (now : Int) (i : Fin 8) (skb : Skb) (q : WfqSchedData) :
    ∃ marked, marked.len = skb.len ∧ ∀ k,
      ((wfqAdmit params now i skb q).queues k).qdisc =
        (q.queues k).qdisc ++ if k = i then [marked] else [] := by
  obtain ⟨marked, sameLen, viewed⟩ := view_admit params now i skb q
  refine ⟨marked, sameLen, fun k => ?_⟩
  exact (congrArg (fun ledger => (ledger.queues k).fifo) viewed).trans
    (Ledger.enter_fifo _ _ _ _ _)

/-- The queues of a priority that hold packets once one is stored in queue `i`. -/
theorem wfqAdmit_busy {params : Params} {now : Int} {i : Fin 8} {skb : Skb} {q : WfqSchedData}
    {prio k : Fin 8} :
    (((wfqAdmit params now i skb q).queues k).prio = prio ∧
        ((wfqAdmit params now i skb q).queues k).qdisc ≠ []) ↔
      (k = i ∧ (q.queues i).qdisc = [] ∧ params.queuePrio i = prio) ∨
        ((q.queues k).prio = prio ∧ (q.queues k).qdisc ≠ []) := by
  obtain ⟨marked, _, viewed⟩ := view_admit params now i skb q
  have prioOf := congrArg (fun ledger => (ledger.queues k).prio) viewed
  have fifoOf := congrArg (fun ledger => (ledger.queues k).fifo) viewed
  simp only [view, Ledger.enter, Ledger.entryPrio] at prioOf fifoOf
  rw [prioOf, fifoOf]
  by_cases same : k = i
  · subst same
    by_cases idle : (q.queues k).qdisc = [] <;> simp [idle]
  · simp [same]

/-! ### Finish times and virtual times -/

theorem wfqAdmit_virtualTime (params : Params) (now : Int) (i : Fin 8) (skb : Skb)
    (q : WfqSchedData) :
    (wfqAdmit params now i skb q).virtualTime =
      if (q.queues i).qdisc = [] then
        Function.update q.virtualTime (params.queuePrio i)
          (u64 (skbSize skb / params.queueWeight i + q.virtualTime (params.queuePrio i)))
      else q.virtualTime := by
  unfold wfqAdmit
  simp only [wfqActivate_eq]
  split <;> rfl

theorem wfqAdmit_headFinTime (params : Params) (now : Int) (i : Fin 8) (skb : Skb)
    (q : WfqSchedData) (other : Fin 8) :
    ((wfqAdmit params now i skb q).queues other).headFinTime =
      if other = i ∧ (q.queues i).qdisc = [] then
        u64 (skbSize skb / params.queueWeight i + q.virtualTime (params.queuePrio i))
      else (q.queues other).headFinTime := by
  unfold wfqAdmit
  simp only [wfqActivate_eq]
  by_cases same : other = i
  · subst same
    by_cases idle : (q.queues other).qdisc = [] <;> simp [idle]
  · simp [same]

theorem wfqTransmit_headFinTime_of_ne (params : Params) (now : Int) (prio : Fin 8)
    {i other : Fin 8} (skb : Skb) (rest : List Skb) (result : Int) (q : WfqSchedData)
    (different : other ≠ i) :
    ((wfqTransmit params now prio i skb rest result q).1.queues other).headFinTime =
      (q.queues other).headFinTime := by
  simp [wfqTransmit, Function.update_of_ne different]

theorem wfqTransmit_virtualTime_of_ne (params : Params) (now : Int) {prio other : Fin 8}
    (i : Fin 8) (skb : Skb) (rest : List Skb) (result : Int) (q : WfqSchedData)
    (different : other ≠ prio) :
    (wfqTransmit params now prio i skb rest result q).1.virtualTime other =
      q.virtualTime other := by
  simp only [wfqTransmit]
  cases nextFinTime params i (u32Sub (q.queues i).lenBytes (skbSize skb))
      (q.queues i).headFinTime rest with
  | none => rfl
  | some time =>
      simp only
      split
      · exact Function.update_of_ne different _ _
      · rfl

/-- A queue that empties keeps its finish time, and the virtual time stays. -/
theorem wfqTransmit_last (params : Params) (now : Int) (prio i : Fin 8) (skb : Skb)
    (result : Int) (q : WfqSchedData) :
    ((wfqTransmit params now prio i skb [] result q).1.queues i).headFinTime =
        (q.queues i).headFinTime ∧
      (wfqTransmit params now prio i skb [] result q).1.virtualTime = q.virtualTime := by
  have none : nextFinTime params i (u32Sub (q.queues i).lenBytes (skbSize skb))
      (q.queues i).headFinTime [] = none := by
    unfold nextFinTime
    split <;> rfl
  simp [wfqTransmit, none]

/-- The next head is stamped by its own size, and the virtual time follows the stamp. -/
theorem wfqTransmit_next (params : Params) (now : Int) (prio i : Fin 8) (skb next : Skb)
    (rest : List Skb) (result : Int) (q : WfqSchedData)
    (positive : 0 < u32Sub (q.queues i).lenBytes (skbSize skb)) :
    ((wfqTransmit params now prio i skb (next :: rest) result q).1.queues i).headFinTime =
        u64 ((q.queues i).headFinTime + skbSize next / params.queueWeight i) ∧
      (wfqTransmit params now prio i skb (next :: rest) result q).1.virtualTime prio =
        if wfqTimeBefore (q.virtualTime prio)
            (u64 ((q.queues i).headFinTime + skbSize next / params.queueWeight i)) then
          u64 ((q.queues i).headFinTime + skbSize next / params.queueWeight i)
        else q.virtualTime prio := by
  have stamp : nextFinTime params i (u32Sub (q.queues i).lenBytes (skbSize skb))
      (q.queues i).headFinTime (next :: rest) =
        some (u64 ((q.queues i).headFinTime + skbSize next / params.queueWeight i)) := by
    unfold nextFinTime
    rw [if_pos positive]
    exact if_pos (params.queueWeight_range i).1.ne'
  constructor
  · simp [wfqTransmit, stamp]
  · simp only [wfqTransmit, stamp]
    split
    · rw [Function.update_self]
    · rfl

/-- What is returned is the head of the FIFO, marked or not. -/
theorem wfqTransmit_markedFrom (params : Params) (now : Int) (prio i : Fin 8) (skb : Skb)
    (rest : List Skb) (result : Int) (q : WfqSchedData) :
    MarkedFrom skb (wfqTransmit params now prio i skb rest result q).2 :=
  dequeueMarking_markedFrom _ _ _ _ _ _

/-! ### The step as a function -/

/-- The operations of the module. -/
def operations (bfifo : Bfifo) : Operations Params WfqSchedData Param where
  enqueue := wfqEnqueue bfifo
  dequeue := fun params now q => some (wfqDequeue params now q)
  write := fun params => params.write
  change := wfqChange

private theorem operations_follow (bfifo : Bfifo) : (operations bfifo).Follow (Step bfifo) :=
  ⟨.enqueue, fun later returns => .dequeue later (Option.some.inj returns), .sysctl, .change⟩

def Sys.next (bfifo : Bfifo) : Sys → Event Param → Option Sys := (operations bfifo).next

theorem Sys.next_sound {bfifo : Bfifo} {s s' : Sys} {event : Event Param}
    (answers : Sys.next bfifo s event = some s') : Step bfifo s event s' :=
  (operations_follow bfifo).next_sound answers

end MqEcn.Kernel.Wfq
