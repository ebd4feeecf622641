import Mathlib.Logic.Relation
import MqEcn.Kernel.Dwrr.Model
import MqEcn.Kernel.Ledger

/-!
Contract: what each operation of `sch_dwrr` can do, said once.

Owns: the passes and the exits of the dequeue loop and the inversion of both
entry points into them, the view of the qdisc its counters account for, and what
each branch does to the FIFOs, the active lists and the deficits; and the step
relation as a function of the event.

Does not own: the invariants derived from these facts.
-/

set_option autoImplicit false

namespace MqEcn.Kernel.Dwrr

open MqEcn.Kernel
open MqEcn.Library.Word
open Relation (ReflTransGen)

/-! ### Markers -/

theorem dwrrQlenMarking_markedFrom (params : Params) (skb : Skb) (q : DwrrSchedData) (i : Fin 8)
    (cl : DwrrClass) : MarkedFrom skb (dwrrQlenMarking params skb q i cl) := by
  unfold dwrrQlenMarking mqEcnMarking
  split
  · exact markedFrom_ite
  · exact markedFrom_ite
  · exact markedFrom_ite
  · exact Or.inl rfl

private theorem dequeueMarking_markedFrom (params : Params) (now : Int) (skb : Skb)
    (q : DwrrSchedData) (i : Fin 8) (cl : DwrrClass) : MarkedFrom skb
    (dequeueMarking params now skb q i cl).1 := by
  unfold dequeueMarking
  split
  · exact tcnMarking_markedFrom _ _ _
  · split
    · exact codelMarking_markedFrom _ _ _ _ _ _
    · split
      · exact dwrrQlenMarking_markedFrom _ _ _ _ _
      · exact Or.inl rfl

private theorem enqueueMarking_len (params : Params) (now : Int) (skb : Skb) (q : DwrrSchedData)
    (i : Fin 8) (cl : DwrrClass) : (enqueueMarking params now skb q i cl).len = skb.len := by
  unfold enqueueMarking
  split
  · rfl
  · split
    · exact (dwrrQlenMarking_markedFrom _ _ _ _ _).len_eq
    · rfl

/-! ### The dequeue loop -/

/-- One pass of the loop that moves the head of `active[prio]` to the tail. -/
inductive Rotates (params : Params) (prio : Fin 8) : DwrrSchedData → DwrrSchedData → Prop
  | intro {q : DwrrSchedData} {i : Fin 8} {ring : List (Fin 8)} {skb : Skb} {rest : List Skb}
      (head : q.active prio = i :: ring) (front : (q.queues i).qdisc = skb :: rest)
      (blocked : (q.queues i).deficit < skbSize skb) :
      Rotates params prio q (dwrrRotate params prio i q)

/-- The pass that returns. -/
inductive Exits (params : Params) (now : Int) (prio : Fin 8) :
    DwrrSchedData → DwrrSchedData → Dequeued → Prop
  | fault {q : DwrrSchedData} (empty : q.active prio = []) : Exits params now prio q q .fault
  | null {q : DwrrSchedData} {i : Fin 8} {ring : List (Fin 8)}
      (head : q.active prio = i :: ring) (empty : (q.queues i).qdisc = []) :
      Exits params now prio q q .null
  | throttled {q : DwrrSchedData} {i : Fin 8} {ring : List (Fin 8)} {skb : Skb} {rest : List Skb}
      (head : q.active prio = i :: ring) (front : (q.queues i).qdisc = skb :: rest)
      (affordable : skbSize skb ≤ (q.queues i).deficit)
      (short : tbfSchedule params (skbSize skb) q now < 0) :
      Exits params now prio q q (.throttled (now - tbfSchedule params (skbSize skb) q now))
  | packet {q : DwrrSchedData} {i : Fin 8} {ring : List (Fin 8)} {skb : Skb} {rest : List Skb}
      (head : q.active prio = i :: ring) (front : (q.queues i).qdisc = skb :: rest)
      (affordable : skbSize skb ≤ (q.queues i).deficit)
      (enough : 0 ≤ tbfSchedule params (skbSize skb) q now) :
      Exits params now prio q
        (dwrrTransmit params now prio i skb rest (tbfSchedule params (skbSize skb) q now) q).1
        (.packet i
          (dwrrTransmit params now prio i skb rest (tbfSchedule params (skbSize skb) q now) q).2)

/-- A loop that returns has rotated some times and then exited. -/
theorem dwrrDequeueLoop_cases {params : Params} {now : Int} {prio : Fin 8} {fuel : Nat}
    {q q' : DwrrSchedData} {outcome : Dequeued}
    (returns : dwrrDequeueLoop params now prio fuel q = some (q', outcome)) :
    ∃ middle, ReflTransGen (Rotates params prio) q middle ∧
      Exits params now prio middle q' outcome := by
  induction fuel generalizing q with
  | zero => cases returns
  | succ fuel inductionHypothesis =>
      unfold dwrrDequeueLoop at returns
      split at returns
      next empty =>
        cases returns
        exact ⟨_, .refl, .fault empty⟩
      next i ring head =>
        split at returns
        next empty =>
          cases returns
          exact ⟨_, .refl, .null head empty⟩
        next skb rest front =>
          split at returns
          next affordable =>
            simp only at returns
            split at returns
            next short =>
              cases returns
              exact ⟨_, .refl, .throttled head front affordable short⟩
            next enough =>
              cases returns
              exact ⟨_, .refl, .packet head front affordable (by omega)⟩
          next blocked =>
            obtain ⟨middle, rotations, exit⟩ := inductionHypothesis returns
            exact ⟨middle, .head (.intro head front (by omega)) rotations, exit⟩

/-- A loop whose first head packet is affordable does not rotate. -/
theorem eq_of_rotations {params : Params} {prio i : Fin 8} {q middle : DwrrSchedData}
    {ring : List (Fin 8)} {skb : Skb} {rest : List Skb} (head : q.active prio = i :: ring)
    (front : (q.queues i).qdisc = skb :: rest) (affordable : skbSize skb ≤ (q.queues i).deficit)
    (rotations : ReflTransGen (Rotates params prio) q middle) : middle = q := by
  rcases ReflTransGen.cases_head rotations with same | ⟨next, first, _⟩
  · exact same.symm
  · cases first with
    | intro head' front' blocked =>
        rw [head] at head'
        obtain ⟨rfl, _⟩ := List.cons.inj head'
        rw [front] at front'
        obtain ⟨rfl, _⟩ := List.cons.inj front'
        omega

theorem rate_of_rotations {params : Params} {prio : Fin 8} {q middle : DwrrSchedData}
    (rotations : ReflTransGen (Rotates params prio) q middle) : middle.rate = q.rate := by
  induction rotations with
  | refl => rfl
  | tail _ last inductionHypothesis =>
      cases last with
      | intro => exact inductionHypothesis

/-- The two ways through `dwrr_dequeue`. -/
theorem dwrrDequeue_cases {params : Params} {now : Int} {fuel : Nat} {q q' : DwrrSchedData}
    {outcome : Dequeued} (returns : dwrrDequeue params now fuel q = some (q', outcome)) :
    (prioSchedule q = none ∧ q' = q ∧ outcome = .null) ∨
      ∃ prio middle, prioSchedule q = some prio ∧
        ReflTransGen (Rotates params prio) q middle ∧ Exits params now prio middle q' outcome := by
  unfold dwrrDequeue at returns
  split at returns
  next idle =>
    cases returns
    exact Or.inl ⟨idle, rfl, rfl⟩
  next prio selected =>
    obtain ⟨middle, rotations, exit⟩ := dwrrDequeueLoop_cases returns
    exact Or.inr ⟨prio, middle, selected, rotations, exit⟩

/-- `prio_schedule` selects the first non-empty active list. -/
theorem prioSchedule_eq_some {q : DwrrSchedData} {prio : Fin 8}
    (selected : prioSchedule q = some prio) :
    q.active prio ≠ [] ∧ ∀ higher < prio, q.active higher = [] := by
  obtain ⟨nonempty, earlier⟩ := find?_finRange_eq_some selected
  exact ⟨by simpa using nonempty, fun higher lower => by simpa using earlier higher lower⟩

theorem prioSchedule_eq_none {q : DwrrSchedData} (idle : prioSchedule q = none) (prio : Fin 8) :
    q.active prio = [] := by
  simpa using find?_finRange_eq_none idle prio

/-! ### Enqueue -/

/-- Whether an idle priority is reset or not, every field but the round time stays. -/
theorem exists_reset_eq (params : Params) (now : Int) (prio : Fin 8) (q : DwrrSchedData) :
    ∃ roundTime, (if q.prioLenBytes prio = 0 then resetRound params now prio q else q) =
      { q with roundTime } := by
  split
  · exact ⟨_, rfl⟩
  · exact ⟨q.roundTime, rfl⟩

/-- The two ways through `dwrr_enqueue`: the packet is refused, or queue `i` takes
it. In both the round time may have been reset before. -/
theorem dwrrEnqueue_cases {bfifo : Bfifo} {params : Params} {now : Int} {skb : Skb}
    {q q' : DwrrSchedData} {ret : NetXmit}
    (returns : dwrrEnqueue bfifo params now skb q = (q', ret)) :
    ∃ roundTime,
      (ret ≠ .success ∧ q' = { q with roundTime }) ∨
      (ret = .success ∧
        bfifo (q.queues (dwrrClassify params skb)).qdisc skb = .success ∧
        q' = dwrrAdmit params now (dwrrClassify params skb)
          (params.queuePrio (dwrrClassify params skb)) skb { q with roundTime }) := by
  unfold dwrrEnqueue at returns
  simp only at returns
  obtain ⟨roundTime, reset⟩ :=
    exists_reset_eq params now (params.queuePrio (dwrrClassify params skb)) q
  rw [reset] at returns
  refine ⟨roundTime, ?_⟩
  split at returns
  · cases returns
    exact Or.inl ⟨by simp, rfl⟩
  · split at returns
    next accepted =>
      cases returns
      exact Or.inr ⟨rfl, accepted, rfl⟩
    all_goals
      cases returns
      exact Or.inl ⟨by simp, rfl⟩

/-- The return code of an enqueue: the buffer check comes first, then the inner FIFO. -/
theorem dwrrEnqueue_ret {bfifo : Bfifo} {params : Params} {now : Int} {skb : Skb}
    {q q' : DwrrSchedData} {ret : NetXmit}
    (returns : dwrrEnqueue bfifo params now skb q = (q', ret)) :
    ret =
      if dwrrBufferOverfill params (skbSize skb) (dwrrClassify params skb) q then .drop
      else bfifo (q.queues (dwrrClassify params skb)).qdisc skb := by
  obtain ⟨roundTime, reset⟩ :=
    exists_reset_eq params now (params.queuePrio (dwrrClassify params skb)) q
  unfold dwrrEnqueue at returns
  simp only [reset] at returns
  have same : dwrrBufferOverfill params (skbSize skb) (dwrrClassify params skb)
      { q with roundTime } =
        dwrrBufferOverfill params (skbSize skb) (dwrrClassify params skb) q := rfl
  rw [same] at returns
  split at returns
  next overfilled =>
    cases returns
    rw [if_pos overfilled]
  next fits =>
    rw [if_neg fits]
    split at returns
    all_goals
      next code =>
        cases returns
        exact code.symm

/-- What an enqueue does to the round times: the reset of an idle priority, or nothing. -/
theorem dwrrEnqueue_roundTime {bfifo : Bfifo} {params : Params} {now : Int} {skb : Skb}
    {q q' : DwrrSchedData} {ret : NetXmit}
    (returns : dwrrEnqueue bfifo params now skb q = (q', ret)) :
    q'.roundTime =
      (if q.prioLenBytes (params.queuePrio (dwrrClassify params skb)) = 0 then
        resetRound params now (params.queuePrio (dwrrClassify params skb)) q else q).roundTime := by
  unfold dwrrEnqueue at returns
  simp only at returns
  revert returns
  generalize (if q.prioLenBytes (params.queuePrio (dwrrClassify params skb)) = 0 then
    resetRound params now (params.queuePrio (dwrrClassify params skb)) q else q) = settled
  intro returns
  split at returns
  · cases returns
    rfl
  · split at returns
    all_goals
      cases returns
      rfl

/-! ### The view of the counters -/

/-- What the counters of the qdisc account for. -/
def view (q : DwrrSchedData) : Ledger where
  queues := fun i => ⟨(q.queues i).prio, (q.queues i).lenBytes, (q.queues i).qdisc⟩
  prioLenBytes := q.prioLenBytes
  sumLenBytes := q.sumLenBytes
  qlen := q.qlen

@[simp] theorem view_roundTime (q : DwrrSchedData) (roundTime : Fin 8 → Int) :
    view { q with roundTime := roundTime } = view q := rfl

@[simp] theorem view_rotate (params : Params) (prio i : Fin 8) (q : DwrrSchedData) :
    view (dwrrRotate params prio i q) = view q := by
  simp only [view, dwrrRotate, Ledger.mk.injEq, and_true]
  funext other
  by_cases same : other = i
  · subst same
    simp
  · simp [Function.update_of_ne same]

theorem view_transmit (params : Params) (now : Int) (prio i : Fin 8) (skb : Skb)
    (rest : List Skb) (result : Int) (q : DwrrSchedData) :
    view (dwrrTransmit params now prio i skb rest result q).1 =
      (view q).depart prio i skb rest := by
  simp only [view, dwrrTransmit, Ledger.depart, Ledger.mk.injEq, and_true]
  funext other
  by_cases same : other = i
  · subst same
    simp
  · simp [Function.update_of_ne same]

/-- The packet as the FIFO holds it once `dwrr_enqueue` has returned. -/
theorem view_admit (params : Params) (now : Int) (i prio : Fin 8) (skb : Skb)
    (q : DwrrSchedData) :
    ∃ marked, marked.len = skb.len ∧
      view (dwrrAdmit params now i prio skb q) = (view q).enter i prio marked := by
  unfold dwrrAdmit
  simp only
  generalize stored : enqueueMarking params now skb _ i _ = marked
  have sameLen : marked.len = skb.len := by
    rw [← stored]
    exact enqueueMarking_len _ _ _ _ _ _
  have sameSize : skbSize marked = skbSize skb := skbSize_eq_of_len_eq sameLen
  refine ⟨marked, sameLen, ?_⟩
  unfold view Ledger.enter Ledger.entryPrio
  simp only [sameSize, Ledger.mk.injEq, and_true]
  by_cases idle : (q.queues i).qdisc = []
  · simp only [idle, if_true, and_true]
    funext other
    by_cases same : other = i
    · subst same
      simp
    · simp [Function.update_of_ne same]
  · simp only [idle, if_false, and_true]
    funext other
    by_cases same : other = i
    · subst same
      simp
    · simp [Function.update_of_ne same]

/-! ### Rings, FIFOs and deficits -/

theorem dwrrAdmit_prio (params : Params) (now : Int) (i prio : Fin 8) (skb : Skb)
    (q : DwrrSchedData) (k : Fin 8) :
    ((dwrrAdmit params now i prio skb q).queues k).prio =
      if k = i ∧ (q.queues i).qdisc = [] then prio else (q.queues k).prio := by
  obtain ⟨marked, _, viewed⟩ := view_admit params now i prio skb q
  have read := congrArg (fun ledger => (ledger.queues k).prio) viewed
  simp only [view, Ledger.enter, Ledger.entryPrio] at read
  rw [read]
  by_cases same : k = i
  · subst same
    by_cases idle : (q.queues k).qdisc = [] <;> simp [idle]
  · simp [same]

/-- The packet is appended to the FIFO of its queue, marked or not. -/
theorem dwrrAdmit_qdisc (params : Params) (now : Int) (i prio : Fin 8) (skb : Skb)
    (q : DwrrSchedData) :
    ∃ marked, marked.len = skb.len ∧ ∀ k,
      ((dwrrAdmit params now i prio skb q).queues k).qdisc =
        (q.queues k).qdisc ++ if k = i then [marked] else [] := by
  obtain ⟨marked, sameLen, viewed⟩ := view_admit params now i prio skb q
  refine ⟨marked, sameLen, fun k => ?_⟩
  exact (congrArg (fun ledger => (ledger.queues k).fifo) viewed).trans
    (Ledger.enter_fifo _ _ _ _ _)

theorem dwrrAdmit_busy {params : Params} {now : Int} {i prio : Fin 8} {skb : Skb}
    {q : DwrrSchedData} {k : Fin 8} :
    ((dwrrAdmit params now i prio skb q).queues k).qdisc ≠ [] ↔
      k = i ∨ (q.queues k).qdisc ≠ [] := by
  obtain ⟨marked, _, fifo⟩ := dwrrAdmit_qdisc params now i prio skb q
  rw [fifo k]
  by_cases same : k = i
  · simp [same]
  · simp [same]

theorem dwrrAdmit_active (params : Params) (now : Int) (i prio : Fin 8) (skb : Skb)
    (q : DwrrSchedData) :
    (dwrrAdmit params now i prio skb q).active =
      if (q.queues i).qdisc = [] then Function.update q.active prio (q.active prio ++ [i])
      else q.active := rfl

theorem dwrrAdmit_deficit (params : Params) (now : Int) (i prio : Fin 8) (skb : Skb)
    (q : DwrrSchedData) (other : Fin 8) :
    ((dwrrAdmit params now i prio skb q).queues other).deficit =
      if other = i ∧ (q.queues i).qdisc = [] then params.queueQuantum i
      else (q.queues other).deficit := by
  unfold dwrrAdmit
  by_cases same : other = i
  · subst same
    by_cases idle : (q.queues other).qdisc = [] <;> simp [idle]
  · simp [same]

@[simp] theorem dwrrRotate_active (params : Params) (prio i : Fin 8) (q : DwrrSchedData) :
    (dwrrRotate params prio i q).active =
      Function.update q.active prio ((q.active prio).erase i ++ [i]) := rfl

theorem dwrrRotate_deficit_of_ne (params : Params) (prio : Fin 8) {i other : Fin 8}
    (q : DwrrSchedData) (different : other ≠ i) :
    ((dwrrRotate params prio i q).queues other).deficit = (q.queues other).deficit := by
  simp [dwrrRotate, Function.update_of_ne different]

theorem dwrrRotate_deficit (params : Params) (prio i : Fin 8) (q : DwrrSchedData) :
    ((dwrrRotate params prio i q).queues i).deficit =
      if params.value .enableWrr = 1 then params.queueQuantum i
      else u32 ((q.queues i).deficit + params.queueQuantum i) := by
  simp [dwrrRotate]

theorem dwrrTransmit_active (params : Params) (now : Int) (prio i : Fin 8) (skb : Skb)
    (rest : List Skb) (result : Int) (q : DwrrSchedData) :
    (dwrrTransmit params now prio i skb rest result q).1.active =
      if rest = [] then Function.update q.active prio ((q.active prio).erase i)
      else q.active := rfl

theorem dwrrTransmit_deficit_of_ne (params : Params) (now : Int) (prio : Fin 8) {i other : Fin 8}
    (skb : Skb) (rest : List Skb) (result : Int) (q : DwrrSchedData) (different : other ≠ i) :
    ((dwrrTransmit params now prio i skb rest result q).1.queues other).deficit =
      (q.queues other).deficit := by
  simp [dwrrTransmit, Function.update_of_ne different]

theorem dwrrTransmit_deficit (params : Params) (now : Int) (prio i : Fin 8) (skb : Skb)
    (rest : List Skb) (result : Int) (q : DwrrSchedData) :
    ((dwrrTransmit params now prio i skb rest result q).1.queues i).deficit =
      u32Sub (q.queues i).deficit (skbSize skb) := by
  simp [dwrrTransmit]

theorem dwrrTransmit_prio (params : Params) (now : Int) (prio i : Fin 8) (skb : Skb)
    (rest : List Skb) (result : Int) (q : DwrrSchedData) (k : Fin 8) :
    ((dwrrTransmit params now prio i skb rest result q).1.queues k).prio = (q.queues k).prio := by
  by_cases same : k = i
  · subst same
    simp [dwrrTransmit]
  · simp [dwrrTransmit, same]

theorem dwrrTransmit_qdisc (params : Params) (now : Int) (prio i : Fin 8) (skb : Skb)
    (rest : List Skb) (result : Int) (q : DwrrSchedData) (k : Fin 8) :
    ((dwrrTransmit params now prio i skb rest result q).1.queues k).qdisc =
      if k = i then rest else (q.queues k).qdisc :=
  (congrArg (fun ledger => (ledger.queues k).fifo)
    (view_transmit params now prio i skb rest result q)).trans (Ledger.depart_fifo _ _ _ _ _ _)

/-- What is returned is the head of the FIFO, marked or not. -/
theorem dwrrTransmit_markedFrom (params : Params) (now : Int) (prio i : Fin 8) (skb : Skb)
    (rest : List Skb) (result : Int) (q : DwrrSchedData) :
    MarkedFrom skb (dwrrTransmit params now prio i skb rest result q).2 :=
  dequeueMarking_markedFrom _ _ _ _ _ _

/-- A FIFO and a priority read through the view. -/
theorem qdisc_of_view {q q' : DwrrSchedData} (same : view q' = view q) (i : Fin 8) :
    (q'.queues i).qdisc = (q.queues i).qdisc :=
  congrArg (fun ledger => (ledger.queues i).fifo) same

theorem prio_of_view {q q' : DwrrSchedData} (same : view q' = view q) (i : Fin 8) :
    (q'.queues i).prio = (q.queues i).prio :=
  congrArg (fun ledger => (ledger.queues i).prio) same

/-- Rotating changes no counter and no FIFO. -/
theorem view_of_rotations {params : Params} {prio : Fin 8} {q middle : DwrrSchedData}
    (rotations : ReflTransGen (Rotates params prio) q middle) : view middle = view q := by
  induction rotations with
  | refl => rfl
  | tail _ last inductionHypothesis =>
      cases last with
      | intro head front blocked => rw [view_rotate, inductionHypothesis]

/-! ### The step as a function -/

/-- The operations of the module, with `fuel` for the loop of a dequeue. -/
def operations (bfifo : Bfifo) (fuel : Nat) : Operations Params DwrrSchedData Param where
  enqueue := dwrrEnqueue bfifo
  dequeue := fun params now => dwrrDequeue params now fuel
  write := fun params => params.write
  change := dwrrChange

private theorem operations_follow (bfifo : Bfifo) (fuel : Nat) :
    (operations bfifo fuel).Follow (Step bfifo) :=
  ⟨.enqueue, .dequeue, .sysctl, .change⟩

def Sys.next (bfifo : Bfifo) (fuel : Nat) : Sys → Event Param → Option Sys :=
  (operations bfifo fuel).next

theorem Sys.next_sound {bfifo : Bfifo} {fuel : Nat} {s s' : Sys} {event : Event Param}
    (answers : Sys.next bfifo fuel s event = some s') : Step bfifo s event s' :=
  (operations_follow bfifo fuel).next_sound answers

end MqEcn.Kernel.Dwrr
