import Mathlib.Logic.Relation
import MqEcn.Kernel.Ledger
import MqEcn.Kernel.PrioDwrr.Model
import MqEcn.Library.ActiveRing

/-!
Contract: what each operation of `sch_prio_dwrr` can do, said once.

Owns: the two scans of the priority queues, the passes and the exits of the dequeue loop and
the inversion of both entry points into them; the view of the qdisc its counters account for,
the flags of the DWRR queues, and what each branch does to either; and the step relation as a
function of the event.

Does not own: the invariants derived from these facts.
-/

set_option autoImplicit false

namespace MqEcn.Kernel.PrioDwrr

open MqEcn.Kernel
open MqEcn.Library
open MqEcn.Library.Word
open Relation (ReflTransGen)

/-! ### Markers -/

theorem qdiscEcn_markedFrom (skb : Skb) : MarkedFrom skb (qdiscEcn skb) := by
  unfold qdiscEcn
  exact markedFrom_ite

theorem dequeueMarking_markedFrom (params : Params) (now : Int) (skb : Skb)
    (q : PrioDwrrSchedData) : MarkedFrom skb (dequeueMarking params now skb q) := by
  unfold dequeueMarking
  split
  · exact qdiscEcn_markedFrom skb
  · exact Or.inl rfl

theorem ite_qdiscEcn_len (skb : Skb) (condition : Prop) [Decidable condition] :
    (if condition then qdiscEcn skb else skb).len = skb.len := by
  split
  · exact (qdiscEcn_markedFrom skb).len_eq
  · rfl

private theorem prioEnqueueMarking_len (params : Params) (now : Int) (skb : Skb)
    (q : PrioDwrrSchedData) (id : Fin 8) (cl : PrioClass) :
    (prioEnqueueMarking params now skb q id cl).len = skb.len := by
  unfold prioEnqueueMarking
  split
  · exact ite_qdiscEcn_len skb _
  · exact ite_qdiscEcn_len skb _
  · exact ite_qdiscEcn_len skb _
  · exact ite_qdiscEcn_len skb _
  · rfl
  · rfl

private theorem dwrrEnqueueMarking_len (params : Params) (now : Int) (skb : Skb)
    (q : PrioDwrrSchedData) (id : Fin 8) (cl : DwrrClass) :
    (dwrrEnqueueMarking params now skb q id cl).len = skb.len := by
  unfold dwrrEnqueueMarking
  split
  · exact ite_qdiscEcn_len skb _
  · exact ite_qdiscEcn_len skb _
  · exact ite_qdiscEcn_len skb _
  · exact ite_qdiscEcn_len skb _
  · rfl
  · rfl

/-! ### Queue numbers -/

@[simp] theorem queueOf_prioId (i : Fin 1) : queueOf (prioId i) = .inl i := by
  revert i
  decide

@[simp] theorem queueOf_dwrrId (i : Fin 7) : queueOf (dwrrId i) = .inr i := by
  revert i
  decide

theorem dwrrId_ne_prioId (i : Fin 7) (k : Fin 1) : dwrrId i ≠ prioId k := by
  revert i k
  decide

@[simp] theorem dwrrId_inj {i k : Fin 7} : dwrrId i = dwrrId k ↔ i = k := by
  revert i k
  decide

theorem eq_prioId_of_queueOf {id : Fin 8} {i : Fin 1} (target : queueOf id = .inl i) :
    id = prioId i := by
  revert id i
  decide

theorem eq_dwrrId_of_queueOf {id : Fin 8} {i : Fin 7} (target : queueOf id = .inr i) :
    id = dwrrId i := by
  revert id i
  decide

/-- Every `id` is that of a priority queue or of a DWRR queue. -/
theorem forall_ids {holds : Fin 8 → Prop} :
    (∀ id, holds id) ↔ (∀ i, holds (prioId i)) ∧ ∀ i, holds (dwrrId i) := by
  constructor
  · intro all
    exact ⟨fun i => all _, fun i => all _⟩
  · rintro ⟨prio, dwrr⟩ id
    cases target : queueOf id with
    | inl i => exact eq_prioId_of_queueOf target ▸ prio i
    | inr i => exact eq_dwrrId_of_queueOf target ▸ dwrr i

/-! ### The priority queues -/

/-- The packet a scan with `peek` finds is the one a scan with `dequeuePeeked` takes. -/
theorem findSome?_peek {Index Result : Type} {indices : List Index} {fifo : Index → List Skb}
    {peeked : Skb} (found : indices.findSome? (fun i => peek (fifo i)) = some peeked) :
    ∃ i rest, fifo i = peeked :: rest ∧ ∀ answer : Index → Skb × List Skb → Result,
      indices.findSome? (fun i => (dequeuePeeked (fifo i)).map (answer i)) =
        some (answer i (peeked, rest)) := by
  induction indices with
  | nil => cases found
  | cons first others inductionHypothesis =>
      cases content : fifo first with
      | nil =>
          simp only [List.findSome?_cons, content, peek, List.head?_nil] at found
          rcases inductionHypothesis found with ⟨i, rest, front, takes⟩
          refine ⟨i, rest, front, fun answer => ?_⟩
          rw [List.findSome?_cons, content]
          exact takes answer
      | cons skb rest =>
          simp only [List.findSome?_cons, content, peek, List.head?_cons, Option.some.injEq]
            at found
          subst found
          refine ⟨first, rest, content, fun answer => ?_⟩
          rw [List.findSome?_cons, content]
          rfl

/-- The state once `prio_queues_dequeue_peeked` has removed `skb` from queue `i`. -/
def prioTake (i : Fin 1) (skb : Skb) (rest : List Skb) (q : PrioDwrrSchedData) :
    PrioDwrrSchedData :=
  { q with
    prioQueues :=
      Function.update q.prioQueues i
        { qdisc := rest, lenBytes := u32Sub (q.prioQueues i).lenBytes (skbSize skb) } }

/-- What `prio_queues_peek` finds is the head of a queue, and what
`prio_queues_dequeue_peeked` removes. -/
theorem prioQueuesPeek_eq_some {q : PrioDwrrSchedData} {peeked : Skb}
    (found : prioQueuesPeek q = some peeked) :
    ∃ i rest, (q.prioQueues i).qdisc = peeked :: rest ∧
      prioQueuesDequeuePeeked q = some (i, peeked, prioTake i peeked rest q) := by
  unfold prioQueuesPeek at found
  unfold prioQueuesDequeuePeeked
  split at found
  next busy =>
    rcases findSome?_peek found with ⟨i, rest, front, takes⟩
    exact ⟨i, rest, front, (if_pos busy).trans (takes _)⟩
  next => cases found

/-- The state once the packet of priority queue `i` has left. -/
def prioSent (params : Params) (now toks : Int) (i : Fin 1) (skb : Skb) (rest : List Skb)
    (q : PrioDwrrSchedData) : PrioDwrrSchedData :=
  { prioTake i skb rest q with
    timeNs := now
    sumLenBytes := u32Sub q.sumLenBytes (skbSize skb)
    sumPrioLenBytes := u32Sub q.sumPrioLenBytes (skbSize skb)
    qlen := u32Sub q.qlen 1
    tokens := min toks (params.value .bucketNs) }

/-- How a dequeue from the priority queues ends. -/
inductive PrioDequeues (params : Params) (now : Int) (q : PrioDwrrSchedData) :
    PrioDwrrSchedData → Dequeued → Prop
  | null (nothing : prioQueuesPeek q = none) : PrioDequeues params now q q .null
  | throttled {skb : Skb} (found : prioQueuesPeek q = some skb)
      (short : refilled params now q < l2tNs q.rate (skbSize skb)) :
      PrioDequeues params now q q
        (.throttled (now - (refilled params now q - l2tNs q.rate (skbSize skb))))
  | packet {i : Fin 1} {skb marked : Skb} {rest : List Skb} (found : prioQueuesPeek q = some skb)
      (front : (q.prioQueues i).qdisc = skb :: rest)
      (enough : (l2tNs q.rate (skbSize skb) : Int) ≤ refilled params now q)
      (marker : MarkedFrom skb marked) :
      PrioDequeues params now q
        (prioSent params now (refilled params now q - l2tNs q.rate (skbSize skb)) i skb rest q)
        (.packet (prioId i) marked)

private theorem prioQueuesDequeue_cases {params : Params} {now : Int} {q q' : PrioDwrrSchedData}
    {outcome : Dequeued} (returns : prioQueuesDequeue params now q = (q', outcome)) :
    PrioDequeues params now q q' outcome := by
  unfold prioQueuesDequeue at returns
  split at returns
  next nothing =>
    cases returns
    exact .null nothing
  next skb found =>
    rcases prioQueuesPeek_eq_some found with ⟨i, rest, front, takes⟩
    simp only [takes] at returns
    split at returns
    next enough =>
      cases returns
      exact .packet found front (by omega) (dequeueMarking_markedFrom _ _ _ _)
    next short =>
      cases returns
      exact .throttled found (by omega)

/-! ### The DWRR loop -/

/-- What a queue may send before its next turn ends: the quantum of a visit counts as soon as
the visit is due. -/
def DwrrClass.credit (cl : DwrrClass) : Nat :=
  if cl.curr then cl.deficitCounter else u32 (cl.deficitCounter + cl.quantum)

/-- A queue once its visit has started. -/
def DwrrClass.visited (cl : DwrrClass) : DwrrClass :=
  { cl with deficitCounter := cl.credit, curr := true }

theorem refresh_eq (i : Fin 7) (q : PrioDwrrSchedData) :
    refresh i q =
      { q with dwrrQueues := Function.update q.dwrrQueues i (q.dwrrQueues i).visited } := by
  unfold refresh
  simp only
  split
  next current =>
    have same : (q.dwrrQueues i).visited = q.dwrrQueues i := by
      unfold DwrrClass.visited DwrrClass.credit
      rw [if_pos current, ← current]
    rw [same, Function.update_eq_self]
  next due =>
    unfold DwrrClass.visited DwrrClass.credit
    rw [if_neg due]

theorem refresh_dwrrQueues (i : Fin 7) (q : PrioDwrrSchedData) :
    (refresh i q).dwrrQueues = Function.update q.dwrrQueues i (q.dwrrQueues i).visited := by
  rw [refresh_eq]

@[simp] theorem refresh_activeList (i : Fin 7) (q : PrioDwrrSchedData) :
    (refresh i q).activeList = q.activeList := by
  rw [refresh_eq]

@[simp] theorem refresh_quantumSum (i : Fin 7) (q : PrioDwrrSchedData) :
    (refresh i q).quantumSum = q.quantumSum := by
  rw [refresh_eq]

@[simp] theorem refresh_rate (i : Fin 7) (q : PrioDwrrSchedData) :
    (refresh i q).rate = q.rate := by
  rw [refresh_eq]

@[simp] theorem refilled_refresh (params : Params) (now : Int) (i : Fin 7)
    (q : PrioDwrrSchedData) : refilled params now (refresh i q) = refilled params now q := by
  rw [refresh_eq]
  rfl

theorem refresh_visited (i : Fin 7) (q : PrioDwrrSchedData) :
    (refresh i q).dwrrQueues i = (q.dwrrQueues i).visited := by
  rw [refresh_dwrrQueues, Function.update_self]

theorem refresh_qdisc (i k : Fin 7) (q : PrioDwrrSchedData) :
    ((refresh i q).dwrrQueues k).qdisc = (q.dwrrQueues k).qdisc := by
  rw [refresh_dwrrQueues]
  by_cases same : k = i
  · subst same
    rw [Function.update_self]
    rfl
  · rw [Function.update_of_ne same]

/-- One pass of the loop that moves the head of `activeList` to the tail. -/
inductive Rotates (params : Params) (now : Int) : PrioDwrrSchedData → PrioDwrrSchedData → Prop
  | intro {q : PrioDwrrSchedData} {i : Fin 7} {ring : List (Fin 7)} {skb : Skb}
      {rest : List Skb} (head : q.activeList = i :: ring)
      (front : (q.dwrrQueues i).qdisc = skb :: rest)
      (blocked : (q.dwrrQueues i).credit < skbSize skb) :
      Rotates params now q (rotate params now i (refresh i q))

/-- The pass that returns. -/
inductive Exits (params : Params) (now : Int) :
    PrioDwrrSchedData → PrioDwrrSchedData → Dequeued → Prop
  | fault {q : PrioDwrrSchedData} (empty : q.activeList = []) : Exits params now q q .fault
  | null {q : PrioDwrrSchedData} {i : Fin 7} {ring : List (Fin 7)}
      (head : q.activeList = i :: ring) (empty : (q.dwrrQueues i).qdisc = []) :
      Exits params now q (refresh i q) .null
  | throttled {q : PrioDwrrSchedData} {i : Fin 7} {ring : List (Fin 7)} {skb : Skb}
      {rest : List Skb} (head : q.activeList = i :: ring)
      (front : (q.dwrrQueues i).qdisc = skb :: rest)
      (affordable : skbSize skb ≤ (q.dwrrQueues i).credit)
      (short : refilled params now q ≤ l2tNs q.rate (skbSize skb)) :
      Exits params now q (refresh i q)
        (.throttled (now + l2tNs q.rate (skbSize skb) - refilled params now q))
  | packet {q : PrioDwrrSchedData} {i : Fin 7} {ring : List (Fin 7)} {skb marked : Skb}
      {rest : List Skb} (head : q.activeList = i :: ring)
      (front : (q.dwrrQueues i).qdisc = skb :: rest)
      (affordable : skbSize skb ≤ (q.dwrrQueues i).credit)
      (enough : (l2tNs q.rate (skbSize skb) : Int) < refilled params now q)
      (marker : MarkedFrom skb marked) :
      Exits params now q
        (transmit params now i skb rest (refilled params now q) (refresh i q)).1
        (.packet (dwrrId i) marked)

/-- One pass of the loop: it exits, or it rotates and goes on. -/
theorem dwrrQueuesLoop_succ (params : Params) (now : Int) (fuel : Nat) (q : PrioDwrrSchedData) :
    (∃ q' outcome, dwrrQueuesLoop params now (fuel + 1) q = some (q', outcome) ∧
        Exits params now q q' outcome) ∨
      ∃ next, Rotates params now q next ∧
        dwrrQueuesLoop params now (fuel + 1) q = dwrrQueuesLoop params now fuel next := by
  simp only [dwrrQueuesLoop]
  cases head : q.activeList with
  | nil => exact Or.inl ⟨q, .fault, rfl, .fault head⟩
  | cons i ring =>
      simp only [refresh_qdisc]
      cases front : (q.dwrrQueues i).qdisc with
      | nil => exact Or.inl ⟨refresh i q, .null, rfl, .null head front⟩
      | cons skb rest =>
          simp only [peek, List.head?_cons, dequeuePeeked, refresh_visited, refilled_refresh,
            refresh_rate]
          by_cases affordable : skbSize skb ≤ (q.dwrrQueues i).credit
          · rw [if_pos (show skbSize skb ≤ (q.dwrrQueues i).visited.deficitCounter from affordable)]
            by_cases enough : (l2tNs q.rate (skbSize skb) : Int) < refilled params now q
            · rw [if_pos enough]
              exact Or.inl ⟨_, _, rfl,
                .packet head front affordable enough (dequeueMarking_markedFrom _ _ _ _)⟩
            · rw [if_neg enough]
              exact Or.inl ⟨_, _, rfl, .throttled head front affordable (by omega)⟩
          · rw [if_neg
              (show ¬skbSize skb ≤ (q.dwrrQueues i).visited.deficitCounter from affordable)]
            exact Or.inr ⟨_, .intro head front (by omega), rfl⟩

/-- A loop that returns has rotated some times and then exited. -/
theorem dwrrQueuesLoop_cases {params : Params} {now : Int} {fuel : Nat}
    {q q' : PrioDwrrSchedData} {outcome : Dequeued}
    (returns : dwrrQueuesLoop params now fuel q = some (q', outcome)) :
    ∃ middle, ReflTransGen (Rotates params now) q middle ∧ Exits params now middle q' outcome := by
  induction fuel generalizing q with
  | zero => cases returns
  | succ fuel inductionHypothesis =>
      rcases dwrrQueuesLoop_succ params now fuel q with
        ⟨last, answer, found, exit⟩ | ⟨next, rotation, continues⟩
      · rw [found] at returns
        cases returns
        exact ⟨q, .refl, exit⟩
      · rw [continues] at returns
        rcases inductionHypothesis returns with ⟨middle, rotations, exit⟩
        exact ⟨middle, .head rotation rotations, exit⟩

/-- How a dequeue ends. -/
inductive Dequeues (params : Params) (now : Int) (q q' : PrioDwrrSchedData) (outcome : Dequeued) :
    Prop
  | prio (busy : 0 < q.sumPrioLenBytes) (ends : PrioDequeues params now q q' outcome)
  | dwrr {middle : PrioDwrrSchedData} (idle : q.sumPrioLenBytes = 0) (active : q.activeList ≠ [])
      (rotations : ReflTransGen (Rotates params now) q middle)
      (exit : Exits params now middle q' outcome)
  | idle (idle : q.sumPrioLenBytes = 0) (inactive : q.activeList = []) (stays : q' = q)
      (nothing : outcome = .null)

theorem qdiscDequeue_cases {params : Params} {now : Int} {fuel : Nat} {q q' : PrioDwrrSchedData}
    {outcome : Dequeued} (returns : qdiscDequeue params now fuel q = some (q', outcome)) :
    Dequeues params now q q' outcome := by
  unfold qdiscDequeue at returns
  split at returns
  next busy => exact .prio busy (prioQueuesDequeue_cases (Option.some.inj returns))
  next idle =>
    split at returns
    next active =>
      unfold dwrrQueuesDequeue at returns
      rw [if_neg active] at returns
      rcases dwrrQueuesLoop_cases returns with ⟨middle, rotations, exit⟩
      exact .dwrr (by omega) active rotations exit
    next inactive =>
      cases returns
      exact .idle (by omega) (not_ne_iff.mp inactive) rfl rfl

/-! ### Enqueue -/

/-- Whether an idle port is reset or not, every field but the two estimates stays. -/
theorem exists_idleReset_eq (params : Params) (now : Int) (q : PrioDwrrSchedData) :
    ∃ roundTimeNs quantumSumEstimate,
      idleReset params now q = { q with roundTimeNs, quantumSumEstimate } := by
  unfold idleReset
  simp only
  split_ifs
  · exact ⟨_, _, rfl⟩
  · exact ⟨_, _, rfl⟩
  · exact ⟨q.roundTimeNs, q.quantumSumEstimate, rfl⟩

/-- How an enqueue ends, once the port has been reset or not. -/
inductive Enqueues (bfifo : Bfifo) (params : Params) (now : Int) (skb : Skb)
    (q : PrioDwrrSchedData) : PrioDwrrSchedData → NetXmit → Prop
  | refused {ret : NetXmit} (refuses : ret ≠ .success) :
      Enqueues bfifo params now skb q (idleReset params now q) ret
  | prio {i : Fin 1} (target : qdiscClassify params skb = prioId i)
      (accepted : bfifo (q.prioQueues i).qdisc skb = .success) :
      Enqueues bfifo params now skb q (prioAdmit params now i skb (idleReset params now q))
        .success
  | dwrr {i : Fin 7} (target : qdiscClassify params skb = dwrrId i)
      (accepted : bfifo (q.dwrrQueues i).qdisc skb = .success) :
      Enqueues bfifo params now skb q (dwrrAdmit params now i skb (idleReset params now q))
        .success

theorem qdiscEnqueue_cases {bfifo : Bfifo} {params : Params} {now : Int} {skb : Skb}
    {q q' : PrioDwrrSchedData} {ret : NetXmit}
    (returns : qdiscEnqueue bfifo params now skb q = (q', ret)) :
    Enqueues bfifo params now skb q q' ret := by
  unfold qdiscEnqueue at returns
  simp only at returns
  rcases exists_idleReset_eq params now q with ⟨roundTimeNs, quantumSumEstimate, reset⟩
  have prioQueues : (idleReset params now q).prioQueues = q.prioQueues := by rw [reset]
  have dwrrQueues : (idleReset params now q).dwrrQueues = q.dwrrQueues := by rw [reset]
  split at returns
  next i target =>
    split at returns
    · cases returns
      exact .refused (by simp)
    · split at returns
      next accepted =>
        cases returns
        rw [prioQueues] at accepted
        exact .prio (eq_prioId_of_queueOf target) accepted
      all_goals
        cases returns
        exact .refused (by simp)
  next i target =>
    split at returns
    · cases returns
      exact .refused (by simp)
    · split at returns
      next accepted =>
        cases returns
        rw [dwrrQueues] at accepted
        exact .dwrr (eq_dwrrId_of_queueOf target) accepted
      all_goals
        cases returns
        exact .refused (by simp)

/-! ### What a branch does to one DWRR queue -/

/-- A queue at the end of a visit that leaves packets behind. -/
def DwrrClass.turned (now : Int) (quantum : Nat) (cl : DwrrClass) : DwrrClass :=
  { cl with deficitCounter := cl.credit, curr := false, startTimeNs := now, quantum }

/-- A queue that has sent `skb` and keeps `rest`. -/
def DwrrClass.sent (rate : RateCfg) (now : Int) (skb : Skb) (rest : List Skb) (cl : DwrrClass) :
    DwrrClass :=
  { cl with
    qdisc := rest
    lenBytes := u32Sub cl.lenBytes (skbSize skb)
    deficitCounter := u32Sub cl.credit (skbSize skb)
    active := if rest = [] then false else cl.active
    curr := if rest = [] then false else true
    lastPktLenNs := l2tNs rate (skbSize skb)
    lastPktTimeNs := now }

section

variable {q : PrioDwrrSchedData} {i : Fin 7} {ring : List (Fin 7)}

theorem rotate_dwrrQueues (params : Params) (now : Int) (i : Fin 7) (q : PrioDwrrSchedData) :
    (rotate params now i (refresh i q)).dwrrQueues =
      Function.update q.dwrrQueues i
        ((q.dwrrQueues i).turned now (params.queueQuantum i)) := by
  unfold rotate
  simp only [refresh_dwrrQueues, Function.update_self, Function.update_idem]
  rfl

theorem rotate_quantumSum (params : Params) (now : Int) (i : Fin 7) (q : PrioDwrrSchedData) :
    (rotate params now i (refresh i q)).quantumSum =
      u32 (u32Sub q.quantumSum (q.dwrrQueues i).quantum + params.queueQuantum i) := by
  unfold rotate
  simp only [refresh_dwrrQueues, Function.update_self, refresh_quantumSum]
  rfl

theorem rotate_activeList (params : Params) (now : Int) (head : q.activeList = i :: ring) :
    (rotate params now i (refresh i q)).activeList = ring ++ [i] := by
  unfold rotate
  simp only [refresh_activeList, head, List.erase_cons_head]

theorem transmit_dwrrQueues (params : Params) (now toks : Int) (i : Fin 7) (skb : Skb)
    (rest : List Skb) (q : PrioDwrrSchedData) :
    (transmit params now i skb rest toks (refresh i q)).1.dwrrQueues =
      Function.update q.dwrrQueues i ((q.dwrrQueues i).sent q.rate now skb rest) := by
  unfold transmit DwrrClass.sent
  by_cases last : rest = []
  · simp only [last, if_true, retire, take, refresh_dwrrQueues, Function.update_self,
      Function.update_idem, refresh_rate]
    rfl
  · simp only [last, if_false, take, refresh_dwrrQueues, Function.update_self,
      Function.update_idem, refresh_rate]
    rfl

theorem transmit_quantumSum (params : Params) (now toks : Int) (i : Fin 7) (skb : Skb)
    (rest : List Skb) (q : PrioDwrrSchedData) :
    (transmit params now i skb rest toks (refresh i q)).1.quantumSum =
      if rest = [] then u32Sub q.quantumSum (q.dwrrQueues i).quantum else q.quantumSum := by
  unfold transmit
  by_cases last : rest = []
  · simp only [last, if_true, retire, take, refresh_dwrrQueues, Function.update_self,
      refresh_quantumSum]
    rfl
  · simp only [last, if_false, take, refresh_quantumSum]

theorem transmit_activeList (params : Params) (now toks : Int) (skb : Skb) (rest : List Skb)
    (head : q.activeList = i :: ring) :
    (transmit params now i skb rest toks (refresh i q)).1.activeList =
      if rest = [] then ring else i :: ring := by
  unfold transmit
  by_cases last : rest = []
  · simp only [last, if_true, retire, take, refresh_activeList, head, List.erase_cons_head]
  · simp only [last, if_false, take, refresh_activeList, head]

/-- What sending a DWRR packet does to the counters, the priority queues and the rate. -/
theorem transmit_counters (params : Params) (now toks : Int) (i : Fin 7) (skb : Skb)
    (rest : List Skb) (q : PrioDwrrSchedData) :
    (transmit params now i skb rest toks (refresh i q)).1.prioQueues = q.prioQueues ∧
      (transmit params now i skb rest toks (refresh i q)).1.sumLenBytes =
        u32Sub q.sumLenBytes (skbSize skb) ∧
      (transmit params now i skb rest toks (refresh i q)).1.sumPrioLenBytes =
        q.sumPrioLenBytes ∧
      (transmit params now i skb rest toks (refresh i q)).1.qlen = u32Sub q.qlen 1 ∧
      (transmit params now i skb rest toks (refresh i q)).1.rate = q.rate := by
  unfold transmit
  rw [refresh_eq]
  by_cases last : rest = []
  · simp [last, retire, take]
  · simp [last, take]

private theorem prioAdmit_prioQueues (params : Params) (now : Int) (i : Fin 1) (skb : Skb)
    (q : PrioDwrrSchedData) :
    ∃ marked, marked.len = skb.len ∧
      (prioAdmit params now i skb q).prioQueues =
        Function.update q.prioQueues i
          { qdisc := (q.prioQueues i).qdisc ++ [marked]
            lenBytes := u32 ((q.prioQueues i).lenBytes + skbSize skb) } := by
  unfold prioAdmit
  simp only
  generalize stored : prioEnqueueMarking params now skb _ (prioId i) _ = marked
  refine ⟨marked, ?_, rfl⟩
  rw [← stored]
  exact prioEnqueueMarking_len _ _ _ _ _ _

/-- A queue once it has taken a packet, which it holds as `marked`. -/
def DwrrClass.stored (now : Int) (quantum : Nat) (marked : Skb) (cl : DwrrClass) : DwrrClass :=
  if cl.active then
    { cl with
      qdisc := cl.qdisc ++ [marked]
      lenBytes := u32 (cl.lenBytes + skbSize marked) }
  else
    { cl with
      qdisc := cl.qdisc ++ [marked]
      lenBytes := u32 (cl.lenBytes + skbSize marked)
      deficitCounter := 0
      active := true
      curr := false
      startTimeNs := now
      quantum }

theorem dwrrAdmit_dwrrQueues (params : Params) (now : Int) (i : Fin 7) (skb : Skb)
    (q : PrioDwrrSchedData) :
    ∃ marked, marked.len = skb.len ∧
      (dwrrAdmit params now i skb q).dwrrQueues =
        Function.update q.dwrrQueues i
          ((q.dwrrQueues i).stored now (params.queueQuantum i) marked) := by
  unfold dwrrAdmit
  simp only
  generalize stored : dwrrEnqueueMarking params now skb _ (dwrrId i) _ = marked
  have sameLen : marked.len = skb.len := by
    rw [← stored]
    exact dwrrEnqueueMarking_len _ _ _ _ _ _
  refine ⟨marked, sameLen, ?_⟩
  unfold DwrrClass.stored
  rw [skbSize_eq_of_len_eq sameLen]
  by_cases active : (q.dwrrQueues i).active = true
  · simp only [active, if_true]
  · simp only [active, Bool.false_eq_true, if_false]

end

/-! ### The flags of the DWRR queues -/

def DwrrClass.flags (cl : DwrrClass) : ActiveRing.Flags :=
  ⟨!cl.qdisc.isEmpty, cl.active, cl.curr⟩

def flags (q : PrioDwrrSchedData) : Fin 7 → ActiveRing.Flags := fun i => (q.dwrrQueues i).flags

theorem flags_update {q q' : PrioDwrrSchedData} {i : Fin 7} {cl : DwrrClass}
    (queues : q'.dwrrQueues = Function.update q.dwrrQueues i cl) :
    flags q' = Function.update (flags q) i cl.flags := by
  funext k
  unfold flags
  rw [queues]
  by_cases same : k = i
  · subst same
    simp
  · simp [same]

/-! ### The view of the counters -/

/-- The bytes and the packets of one queue: a priority queue is counted under 0 and a DWRR
queue under 1. -/
def account (q : PrioDwrrSchedData) (id : Fin 8) : Account :=
  match queueOf id with
  | .inl i => ⟨0, (q.prioQueues i).lenBytes, (q.prioQueues i).qdisc⟩
  | .inr i => ⟨1, (q.dwrrQueues i).lenBytes, (q.dwrrQueues i).qdisc⟩

/-- What the counters of the qdisc account for. The qdisc has no counter of the bytes in the
DWRR queues; `dwrrLenBytes` stands for it. -/
def view (dwrrLenBytes : Nat) (q : PrioDwrrSchedData) : Ledger where
  queues := account q
  prioLenBytes := fun group =>
    if group = 0 then q.sumPrioLenBytes else if group = 1 then dwrrLenBytes else 0
  sumLenBytes := q.sumLenBytes
  qlen := q.qlen

@[simp] theorem account_prioId (q : PrioDwrrSchedData) (i : Fin 1) :
    account q (prioId i) = ⟨0, (q.prioQueues i).lenBytes, (q.prioQueues i).qdisc⟩ := by
  unfold account
  rw [queueOf_prioId]

@[simp] theorem account_dwrrId (q : PrioDwrrSchedData) (i : Fin 7) :
    account q (dwrrId i) = ⟨1, (q.dwrrQueues i).lenBytes, (q.dwrrQueues i).qdisc⟩ := by
  unfold account
  rw [queueOf_dwrrId]

section

variable {q q' : PrioDwrrSchedData}

theorem account_update_prio {i : Fin 1} {cl : PrioClass}
    (queues : q'.prioQueues = Function.update q.prioQueues i cl)
    (others : q'.dwrrQueues = q.dwrrQueues) :
    account q' = Function.update (account q) (prioId i) ⟨0, cl.lenBytes, cl.qdisc⟩ := by
  funext id
  by_cases same : id = prioId i
  · subst same
    rw [account_prioId, Function.update_self, queues, Function.update_self]
  · rw [Function.update_of_ne same]
    unfold account
    rw [others, queues]
    split
    next k target =>
      have different : k ≠ i := by
        rintro rfl
        exact same (eq_prioId_of_queueOf target)
      rw [Function.update_of_ne different]
    next => rfl

theorem account_update_dwrr {i : Fin 7} {cl : DwrrClass}
    (queues : q'.dwrrQueues = Function.update q.dwrrQueues i cl)
    (others : q'.prioQueues = q.prioQueues) :
    account q' = Function.update (account q) (dwrrId i) ⟨1, cl.lenBytes, cl.qdisc⟩ := by
  funext id
  by_cases same : id = dwrrId i
  · subst same
    rw [account_dwrrId, Function.update_self, queues, Function.update_self]
  · rw [Function.update_of_ne same]
    unfold account
    rw [others, queues]
    split
    next => rfl
    next k target =>
      have different : k ≠ i := by
        rintro rfl
        exact same (eq_dwrrId_of_queueOf target)
      rw [Function.update_of_ne different]

/-- What a queue is accounted with does not change while its bytes and packets stay. -/
theorem account_same {i : Fin 7} {cl : DwrrClass}
    (queues : q'.dwrrQueues = Function.update q.dwrrQueues i cl)
    (others : q'.prioQueues = q.prioQueues) (lenBytes : cl.lenBytes = (q.dwrrQueues i).lenBytes)
    (qdisc : cl.qdisc = (q.dwrrQueues i).qdisc) : account q' = account q := by
  rw [account_update_dwrr queues others, lenBytes, qdisc, ← account_dwrrId,
    Function.update_eq_self]

end

section

variable (dwrrLenBytes : Nat) (params : Params) (now : Int) (q : PrioDwrrSchedData)

theorem view_refresh (i : Fin 7) : view dwrrLenBytes (refresh i q) = view dwrrLenBytes q := by
  have same : account (refresh i q) = account q :=
    account_same (refresh_dwrrQueues i q) (by rw [refresh_eq]) rfl rfl
  unfold view
  rw [same, refresh_eq]

theorem view_rotate (i : Fin 7) :
    view dwrrLenBytes (rotate params now i (refresh i q)) = view dwrrLenBytes q := by
  have same : account (rotate params now i (refresh i q)) = account q :=
    account_same (rotate_dwrrQueues params now i q) (by rw [refresh_eq]; rfl) rfl rfl
  unfold view
  rw [same, refresh_eq]
  rfl

theorem view_idleReset : view dwrrLenBytes (idleReset params now q) = view dwrrLenBytes q := by
  rcases exists_idleReset_eq params now q with ⟨roundTimeNs, quantumSumEstimate, reset⟩
  rw [reset]
  rfl

private theorem entryPrio_view {id group : Fin 8} (counted : (account q id).prio = group) :
    (view dwrrLenBytes q).entryPrio id group = group := by
  unfold Ledger.entryPrio
  rw [show ((view dwrrLenBytes q).queues id).prio = group from counted, ite_self]

end

section

variable {q q' : PrioDwrrSchedData} {skb marked : Skb} {rest : List Skb}

/-- A packet of a priority queue leaves. -/
theorem view_depart_prio (dwrrLenBytes : Nat) {i : Fin 1}
    (prioQueues : q'.prioQueues = Function.update q.prioQueues i
      { qdisc := rest, lenBytes := u32Sub (q.prioQueues i).lenBytes (skbSize skb) })
    (dwrrQueues : q'.dwrrQueues = q.dwrrQueues)
    (sumLenBytes : q'.sumLenBytes = u32Sub q.sumLenBytes (skbSize skb))
    (sumPrioLenBytes : q'.sumPrioLenBytes = u32Sub q.sumPrioLenBytes (skbSize skb))
    (qlen : q'.qlen = u32Sub q.qlen 1) :
    view dwrrLenBytes q' = (view dwrrLenBytes q).depart 0 (prioId i) skb rest := by
  unfold view Ledger.depart
  rw [account_update_prio prioQueues dwrrQueues, sumLenBytes, sumPrioLenBytes, qlen]
  simp only [account_prioId, Ledger.mk.injEq, true_and, and_true]
  funext group
  by_cases same : group = 0
  · subst same
    rfl
  · rw [Function.update_of_ne same, if_neg same, if_neg same]

/-- A packet of a DWRR queue leaves. -/
theorem view_depart_dwrr (dwrrLenBytes : Nat) {i : Fin 7} {cl : DwrrClass}
    (dwrrQueues : q'.dwrrQueues = Function.update q.dwrrQueues i cl) (content : cl.qdisc = rest)
    (lenBytes : cl.lenBytes = u32Sub (q.dwrrQueues i).lenBytes (skbSize skb))
    (prioQueues : q'.prioQueues = q.prioQueues)
    (sumLenBytes : q'.sumLenBytes = u32Sub q.sumLenBytes (skbSize skb))
    (sumPrioLenBytes : q'.sumPrioLenBytes = q.sumPrioLenBytes)
    (qlen : q'.qlen = u32Sub q.qlen 1) :
    view (u32Sub dwrrLenBytes (skbSize skb)) q' =
      (view dwrrLenBytes q).depart 1 (dwrrId i) skb rest := by
  unfold view Ledger.depart
  rw [account_update_dwrr dwrrQueues prioQueues, content, lenBytes, sumLenBytes, sumPrioLenBytes,
    qlen]
  simp only [account_dwrrId, Ledger.mk.injEq, true_and, and_true]
  funext group
  by_cases same : group = 1
  · subst same
    rfl
  · rw [Function.update_of_ne same, if_neg same, if_neg same]

/-- A priority queue takes a packet. -/
theorem view_enter_prio (dwrrLenBytes : Nat) {i : Fin 1}
    (prioQueues : q'.prioQueues = Function.update q.prioQueues i
      { qdisc := (q.prioQueues i).qdisc ++ [marked]
        lenBytes := u32 ((q.prioQueues i).lenBytes + skbSize marked) })
    (dwrrQueues : q'.dwrrQueues = q.dwrrQueues)
    (sumLenBytes : q'.sumLenBytes = u32 (q.sumLenBytes + skbSize marked))
    (sumPrioLenBytes : q'.sumPrioLenBytes = u32 (q.sumPrioLenBytes + skbSize marked))
    (qlen : q'.qlen = u32 (q.qlen + 1)) :
    view dwrrLenBytes q' = (view dwrrLenBytes q).enter (prioId i) 0 marked := by
  unfold Ledger.enter
  rw [entryPrio_view dwrrLenBytes q (by rw [account_prioId])]
  unfold view
  rw [account_update_prio prioQueues dwrrQueues, sumLenBytes, sumPrioLenBytes, qlen]
  simp only [account_prioId, Ledger.mk.injEq, true_and, and_true]
  funext group
  by_cases same : group = 0
  · subst same
    rfl
  · rw [Function.update_of_ne same, if_neg same, if_neg same]

/-- A DWRR queue takes a packet. -/
theorem view_enter_dwrr (dwrrLenBytes : Nat) {i : Fin 7} {cl : DwrrClass}
    (dwrrQueues : q'.dwrrQueues = Function.update q.dwrrQueues i cl)
    (content : cl.qdisc = (q.dwrrQueues i).qdisc ++ [marked])
    (lenBytes : cl.lenBytes = u32 ((q.dwrrQueues i).lenBytes + skbSize marked))
    (prioQueues : q'.prioQueues = q.prioQueues)
    (sumLenBytes : q'.sumLenBytes = u32 (q.sumLenBytes + skbSize marked))
    (sumPrioLenBytes : q'.sumPrioLenBytes = q.sumPrioLenBytes)
    (qlen : q'.qlen = u32 (q.qlen + 1)) :
    view (u32 (dwrrLenBytes + skbSize marked)) q' =
      (view dwrrLenBytes q).enter (dwrrId i) 1 marked := by
  unfold Ledger.enter
  rw [entryPrio_view dwrrLenBytes q (by rw [account_dwrrId])]
  unfold view
  rw [account_update_dwrr dwrrQueues prioQueues, content, lenBytes, sumLenBytes, sumPrioLenBytes,
    qlen]
  simp only [account_dwrrId, Ledger.mk.injEq, true_and, and_true]
  funext group
  by_cases same : group = 1
  · subst same
    rfl
  · rw [Function.update_of_ne same, if_neg same, if_neg same]

end

section

variable (dwrrLenBytes : Nat) (params : Params) (now : Int) (q : PrioDwrrSchedData)

theorem view_prioSent (toks : Int) (i : Fin 1) (skb : Skb) (rest : List Skb) :
    view dwrrLenBytes (prioSent params now toks i skb rest q) =
      (view dwrrLenBytes q).depart 0 (prioId i) skb rest :=
  view_depart_prio dwrrLenBytes rfl rfl rfl rfl rfl

theorem view_transmit (toks : Int) (i : Fin 7) (skb : Skb) (rest : List Skb) :
    view (u32Sub dwrrLenBytes (skbSize skb))
        (transmit params now i skb rest toks (refresh i q)).1 =
      (view dwrrLenBytes q).depart 1 (dwrrId i) skb rest := by
  obtain ⟨prioQueues, sumLenBytes, sumPrioLenBytes, qlen, _⟩ :=
    transmit_counters params now toks i skb rest q
  exact view_depart_dwrr dwrrLenBytes (transmit_dwrrQueues params now toks i skb rest q) rfl rfl
    prioQueues sumLenBytes sumPrioLenBytes qlen

/-- The priority queue holds the packet marked or not. -/
theorem view_prioAdmit (i : Fin 1) (skb : Skb) :
    ∃ marked, marked.len = skb.len ∧
      view dwrrLenBytes (prioAdmit params now i skb q) =
        (view dwrrLenBytes q).enter (prioId i) 0 marked := by
  rcases prioAdmit_prioQueues params now i skb q with ⟨marked, sameLen, queues⟩
  refine ⟨marked, sameLen, ?_⟩
  have size := skbSize_eq_of_len_eq sameLen
  rw [← size] at queues
  apply view_enter_prio dwrrLenBytes queues rfl
  · rw [size]
    rfl
  · rw [size]
    rfl
  · rfl

/-- The DWRR queue holds the packet marked or not. -/
theorem view_dwrrAdmit (i : Fin 7) (skb : Skb) :
    ∃ marked, marked.len = skb.len ∧
      view (u32 (dwrrLenBytes + skbSize skb)) (dwrrAdmit params now i skb q) =
        (view dwrrLenBytes q).enter (dwrrId i) 1 marked := by
  rcases dwrrAdmit_dwrrQueues params now i skb q with ⟨marked, sameLen, queues⟩
  refine ⟨marked, sameLen, ?_⟩
  have size := skbSize_eq_of_len_eq sameLen
  rw [← size]
  have qdisc : ((q.dwrrQueues i).stored now (params.queueQuantum i) marked).qdisc =
      (q.dwrrQueues i).qdisc ++ [marked] := by
    unfold DwrrClass.stored
    split <;> rfl
  have lenBytes : ((q.dwrrQueues i).stored now (params.queueQuantum i) marked).lenBytes =
      u32 ((q.dwrrQueues i).lenBytes + skbSize marked) := by
    unfold DwrrClass.stored
    split <;> rfl
  apply view_enter_dwrr dwrrLenBytes queues qdisc lenBytes rfl
  · rw [size]
    rfl
  · rfl
  · rfl

end

/-! ### The step as a function -/

/-- The operations of the module, with `fuel` for the loop of a dequeue. -/
def operations (bfifo : Bfifo) (fuel : Nat) : Operations Params PrioDwrrSchedData Param where
  enqueue := qdiscEnqueue bfifo
  dequeue := fun params now => qdiscDequeue params now fuel
  write := fun params => params.write
  change := qdiscChange

private theorem operations_follow (bfifo : Bfifo) (fuel : Nat) :
    (operations bfifo fuel).Follow (Step bfifo) :=
  ⟨.enqueue, .dequeue, .sysctl, .change⟩

def Sys.next (bfifo : Bfifo) (fuel : Nat) : Sys → Event Param → Option Sys :=
  (operations bfifo fuel).next

theorem Sys.next_sound {bfifo : Bfifo} {fuel : Nat} {s s' : Sys} {event : Event Param}
    (answers : Sys.next bfifo fuel s event = some s') : Step bfifo s event s' :=
  (operations_follow bfifo fuel).next_sound answers

end MqEcn.Kernel.PrioDwrr
