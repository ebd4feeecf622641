import MqEcn.Kernel.Passage
import MqEcn.Kernel.Shaping

/-!
Contract: the delivery of packets by the kernel schedulers.

Owns: the reading of the five modules as FIFOs that packets pass through, that every event
moves packets as such FIFOs do, and that in every run from initialization each queue returns
what it accepted, in order.

Does not own: which queue is served when, and the marks.
-/

set_option autoImplicit false

namespace MqEcn.Kernel

open MqEcn.Library.Transition
open MqEcn.Library.Word

/-! ### `sch_dwrr` -/

namespace Dwrr

/-- `sch_dwrr` as FIFOs. -/
def reading : Reading Sys handler where
  settings := Qdisc.params
  clock := Qdisc.clock
  fifo := fun s queue => (s.q.queues queue).qdisc
  classify := dwrrClassify
  stamps := fun params => params.value .ecnScheme = 4 ∨ params.value .ecnScheme = 5
  timed := fun params => params.value .ecnScheme = 4
  latencyMark := fun s now skb => tcnMarking (s.params.value .tcnThresh) skb now

private theorem enqueueMarking_storedFrom (params : Params) (now : Int) (skb : Skb)
    (q : DwrrSchedData) (i : Fin 8) (cl : DwrrClass) :
    StoredFrom (reading.stamps params) now skb (enqueueMarking params now skb q i cl) := by
  unfold enqueueMarking
  split
  next stamps => exact Or.inl ⟨stamps, rfl⟩
  next unstamped =>
    refine Or.inr ⟨unstamped, ?_⟩
    split
    · exact dwrrQlenMarking_markedFrom _ _ _ _ _
    · exact Or.inl rfl

/-- What a FIFO holds after an admission is the packet admitted, marked or stamped. -/
theorem dwrrAdmit_storedFrom (params : Params) (now : Int) (i prio : Fin 8) (skb : Skb)
    (q : DwrrSchedData) : ∃ stored, StoredFrom (reading.stamps params) now skb stored ∧ ∀ k,
      ((dwrrAdmit params now i prio skb q).queues k).qdisc =
        (q.queues k).qdisc ++ if k = i then [stored] else [] := by
  unfold dwrrAdmit
  simp only
  generalize marked : enqueueMarking params now skb _ i _ = stored
  refine ⟨stored, marked ▸ enqueueMarking_storedFrom _ _ _ _ _ _, fun k => ?_⟩
  by_cases same : k = i
  · subst same
    simp
  · simp [same]

/-- Under TCN a packet leaves with the mark for its delay. -/
theorem dwrrTransmit_tcn {params : Params} (tcn : params.value .ecnScheme = 4) (now : Int)
    (prio i : Fin 8) (skb : Skb) (rest : List Skb) (result : Int) (q : DwrrSchedData) :
    (dwrrTransmit params now prio i skb rest result q).2 =
      tcnMarking (params.value .tcnThresh) skb now := by
  unfold dwrrTransmit dequeueMarking
  simp only [if_pos tcn]

theorem reading_moves {bfifo : Bfifo} {s s' : Sys} {event : Event Param}
    (step : Step bfifo s event s') : reading.Moves s s' event := by
  cases step with
  | enqueue later returns =>
      rcases dwrrEnqueue_cases returns with ⟨roundTime, ⟨refused, rfl⟩ | ⟨rfl, _, rfl⟩⟩
      · exact .refuse later rfl rfl refused fun _ => rfl
      · obtain ⟨stored, storing, fifo⟩ := dwrrAdmit_storedFrom s.params _ (dwrrClassify s.params _)
          (s.params.queuePrio (dwrrClassify s.params _)) _ { s.q with roundTime }
        exact .enqueue later rfl rfl storing fifo
  | dequeue later returns =>
      rcases dwrrDequeue_cases returns with ⟨_, rfl, rfl⟩ | ⟨prio, middle, _, rotations, exit⟩
      · exact .wait later rfl rfl (by simp) fun _ => rfl
      · have same := qdisc_of_view (view_of_rotations rotations)
        cases exit with
        | fault | null | throttled => exact .wait later rfl rfl (by simp) same
        | @packet i _ skb rest _ front =>
            rw [same i] at front
            refine .dequeue later rfl rfl front
              ⟨dwrrTransmit_markedFrom _ _ _ _ _ _ _ _, fun tcn => ?_⟩ fun k => ?_
            · exact dwrrTransmit_tcn tcn _ _ _ _ _ _ _
            · show ((dwrrTransmit _ _ _ _ _ _ _ _).1.queues k).qdisc = _
              rw [dwrrTransmit_qdisc, same k]
              rfl
  | sysctl => exact .sysctl rfl rfl fun _ => rfl
  | change => exact .change rfl rfl fun _ => rfl

theorem reading_fresh {start : Sys} (fresh : Initial start) (queue : Fin 8) :
    reading.fifo start queue = [] := by
  obtain ⟨rate, initial⟩ := fresh
  show (start.q.queues queue).qdisc = []
  rw [initial]
  rfl

end Dwrr

/-! ### `sch_wfq` -/

namespace Wfq

/-- `sch_wfq` as FIFOs. -/
def reading : Reading Sys handler where
  settings := Qdisc.params
  clock := Qdisc.clock
  fifo := fun s queue => (s.q.queues queue).qdisc
  classify := wfqClassify
  stamps := fun params => params.value .ecnScheme = 4 ∨ params.value .ecnScheme = 5
  timed := fun params => params.value .ecnScheme = 4
  latencyMark := fun s now skb => tcnMarking (s.params.value .tcnThresh) skb now

private theorem enqueueMarking_storedFrom (params : Params) (now : Int) (skb : Skb)
    (q : WfqSchedData) (i : Fin 8) (cl : WfqClass) :
    StoredFrom (reading.stamps params) now skb (enqueueMarking params now skb q i cl) := by
  unfold enqueueMarking
  split
  next stamps => exact Or.inl ⟨stamps, rfl⟩
  next unstamped =>
    refine Or.inr ⟨unstamped, ?_⟩
    split
    · exact wfqQlenMarking_markedFrom _ _ _ _ _
    · exact Or.inl rfl

/-- What a FIFO holds after an admission is the packet admitted, marked or stamped. -/
theorem wfqAdmit_storedFrom (params : Params) (now : Int) (i : Fin 8) (skb : Skb)
    (q : WfqSchedData) : ∃ stored, StoredFrom (reading.stamps params) now skb stored ∧ ∀ k,
      ((wfqAdmit params now i skb q).queues k).qdisc =
        (q.queues k).qdisc ++ if k = i then [stored] else [] := by
  unfold wfqAdmit
  simp only [wfqActivate_eq]
  generalize marked : enqueueMarking params now skb _ i _ = stored
  refine ⟨stored, marked ▸ enqueueMarking_storedFrom _ _ _ _ _ _, fun k => ?_⟩
  by_cases same : k = i
  · subst same
    simp
  · simp [same]

/-- Under TCN a packet leaves with the mark for its delay. -/
theorem wfqTransmit_tcn {params : Params} (tcn : params.value .ecnScheme = 4) (now : Int)
    (prio i : Fin 8) (skb : Skb) (rest : List Skb) (result : Int) (q : WfqSchedData) :
    (wfqTransmit params now prio i skb rest result q).2 =
      tcnMarking (params.value .tcnThresh) skb now := by
  unfold wfqTransmit dequeueMarking
  simp only [if_pos tcn]

theorem reading_moves {bfifo : Bfifo} {s s' : Sys} {event : Event Param}
    (step : Step bfifo s event s') : reading.Moves s s' event := by
  cases step with
  | enqueue later returns =>
      rcases wfqEnqueue_cases returns with ⟨refused, rfl⟩ | ⟨rfl, _, rfl⟩
      · exact .refuse later rfl rfl refused fun _ => rfl
      · obtain ⟨stored, storing, fifo⟩ :=
          wfqAdmit_storedFrom s.params _ (wfqClassify s.params _) _ s.q
        exact .enqueue later rfl rfl storing fifo
  | dequeue later returns =>
      cases wfqDequeue_cases returns with
      | idle | fault | null | throttled => exact .wait later rfl rfl (by simp) fun _ => rfl
      | packet selected found front enough =>
          refine .dequeue later rfl rfl front
            ⟨wfqTransmit_markedFrom _ _ _ _ _ _ _ _, fun tcn => ?_⟩ fun k => ?_
          · exact wfqTransmit_tcn tcn _ _ _ _ _ _ _
          · exact (congrArg (fun ledger => (ledger.queues k).fifo)
              (view_transmit _ _ _ _ _ _ _ _)).trans (Ledger.depart_fifo _ _ _ _ _ _)
  | sysctl => exact .sysctl rfl rfl fun _ => rfl
  | change => exact .change rfl rfl fun _ => rfl

theorem reading_fresh {start : Sys} (fresh : Initial start) (queue : Fin 8) :
    reading.fifo start queue = [] := by
  obtain ⟨rate, initial⟩ := fresh
  show (start.q.queues queue).qdisc = []
  rw [initial]
  rfl

end Wfq

/-! ### `sch_prio` -/

namespace Prio

/-- `sch_prio` as FIFOs. -/
def reading : Reading Sys handler where
  settings := Qdisc.params
  clock := Qdisc.clock
  fifo := fun s queue => s.q.queues queue
  classify := qdiscClassify
  stamps := fun params => params.value .ecnScheme = 3
  timed := fun params => params.value .ecnScheme = 3
  latencyMark := fun s now skb => dequeueMarking s.params now skb s.q

private theorem enqueueMarking_storedFrom (params : Params) (now : Int) (skb : Skb) (id : Fin 8)
    (q : PrioSchedData) :
    StoredFrom (reading.stamps params) now skb (enqueueMarking params now skb id q) := by
  unfold enqueueMarking StoredFrom reading
  simp only
  split
  next queueFull =>
    have other : params.value .ecnScheme ≠ 3 := by omega
    exact Or.inr ⟨other, PrioDwrr.qdiscEcn_markedFrom skb⟩
  · split
    next portFull =>
      have other : params.value .ecnScheme ≠ 3 := by omega
      exact Or.inr ⟨other, PrioDwrr.qdiscEcn_markedFrom skb⟩
    · split
      next stamps => exact Or.inl ⟨stamps, rfl⟩
      next unstamped => exact Or.inr ⟨unstamped, Or.inl rfl⟩

/-- The packet is appended to the FIFO of its queue. -/
theorem admitted_queues (id : Fin 8) (len : Nat) (marked : Skb) (q : PrioSchedData) (k : Fin 8) :
    (admitted id len marked q).queues k = q.queues k ++ if k = id then [marked] else [] := by
  by_cases same : k = id
  · subst same
    simp [admitted]
  · simp [admitted, same]

theorem reading_moves {bfifo : Bfifo} {s s' : Sys} {event : Event Param}
    (step : Step bfifo s event s') : reading.Moves s s' event := by
  cases step with
  | @enqueue now skb _ _ later returns =>
      cases qdiscEnqueue_cases returns with
      | refused refuses => exact .refuse later rfl rfl refuses fun _ => rfl
      | stored fits accepted =>
          exact .enqueue later rfl rfl
            (enqueueMarking_storedFrom s.params now skb (qdiscClassify s.params skb) s.q)
            (admitted_queues _ (skbSize skb) _ s.q)
  | dequeue later returns =>
      cases qdiscDequeue_cases returns with
      | null | throttled => exact .wait later rfl rfl (by simp) fun _ => rfl
      | packet front enough =>
          refine .dequeue later rfl rfl front.content
            ⟨dequeueMarking_markedFrom _ _ _ _, fun _ => rfl⟩ fun queue => ?_
          exact (congrArg (fun ledger => (ledger.queues queue).fifo)
            (view_sent _ _ _ _ _ _ _)).trans (Ledger.depart_fifo _ _ _ _ _ _)
  | sysctl => exact .sysctl rfl rfl fun _ => rfl
  | change => exact .change rfl rfl fun _ => rfl

theorem reading_fresh {start : Sys} (fresh : Initial start) (queue : Fin 8) :
    reading.fifo start queue = [] := by
  obtain ⟨rate, initial⟩ := fresh
  show start.q.queues queue = []
  rw [initial]
  rfl

end Prio

/-! ### `sch_prio_dwrr` -/

namespace PrioDwrr

/-- The FIFO with an `id`. -/
def fifo (q : PrioDwrrSchedData) (id : Fin 8) : List Skb := (account q id).fifo

/-- `sch_prio_dwrr` as FIFOs. -/
def reading : Reading Sys handler where
  settings := Qdisc.params
  clock := Qdisc.clock
  fifo := fun s => fifo s.q
  classify := qdiscClassify
  stamps := fun params => params.value .ecnScheme = 5
  timed := fun params => params.value .ecnScheme = 5
  latencyMark := fun s now skb => dequeueMarking s.params now skb s.q

theorem ite_qdiscEcn_markedFrom (skb : Skb) (condition : Prop) [Decidable condition] :
    MarkedFrom skb (if condition then qdiscEcn skb else skb) := by
  split
  · exact qdiscEcn_markedFrom skb
  · exact Or.inl rfl

private theorem prioEnqueueMarking_storedFrom (params : Params) (now : Int) (skb : Skb)
    (q : PrioDwrrSchedData) (id : Fin 8) (cl : PrioClass) :
    StoredFrom (reading.stamps params) now skb (prioEnqueueMarking params now skb q id cl) := by
  unfold prioEnqueueMarking StoredFrom reading
  simp only
  split
  next scheme => exact Or.inr ⟨by rw [scheme]; decide, ite_qdiscEcn_markedFrom _ _⟩
  next scheme => exact Or.inr ⟨by rw [scheme]; decide, ite_qdiscEcn_markedFrom _ _⟩
  next scheme => exact Or.inr ⟨by rw [scheme]; decide, ite_qdiscEcn_markedFrom _ _⟩
  next scheme => exact Or.inr ⟨by rw [scheme]; decide, ite_qdiscEcn_markedFrom _ _⟩
  next scheme => exact Or.inl ⟨scheme, rfl⟩
  next other => exact Or.inr ⟨other, Or.inl rfl⟩

private theorem dwrrEnqueueMarking_storedFrom (params : Params) (now : Int) (skb : Skb)
    (q : PrioDwrrSchedData) (id : Fin 8) (cl : DwrrClass) :
    StoredFrom (reading.stamps params) now skb (dwrrEnqueueMarking params now skb q id cl) := by
  unfold dwrrEnqueueMarking StoredFrom reading
  simp only
  split
  next scheme => exact Or.inr ⟨by rw [scheme]; decide, ite_qdiscEcn_markedFrom _ _⟩
  next scheme => exact Or.inr ⟨by rw [scheme]; decide, ite_qdiscEcn_markedFrom _ _⟩
  next scheme => exact Or.inr ⟨by rw [scheme]; decide, ite_qdiscEcn_markedFrom _ _⟩
  next scheme => exact Or.inr ⟨by rw [scheme]; decide, ite_qdiscEcn_markedFrom _ _⟩
  next scheme => exact Or.inl ⟨scheme, rfl⟩
  next other => exact Or.inr ⟨other, Or.inl rfl⟩

section

variable {q q' : PrioDwrrSchedData}

theorem fifo_update_prio {i : Fin 1} {cl : PrioClass}
    (queues : q'.prioQueues = Function.update q.prioQueues i cl)
    (others : q'.dwrrQueues = q.dwrrQueues) (id : Fin 8) :
    fifo q' id = if id = prioId i then cl.qdisc else fifo q id := by
  unfold fifo
  rw [account_update_prio queues others]
  by_cases same : id = prioId i
  · subst same
    rw [Function.update_self, if_pos rfl]
  · rw [Function.update_of_ne same, if_neg same]

theorem fifo_update_dwrr {i : Fin 7} {cl : DwrrClass}
    (queues : q'.dwrrQueues = Function.update q.dwrrQueues i cl)
    (others : q'.prioQueues = q.prioQueues) (id : Fin 8) :
    fifo q' id = if id = dwrrId i then cl.qdisc else fifo q id := by
  unfold fifo
  rw [account_update_dwrr queues others]
  by_cases same : id = dwrrId i
  · subst same
    rw [Function.update_self, if_pos rfl]
  · rw [Function.update_of_ne same, if_neg same]

@[simp] theorem fifo_prioId (i : Fin 1) : fifo q (prioId i) = (q.prioQueues i).qdisc := by
  rw [fifo, account_prioId]

@[simp] theorem fifo_dwrrId (i : Fin 7) : fifo q (dwrrId i) = (q.dwrrQueues i).qdisc := by
  rw [fifo, account_dwrrId]

/-- What is written at the end of a FIFO is appended to it. -/
theorem ite_append (id queue : Fin 8) (fifo : Fin 8 → List Skb) (stored : Skb) :
    (if id = queue then fifo queue ++ [stored] else fifo id) =
      fifo id ++ if id = queue then [stored] else [] := by
  by_cases same : id = queue
  · simp [same]
  · simp [same]

/-- The latency mark reads nothing of the qdisc but its rate. -/
theorem dequeueMarking_congr (params : Params) (now : Int) (skb : Skb) (same : q'.rate = q.rate) :
    dequeueMarking params now skb q' = dequeueMarking params now skb q := by
  unfold dequeueMarking
  rw [same]

end

section

variable (params : Params) (now : Int) (skb : Skb) (q : PrioDwrrSchedData)

private theorem prioAdmit_storedFrom (i : Fin 1) :
    ∃ stored, StoredFrom (reading.stamps params) now skb stored ∧ ∀ id,
      fifo (prioAdmit params now i skb q) id =
        fifo q id ++ if id = prioId i then [stored] else [] := by
  obtain ⟨cl, stored, queues, qdisc, storing⟩ : ∃ cl stored,
      (prioAdmit params now i skb q).prioQueues = Function.update q.prioQueues i cl ∧
        cl.qdisc = (q.prioQueues i).qdisc ++ [stored] ∧
        StoredFrom (reading.stamps params) now skb stored :=
    ⟨_, _, rfl, rfl, prioEnqueueMarking_storedFrom _ _ _ _ _ _⟩
  refine ⟨stored, storing, fun id => ?_⟩
  rw [fifo_update_prio queues rfl, qdisc, ← fifo_prioId i, ite_append]

private theorem dwrrAdmit_storedFrom (i : Fin 7) :
    ∃ stored, StoredFrom (reading.stamps params) now skb stored ∧ ∀ id,
      fifo (dwrrAdmit params now i skb q) id =
        fifo q id ++ if id = dwrrId i then [stored] else [] := by
  obtain ⟨cl, stored, queues, qdisc, storing⟩ : ∃ cl stored,
      (dwrrAdmit params now i skb q).dwrrQueues = Function.update q.dwrrQueues i cl ∧
        cl.qdisc = (q.dwrrQueues i).qdisc ++ [stored] ∧
        StoredFrom (reading.stamps params) now skb stored :=
    ⟨_, _, rfl, rfl, dwrrEnqueueMarking_storedFrom _ _ _ _ _ _⟩
  refine ⟨stored, storing, fun id => ?_⟩
  rw [fifo_update_dwrr queues rfl, qdisc, ← fifo_dwrrId i, ite_append]

private theorem idleReset_fifo (id : Fin 8) : fifo (idleReset params now q) id = fifo q id := by
  obtain ⟨roundTimeNs, quantumSumEstimate, reset⟩ := exists_idleReset_eq params now q
  rw [reset]
  rfl

end

/-! A dequeue, with the mark it returns the packet with. -/

section

variable {params : Params} {now : Int} {q q' : PrioDwrrSchedData} {id : Fin 8} {returned : Skb}

/-- The head of the FIFO with an `id` is returned with its latency mark. -/
def Marks (params : Params) (now : Int) (q : PrioDwrrSchedData) (id : Fin 8) (returned : Skb) :
    Prop :=
  ∃ skb rest, fifo q id = skb :: rest ∧ returned = dequeueMarking params now skb q

private theorem prioQueuesDequeue_marks
    (returns : prioQueuesDequeue params now q = (q', .packet id returned)) :
    Marks params now q id returned := by
  unfold prioQueuesDequeue at returns
  split at returns
  next nothing => cases returns
  next skb found =>
    obtain ⟨i, rest, front, takes⟩ := prioQueuesPeek_eq_some found
    simp only [takes] at returns
    split at returns
    next enough =>
      cases returns
      exact ⟨skb, rest, by rw [fifo_prioId, front], rfl⟩
    next short => cases returns

/-- A visit that goes on or ends changes no FIFO and not the rate. -/
theorem Marks.of_rotate {i : Fin 7}
    (marks : Marks params now (rotate params now i (refresh i q)) id returned) :
    Marks params now q id returned := by
  obtain ⟨skb, rest, front, rfl⟩ := marks
  have viewed := congrArg (fun ledger => (ledger.queues id).fifo) (view_rotate 0 params now q i)
  have rate : (rotate params now i (refresh i q)).rate = q.rate := refresh_rate i q
  exact ⟨skb, rest, viewed.symm.trans front, dequeueMarking_congr params now skb rate⟩

private theorem prioSent_fifo (params : Params) (now toks : Int) (i : Fin 1) (skb : Skb)
    (rest : List Skb) (q : PrioDwrrSchedData) (other : Fin 8) :
    fifo (prioSent params now toks i skb rest q) other =
      if other = prioId i then rest else fifo q other := by
  have queues : (prioSent params now toks i skb rest q).prioQueues =
      Function.update q.prioQueues i
        { qdisc := rest, lenBytes := u32Sub (q.prioQueues i).lenBytes (skbSize skb) } := rfl
  exact fifo_update_prio queues rfl other

private theorem transmit_returned (toks : Int) (i : Fin 7) (skb : Skb) (rest : List Skb) :
    (transmit params now i skb rest toks q).2 = dequeueMarking params now skb q := by
  unfold transmit
  by_cases last : rest = []
  · simp only [last, if_true]
    exact dequeueMarking_congr params now skb rfl
  · simp only [last, if_false]
    exact dequeueMarking_congr params now skb rfl

private theorem dwrrQueuesLoop_marks {fuel : Nat}
    (returns : dwrrQueuesLoop params now fuel q = some (q', .packet id returned)) :
    Marks params now q id returned := by
  induction fuel generalizing q with
  | zero => cases returns
  | succ fuel inductionHypothesis =>
      unfold dwrrQueuesLoop at returns
      split at returns
      next => cases returns
      next i ring head =>
        simp only [refresh_qdisc] at returns
        cases front : (q.dwrrQueues i).qdisc with
        | nil =>
            simp only [front, peek, List.head?_nil] at returns
            cases returns
        | cons skb rest =>
            simp only [front, peek, dequeuePeeked, List.head?_cons] at returns
            split at returns
            next affordable =>
              split at returns
              next enough =>
                cases returns
                refine ⟨skb, rest, by rw [fifo_dwrrId, front], ?_⟩
                rw [transmit_returned]
                exact dequeueMarking_congr params now skb (refresh_rate i q)
              next short => cases returns
            next blocked => exact (inductionHypothesis returns).of_rotate

private theorem qdiscDequeue_marks {fuel : Nat}
    (returns : qdiscDequeue params now fuel q = some (q', .packet id returned)) :
    Marks params now q id returned := by
  unfold qdiscDequeue at returns
  split at returns
  next busy => exact prioQueuesDequeue_marks (Option.some.inj returns)
  next idle =>
    split at returns
    next active =>
      unfold dwrrQueuesDequeue at returns
      rw [if_neg active] at returns
      exact dwrrQueuesLoop_marks returns
    next inactive => cases returns

/-- The packet of a dequeue leaves the front of its FIFO; the others stay. -/
theorem dequeues_packet {fuel : Nat}
    (returns : qdiscDequeue params now fuel q = some (q', .packet id returned)) :
    ∃ skb rest, fifo q id = skb :: rest ∧ returned = dequeueMarking params now skb q ∧
      ∀ other, fifo q' other = if other = id then rest else fifo q other := by
  obtain ⟨skb, rest, front, mark⟩ := qdiscDequeue_marks returns
  refine ⟨skb, rest, front, mark, ?_⟩
  cases qdiscDequeue_cases returns with
  | prio busy ends =>
      cases ends with
      | packet found content =>
          rw [fifo_prioId, content] at front
          obtain ⟨rfl, rfl⟩ := List.cons.inj front
          exact prioSent_fifo _ _ _ _ _ _ _
  | @dwrr middle idle active rotations exit =>
      have same : ∀ other, fifo middle other = fifo q other := fun other =>
        congrArg (fun ledger => (ledger.queues other).fifo) (view_of_rotations 0 rotations)
      cases exit with
      | @packet i _ _ _ _ head content =>
          rw [← same, fifo_dwrrId, content] at front
          obtain ⟨rfl, rfl⟩ := List.cons.inj front
          intro other
          rw [fifo_update_dwrr (transmit_dwrrQueues _ _ _ _ _ _ _)
            (transmit_counters _ _ _ _ _ _ _).1, same]
          rfl
  | idle => contradiction

private theorem dequeues_nothing {fuel : Nat} {outcome : Dequeued}
    (returns : qdiscDequeue params now fuel q = some (q', outcome))
    (nothing : ∀ id skb, outcome ≠ .packet id skb) (other : Fin 8) :
    fifo q' other = fifo q other := by
  cases qdiscDequeue_cases returns with
  | prio busy ends =>
      cases ends with
      | null | throttled => rfl
      | packet => exact absurd rfl (nothing _ _)
  | @dwrr middle idle active rotations exit =>
      have same : ∀ other, fifo middle other = fifo q other := fun other =>
        congrArg (fun ledger => (ledger.queues other).fifo) (view_of_rotations 0 rotations)
      cases exit with
      | fault => exact same other
      | null | throttled =>
          exact (congrArg (fun ledger => (ledger.queues other).fifo) (view_refresh 0 _ _)).trans
            (same other)
      | packet => exact absurd rfl (nothing _ _)
  | idle _ _ stays => rw [stays]

end

theorem reading_moves {bfifo : Bfifo} {s s' : Sys} {event : Event Param}
    (step : Step bfifo s event s') : reading.Moves s s' event := by
  cases step with
  | @enqueue now skb _ _ later returns =>
      have reset := idleReset_fifo s.params now s.q
      cases qdiscEnqueue_cases returns with
      | refused refuses => exact .refuse later rfl rfl refuses reset
      | @prio i target accepted =>
          obtain ⟨stored, storing, content⟩ :=
            prioAdmit_storedFrom s.params now skb (idleReset s.params now s.q) i
          refine .enqueue later rfl rfl storing fun id => (content id).trans ?_
          rw [reset id, ← target]
          rfl
      | @dwrr i target accepted =>
          obtain ⟨stored, storing, content⟩ :=
            dwrrAdmit_storedFrom s.params now skb (idleReset s.params now s.q) i
          refine .enqueue later rfl rfl storing fun id => (content id).trans ?_
          rw [reset id, ← target]
          rfl
  | @dequeue now fuel q' outcome later returns =>
      cases outcome with
      | packet id returned =>
          obtain ⟨skb, rest, front, mark, fifo⟩ := dequeues_packet returns
          exact .dequeue later rfl rfl front
            ⟨mark ▸ dequeueMarking_markedFrom _ _ _ _, fun _ => mark⟩ fifo
      | null | throttled | fault =>
          exact .wait later rfl rfl (by simp) (dequeues_nothing returns (by simp))
  | sysctl => exact .sysctl rfl rfl fun _ => rfl
  | change => exact .change rfl rfl fun _ => rfl

theorem reading_fresh {start : Sys} (fresh : Initial start) (queue : Fin 8) :
    reading.fifo start queue = [] := by
  obtain ⟨rate, initial⟩ := fresh
  show (account start.q queue).fifo = []
  rw [initial]
  unfold account
  split <;> rfl

end PrioDwrr

/-! ### `sch_prio_wfq` -/

namespace PrioWfq

open PrioDwrr (prioId)

/-- `sch_prio_wfq` as FIFOs. -/
def reading : Reading Sys handler where
  settings := Qdisc.params
  clock := Qdisc.clock
  fifo := fun s => fifo s.q
  classify := qdiscClassify
  stamps := fun params => params.value .ecnScheme = 5
  timed := fun params => params.value .ecnScheme = 5
  latencyMark := fun s now skb => dequeueMarking s.params now skb s.q

private theorem enqueueMarking_storedFrom (params : Params) (now : Int) (skb : Skb)
    (q : PrioWfqSchedData) (id : Fin 8) (lenBytes : Nat) :
    StoredFrom (reading.stamps params) now skb (enqueueMarking params now skb q id lenBytes) := by
  unfold enqueueMarking StoredFrom reading
  simp only
  split
  next scheme => exact Or.inr ⟨by rw [scheme]; decide, PrioDwrr.ite_qdiscEcn_markedFrom _ _⟩
  next scheme => exact Or.inr ⟨by rw [scheme]; decide, PrioDwrr.ite_qdiscEcn_markedFrom _ _⟩
  next scheme => exact Or.inl ⟨scheme, rfl⟩
  next other => exact Or.inr ⟨other, Or.inl rfl⟩

section

variable {q q' : PrioWfqSchedData}

theorem fifo_update_prio {i : Fin 1} {cl : PrioDwrr.PrioClass}
    (queues : q'.prioQueues = Function.update q.prioQueues i cl)
    (others : q'.wfqQueues = q.wfqQueues) (id : Fin 8) :
    fifo q' id = if id = prioId i then cl.qdisc else fifo q id := by
  have same : (counters q').dwrrQueues = (counters q).dwrrQueues :=
    funext fun k => congrArg (fun queues => (queues k).stored) others
  exact PrioDwrr.fifo_update_prio queues same id

theorem fifo_update_wfq {i : Fin 7} {cl : WfqClass}
    (queues : q'.wfqQueues = Function.update q.wfqQueues i cl)
    (others : q'.prioQueues = q.prioQueues) (id : Fin 8) :
    fifo q' id = if id = wfqId i then cl.qdisc else fifo q id :=
  PrioDwrr.fifo_update_dwrr (counters_update queues) others id

end

section

variable (params : Params) (now : Int) (skb : Skb) (q : PrioWfqSchedData)

theorem prioAdmit_storedFrom (i : Fin 1) :
    ∃ stored, StoredFrom (reading.stamps params) now skb stored ∧ ∀ id,
      fifo (prioAdmit params now i skb q) id =
        fifo q id ++ if id = prioId i then [stored] else [] := by
  obtain ⟨cl, stored, queues, qdisc, storing⟩ : ∃ cl stored,
      (prioAdmit params now i skb q).prioQueues = Function.update q.prioQueues i cl ∧
        cl.qdisc = (q.prioQueues i).qdisc ++ [stored] ∧
        StoredFrom (reading.stamps params) now skb stored :=
    ⟨_, _, rfl, rfl, enqueueMarking_storedFrom _ _ _ _ _ _⟩
  refine ⟨stored, storing, fun id => ?_⟩
  rw [fifo_update_prio queues rfl, qdisc, ← fifo_prioId q i, PrioDwrr.ite_append]

theorem wfqAdmit_storedFrom (i : Fin 7) :
    ∃ stored, StoredFrom (reading.stamps params) now skb stored ∧ ∀ id,
      fifo (wfqAdmit params now i skb q) id =
        fifo q id ++ if id = wfqId i then [stored] else [] := by
  obtain ⟨headFinishTime, virtualTime, stamped⟩ := stampFirst_fields params (skbSize skb) i q
  obtain ⟨cl, stored, queues, qdisc, storing⟩ : ∃ cl stored,
      (wfqAdmit params now i skb q).wfqQueues =
          Function.update (stampFirst params (skbSize skb) i q).wfqQueues i cl ∧
        cl.qdisc = ((stampFirst params (skbSize skb) i q).wfqQueues i).qdisc ++ [stored] ∧
        StoredFrom (reading.stamps params) now skb stored :=
    ⟨_, _, rfl, rfl, enqueueMarking_storedFrom _ _ _ _ _ _⟩
  rw [stamped] at queues qdisc
  simp only [Function.update_idem, Function.update_self] at queues qdisc
  refine ⟨stored, storing, fun id => ?_⟩
  rw [fifo_update_wfq queues (wfqAdmit_counters _ _ _ _ _).1, qdisc, ← fifo_wfqId q i,
    PrioDwrr.ite_append]

end

private theorem Sends.fifo {params : Params} {now : Int} {q q' : PrioWfqSchedData} {id : Fin 8}
    {returned : Skb} (sends : Sends params now q q' id returned) :
    ∃ skb rest, fifo q id = skb :: rest ∧ returned = dequeueMarking params now skb q ∧
      ∀ other, PrioWfq.fifo q' other = if other = id then rest else PrioWfq.fifo q other := by
  cases sends with
  | @prio i skb rest busy front enough =>
      have queues : (prioSent params now (refilled params now q - l2tNs q.rate (skbSize skb)) i skb
          rest q).prioQueues = Function.update q.prioQueues i
            { qdisc := rest, lenBytes := u32Sub (q.prioQueues i).lenBytes (skbSize skb) } := rfl
      exact ⟨skb, rest, (fifo_prioId q i).trans front, rfl, fifo_update_prio queues rfl⟩
  | @wfq i skb rest idle found front enough =>
      obtain ⟨headFinishTime, queues⟩ :=
        transmit_wfqQueues params now (refilled params now q) i skb rest q
      exact ⟨skb, rest, (fifo_wfqId q i).trans front, rfl,
        fifo_update_wfq queues (transmit_counters params now _ i skb rest q).1⟩

theorem reading_moves {bfifo : Bfifo} {s s' : Sys} {event : Event Param}
    (step : Step bfifo s event s') : reading.Moves s s' event := by
  cases step with
  | @enqueue now skb _ _ later returns =>
      cases qdiscEnqueue_cases returns with
      | refused refuses => exact .refuse later rfl rfl refuses fun _ => rfl
      | @prio i target accepted =>
          obtain ⟨stored, storing, content⟩ := prioAdmit_storedFrom s.params now skb s.q i
          refine .enqueue later rfl rfl storing fun id => (content id).trans ?_
          rw [← target]
          rfl
      | @wfq i target accepted =>
          obtain ⟨stored, storing, content⟩ := wfqAdmit_storedFrom s.params now skb s.q i
          refine .enqueue later rfl rfl storing fun id => (content id).trans ?_
          rw [← target]
          rfl
  | @dequeue now q' outcome later returns =>
      cases outcome with
      | packet id returned =>
          obtain ⟨skb, rest, front, mark, content⟩ := (qdiscDequeue_sends returns).fifo
          exact .dequeue later rfl rfl front
            ⟨mark ▸ dequeueMarking_markedFrom _ _ _ _, fun _ => mark⟩ content
      | null | throttled | fault =>
          rw [qdiscDequeue_stays returns (by simp)]
          exact .wait later rfl rfl (by simp) fun _ => rfl
  | sysctl => exact .sysctl rfl rfl fun _ => rfl
  | change => exact .change rfl rfl fun _ => rfl

theorem reading_fresh {start : Sys} (fresh : Initial start) (queue : Fin 8) :
    reading.fifo start queue = [] := by
  obtain ⟨rate, initial⟩ := fresh
  show (PrioDwrr.account (counters start.q) queue).fifo = []
  rw [initial]
  unfold PrioDwrr.account
  split <;> rfl

end PrioWfq

/-! ### Delivery -/

/-- **Delivery in order.** In every run of any of the five modules from initialization on, with
the parameters written and the rate changed at any time, what each queue has accepted is, in
order, what it has returned and what it holds: nothing is lost, duplicated, overtaken within
its queue or returned before it was accepted, and a packet changes but for its mark and its
stamp. -/
theorem delivers_in_order (bfifo : Bfifo) (queue : Fin 8) :
    (∀ start events last, Dwrr.Initial start → Run (Dwrr.Step bfifo) start events last →
      Dwrr.reading.Delivers Reading.Passed Reading.Held queue start events last) ∧
    (∀ start events last, Wfq.Initial start → Run (Wfq.Step bfifo) start events last →
      Wfq.reading.Delivers Reading.Passed Reading.Held queue start events last) ∧
    (∀ start events last, Prio.Initial start → Run (Prio.Step bfifo) start events last →
      Prio.reading.Delivers Reading.Passed Reading.Held queue start events last) ∧
    (∀ start events last, PrioDwrr.Initial start → Run (PrioDwrr.Step bfifo) start events last →
      PrioDwrr.reading.Delivers Reading.Passed Reading.Held queue start events last) ∧
    ∀ start events last, PrioWfq.Initial start → Run (PrioWfq.Step bfifo) start events last →
      PrioWfq.reading.Delivers Reading.Passed Reading.Held queue start events last := by
  refine ⟨?_, ?_, ?_, ?_, ?_⟩
  · intro start events last fresh run
    exact Reading.delivers_of_moves Dwrr.reading_moves run (Dwrr.reading_fresh fresh queue)
  · intro start events last fresh run
    exact Reading.delivers_of_moves Wfq.reading_moves run (Wfq.reading_fresh fresh queue)
  · intro start events last fresh run
    exact Reading.delivers_of_moves Prio.reading_moves run (Prio.reading_fresh fresh queue)
  · intro start events last fresh run
    exact Reading.delivers_of_moves PrioDwrr.reading_moves run (PrioDwrr.reading_fresh fresh queue)
  · intro start events last fresh run
    exact Reading.delivers_of_moves PrioWfq.reading_moves run (PrioWfq.reading_fresh fresh queue)

theorem burst_delivers :
    (∃ last, Dwrr.reading.Delivers Reading.Passed Reading.Held 0 Dwrr.idle burst last) ∧
      (∃ last, Wfq.reading.Delivers Reading.Passed Reading.Held 0 Wfq.idle burst last) ∧
      (∃ last, Prio.reading.Delivers Reading.Passed Reading.Held 0 Prio.idle burst last) ∧
      (∃ last, PrioDwrr.reading.Delivers Reading.Passed Reading.Held 0 PrioDwrr.idle burst last) ∧
      ∃ last, PrioWfq.reading.Delivers Reading.Passed Reading.Held 0 PrioWfq.idle burst last :=
  ⟨⟨_, (delivers_in_order byteLimit 0).1 Dwrr.idle burst _ ⟨_, rfl⟩
      (RunWithin.of_replay_isSome Dwrr.Sys.next_sound Dwrr.burst_replays).run⟩,
    ⟨_, (delivers_in_order byteLimit 0).2.1 Wfq.idle burst _ ⟨_, rfl⟩
      (RunWithin.of_replay_isSome Wfq.Sys.next_sound Wfq.burst_replays).run⟩,
    ⟨_, (delivers_in_order byteLimit 0).2.2.1 Prio.idle burst _ ⟨_, rfl⟩
      (RunWithin.of_replay_isSome Prio.Sys.next_sound Prio.burst_replays).run⟩,
    ⟨_, (delivers_in_order byteLimit 0).2.2.2.1 PrioDwrr.idle burst _ ⟨_, rfl⟩
      (RunWithin.of_replay_isSome PrioDwrr.Sys.next_sound PrioDwrr.burst_replays).run⟩,
    ⟨_, (delivers_in_order byteLimit 0).2.2.2.2 PrioWfq.idle burst _ ⟨_, rfl⟩
      (RunWithin.of_replay_isSome PrioWfq.Sys.next_sound PrioWfq.burst_replays).run⟩⟩

end MqEcn.Kernel
