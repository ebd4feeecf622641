import MqEcn.Kernel.Dwrr.Schedule
import MqEcn.Kernel.PrioDwrr.Schedule
import MqEcn.Ns2.Dwrr.Schedule

/-!
Contract: `sch_dwrr`, the DWRR queues of `sch_prio_dwrr` and the NS2 DWRR discipline realise
one schedule.

Owns: what runs of the three are compared, how their states correspond, and that the same
operations make them put out the same packets. A packet is known by its queue and its size:
every queue is a FIFO.

Does not own: the simulation of each of the three by the port.
-/

set_option autoImplicit false

namespace MqEcn.Comparison

open MqEcn.Kernel
open MqEcn.Library.RingSchedule
open MqEcn.Library.Transition

/-- The queue of `sch_dwrr` that has the number of a DWRR queue of `sch_prio_dwrr`. -/
def dwrrQueue : Fin 7 → Fin 8 := Fin.castLE (by decide)

/-- The queue of the NS2 discipline that has this number. -/
def ns2Queue : Fin 7 → Fin 64 := Fin.castLE (by decide)

/-- A run of `sch_dwrr` in DWRR mode with all queues in priority `prio`, from a state that holds
nothing. Its events stand for `actions`: it takes every packet, and no dequeue is throttled. -/
structure DwrrRun (bfifo : Bfifo) (prio : Fin 8) (start : Dwrr.Sys)
    (events : List (Event Dwrr.Param)) (actions : List (Action Nat)) (last : Dwrr.Sys) : Prop where
  reachable : Dwrr.Reachable bfifo start
  empty : ∀ i, (start.q.queues i).qdisc = []
  enableWrr : start.params.value .enableWrr = 0
  queuePrio : ∀ i, start.params.queuePrio i = prio
  run : Run (Dwrr.Step bfifo) start events last
  stand : events.map (Dwrr.action start.params) = actions.map some

/-- A run of `sch_prio_dwrr` that leaves its priority queue alone. -/
structure PrioDwrrRun (bfifo : Bfifo) (start : PrioDwrr.Sys)
    (events : List (Event PrioDwrr.Param)) (actions : List (Action Nat)) (last : PrioDwrr.Sys) :
    Prop where
  reachable : PrioDwrr.Reachable bfifo start
  prioEmpty : ∀ i, (start.q.prioQueues i).qdisc = []
  dwrrEmpty : ∀ i, (start.q.dwrrQueues i).qdisc = []
  run : Run (PrioDwrr.Step bfifo) start events last
  stand : events.map (PrioDwrr.action start.params) = actions.map some

/-- A run of the NS2 discipline. -/
structure Ns2Run (pow : ℚ → ℚ → ℚ) (start : Ns2.Dwrr.Sys)
    (events : List (Ns2.Event Ns2.Dwrr.Command)) (actions : List (Action Nat))
    (last : Ns2.Dwrr.Sys) : Prop where
  reachable : Ns2.Dwrr.Reachable pow start
  empty : ∀ i, (start.q.queues i).packets = []
  run : Run (Ns2.Dwrr.Step pow) start events last
  stand : events.map (Ns2.Dwrr.action start.config) = actions.map some

/-- Every queue has the same quantum in all three. -/
structure SameQuanta (dwrr : Dwrr.Params) (prioDwrr : PrioDwrr.Params)
    (ns2 : Ns2.Dwrr.DwrrQueue) : Prop where
  dwrr : ∀ i, dwrr.queueQuantum (dwrrQueue i) = prioDwrr.queueQuantum i
  ns2 : ∀ i, (ns2.queues (ns2Queue i)).quantum = prioDwrr.queueQuantum i

/-- The states correspond: the active lists are in the same order, the FIFOs hold the same, and
the deficit of an active queue of `sch_dwrr` is the counter of the other two with the quantum
of a visit that is still due. -/
structure Alike (prio : Fin 8) (dwrr : Dwrr.DwrrSchedData) (prioDwrr : PrioDwrr.PrioDwrrSchedData)
    (ns2 : Ns2.Dwrr.DwrrQueue) : Prop where
  active : dwrr.active prio = prioDwrr.activeList.map dwrrQueue
  ns2Active : Ns2.Dwrr.Lists ns2 (prioDwrr.activeList.map ns2Queue)
  fifo : ∀ i, (dwrr.queues (dwrrQueue i)).qdisc.map skbSize =
    (prioDwrr.dwrrQueues i).qdisc.map skbSize
  ns2Fifo : ∀ i, (ns2.queues (ns2Queue i)).packets.map Ns2.Packet.size =
    (prioDwrr.dwrrQueues i).qdisc.map skbSize
  deficit : ∀ i ∈ prioDwrr.activeList, (dwrr.queues (dwrrQueue i)).deficit =
    (prioDwrr.dwrrQueues i).deficitCounter +
      if (prioDwrr.dwrrQueues i).curr then 0 else (prioDwrr.dwrrQueues i).quantum
  ns2Deficit : ∀ i ∈ prioDwrr.activeList, ((dwrr.queues (dwrrQueue i)).deficit : Int) =
    (ns2.queues (ns2Queue i)).deficitCounter +
      if (ns2.queues (ns2Queue i)).current then 0 else (ns2.queues (ns2Queue i)).quantum

/-- The next operation of each of the three comes to its end, whatever it is. The enqueues of
the kernel have no loop. -/
structure Returns (pow : ℚ → ℚ → ℚ) (dwrr : Dwrr.Sys) (prioDwrr : PrioDwrr.Sys)
    (ns2 : Ns2.Dwrr.Sys) : Prop where
  dwrrDequeue : ∀ now, ∃ fuel result, Dwrr.dwrrDequeue dwrr.params now fuel dwrr.q = some result
  qdiscDequeue : ∀ now, ∃ fuel result,
    PrioDwrr.qdiscDequeue prioDwrr.params now fuel prioDwrr.q = some result
  deque : ∀ now, ∃ fuel result, Ns2.Dwrr.deque ns2.config now fuel ns2.q = some result
  enque : ∀ now p, ∃ result, Ns2.Dwrr.enque pow ns2.config now p ns2.q = some result

section

variable {bfifo bfifo' : Bfifo} {pow : ℚ → ℚ → ℚ} {prio : Fin 8} {dwrrStart dwrrLast : Dwrr.Sys}
  {prioStart prioLast : PrioDwrr.Sys} {ns2Start ns2Last : Ns2.Dwrr.Sys}
  {dwrrEvents : List (Event Dwrr.Param)} {prioEvents : List (Event PrioDwrr.Param)}
  {ns2Events : List (Ns2.Event Ns2.Dwrr.Command)}
  {dwrrActions prioActions ns2Actions : List (Action Nat)}

/-- What the run leads to, as a run of the port. -/
theorem DwrrRun.schedule (bounded : bfifo.Bounded)
    (dwrr : DwrrRun bfifo prio dwrrStart dwrrEvents dwrrActions dwrrLast) :
    Run (Step (Dwrr.quanta dwrrStart.params)) Port.empty dwrrActions
        (Dwrr.port prio dwrrLast.q) ∧
      Dwrr.OnePriority dwrrStart.params prio dwrrLast := by
  have related : Dwrr.OnePriority dwrrStart.params prio dwrrStart :=
    .of_reachable bounded dwrr.reachable dwrr.empty
  have simulated := related.run bounded dwrr.enableWrr dwrr.queuePrio dwrr.run dwrr.stand
  rwa [Dwrr.port_of_empty related.linked dwrr.empty] at simulated

private theorem PrioDwrrRun.schedule (bounded : bfifo.Bounded)
    (prioDwrr : PrioDwrrRun bfifo prioStart prioEvents prioActions prioLast) :
    Run (Step (PrioDwrr.quanta prioStart.params)) Port.empty prioActions
        (PrioDwrr.port prioLast.q) ∧
      PrioDwrr.NoPriority prioStart.params prioLast := by
  have related := PrioDwrr.NoPriority.of_reachable bounded prioDwrr.reachable prioDwrr.prioEmpty
    prioDwrr.dwrrEmpty
  have simulated := related.run bounded prioDwrr.run prioDwrr.stand
  rwa [PrioDwrr.port_of_empty related.steady.scheduled prioDwrr.dwrrEmpty] at simulated

private theorem Ns2Run.schedule (ns2 : Ns2Run pow ns2Start ns2Events ns2Actions ns2Last) :
    ∃ ring, Run (Step (Ns2.Dwrr.quanta fun i => (ns2Start.q.queues i).quantum)) Port.empty
        ns2Actions (Ns2.Dwrr.port (Ns2.Dwrr.slots ns2Last.q) ring) ∧
      Ns2.Dwrr.Valid ns2Start.config ns2Last.q ring ∧ ns2Last.config = ns2Start.config := by
  have related := Ns2.Dwrr.Constant.of_reachable ns2.reachable ns2.empty
  rcases related.run ns2.run ns2.stand with ⟨ring, simulated, after⟩
  rw [Ns2.Dwrr.port_of_empty ns2.empty] at simulated
  exact ⟨ring, simulated, after.valid, after.unchanged⟩

/-- The run takes packets of the seven DWRR queues only. -/
theorem PrioDwrrRun.within
    (prioDwrr : PrioDwrrRun bfifo prioStart prioEvents prioActions prioLast) :
    ∀ operation ∈ prioActions.map Action.operation, operation.Within (· < 7) := by
  intro operation member
  rcases List.mem_map.mp member with ⟨act, performed, rfl⟩
  have stands : some act ∈ prioEvents.map (PrioDwrr.action prioStart.params) := by
    rw [prioDwrr.stand]
    exact List.mem_map_of_mem performed
  rcases List.mem_map.mp stands with ⟨event, _, answer⟩
  exact PrioDwrr.action_within answer

/-- Ports that read the same stand for states that correspond. -/
theorem alike_of_ports {config : Ns2.Dwrr.Config} {dwrr : Dwrr.DwrrSchedData}
    {prioDwrr : PrioDwrr.PrioDwrrSchedData} {ns2 : Ns2.Dwrr.DwrrQueue} {ring : List (Fin 64)}
    (valid : Ns2.Dwrr.Valid config ns2 ring)
    (dwrrPort : Dwrr.port prio dwrr = PrioDwrr.port prioDwrr)
    (ns2Port : Ns2.Dwrr.port (Ns2.Dwrr.slots ns2) ring = PrioDwrr.port prioDwrr) :
    Alike prio dwrr prioDwrr ns2 := by
  rcases numbered_castLE (by decide) dwrrPort with ⟨active, deficit, fifo⟩
  rcases numbered_castLE (by decide) ns2Port with ⟨ns2Active, ns2Deficit, ns2Fifo⟩
  subst ns2Active
  refine ⟨active, valid.lists, fifo, ns2Fifo, deficit, fun i member => ?_⟩
  · have nonneg := Ns2.Dwrr.Slot.credit_nonneg (valid.ordered.deficit (ns2Queue i))
      (valid.ordered.quantum (ns2Queue i))
    have same : (dwrr.queues (dwrrQueue i)).deficit =
        (Ns2.Dwrr.slots ns2 (ns2Queue i)).credit.toNat :=
      (deficit i member).trans (ns2Deficit i member).symm
    show ((dwrr.queues (dwrrQueue i)).deficit : Int) = (Ns2.Dwrr.slots ns2 (ns2Queue i)).credit
    omega

/-- The loops of the dequeues end, and the NS2 active list takes every packet. -/
theorem returns_of_schedule {ring : List (Fin 64)}
    (mode : dwrrLast.params.value .enableWrr = 0) (balanced : (Dwrr.view dwrrLast.q).Balanced)
    (steady : PrioDwrr.Steady prioLast.q) (valid : Ns2.Dwrr.Valid ns2Last.config ns2Last.q ring) :
    Returns pow dwrrLast prioLast ns2Last where
  dwrrDequeue := by
    intro now
    obtain ⟨fuel, result, returns⟩ := Dwrr.dwrrDequeue_returns mode (by decide) now
      (Dwrr.storedWithin_of_balanced balanced)
    exact ⟨fuel, result, returns fuel le_rfl⟩
  qdiscDequeue := fun now => PrioDwrr.qdiscDequeue_returns prioLast.params now steady
  deque := by
    intro now
    rcases valid.deque_returns now with ⟨fuel, q', pkt, returns, _⟩
    exact ⟨fuel, (q', pkt), returns fuel le_rfl⟩
  enque := by
    intro now p
    have active_iff : ∀ k, (Ns2.Dwrr.slots ns2Last.q k).active = true ↔ k ∈ ring := fun k =>
      (valid.ordered.active_iff k).trans (valid.ordered.mem_iff k).symm
    obtain ⟨q', taken, _, returns, _⟩ :=
      Ns2.Dwrr.enque_returns pow ns2Last.config now p valid.lists active_iff
    exact ⟨(q', taken), returns⟩

/-- Flows below 7 have the quanta of `sch_prio_dwrr` in the other two as well. -/
theorem SameQuanta.agree {dwrr : Dwrr.Params} {prioDwrr : PrioDwrr.Params}
    {ns2 : Ns2.Dwrr.DwrrQueue} (same : SameQuanta dwrr prioDwrr ns2) {flow : Nat}
    (inside : flow < 7) :
    Dwrr.quanta dwrr flow = PrioDwrr.quanta prioDwrr flow ∧
      Ns2.Dwrr.quanta (fun i => (ns2.queues i).quantum) flow = PrioDwrr.quanta prioDwrr flow := by
  obtain ⟨i, rfl⟩ : ∃ i : Fin 7, (i : Nat) = flow := ⟨⟨flow, inside⟩, rfl⟩
  have prioValue : PrioDwrr.quanta prioDwrr i = prioDwrr.queueQuantum i := spread_val _ i
  have dwrrValue : Dwrr.quanta dwrr i = dwrr.queueQuantum (dwrrQueue i) :=
    spread_val dwrr.queueQuantum (dwrrQueue i)
  have ns2Value : Ns2.Dwrr.quanta (fun i => (ns2.queues i).quantum) i =
      (ns2.queues (ns2Queue i)).quantum.toNat :=
    spread_val (fun i => (ns2.queues i).quantum.toNat) (ns2Queue i)
  rw [prioValue, dwrrValue, ns2Value, same.dwrr i, same.ns2 i]
  exact ⟨rfl, Int.toNat_natCast _⟩

/-- **One schedule.** Whatever packets the three take, in whatever order and with whatever
dequeues between them, with the same quanta they put out the same packets and their states
correspond. -/
theorem schedule_eq (bounded : bfifo.Bounded) (bounded' : bfifo'.Bounded)
    (dwrr : DwrrRun bfifo prio dwrrStart dwrrEvents dwrrActions dwrrLast)
    (prioDwrr : PrioDwrrRun bfifo' prioStart prioEvents prioActions prioLast)
    (ns2 : Ns2Run pow ns2Start ns2Events ns2Actions ns2Last)
    (sameQuanta : SameQuanta dwrrStart.params prioStart.params ns2Start.q)
    (asked : dwrrActions.map Action.operation = prioActions.map Action.operation)
    (ns2Asked : ns2Actions.map Action.operation = prioActions.map Action.operation) :
    dwrrActions = prioActions ∧ ns2Actions = prioActions ∧
      Alike prio dwrrLast.q prioLast.q ns2Last.q ∧ Returns pow dwrrLast prioLast ns2Last := by
  rcases dwrr.schedule bounded with ⟨dwrrRuns, onePriority⟩
  rcases prioDwrr.schedule bounded' with ⟨prioRuns, noPriority⟩
  rcases ns2.schedule with ⟨ring, ns2Runs, valid, sameConfig⟩
  -- The quanta agree on the flows that are served, and only those matter.
  have within := prioDwrr.within
  have nothing : Port.empty.Within (· < 7) := List.forall_mem_nil _
  have inside : ∀ {actions : List (Action Nat)},
      actions.map Action.operation = prioActions.map Action.operation →
        ∀ act ∈ actions, act.operation.Within (· < 7) := by
    intro actions same act member
    apply within
    rw [← same]
    exact List.mem_map_of_mem member
  have dwrrRuns' := run_congr (fun _ served => (sameQuanta.agree served).1) nothing (inside asked)
    dwrrRuns
  have ns2Runs' := run_congr (fun _ served => (sameQuanta.agree served).2) nothing
    (inside ns2Asked) ns2Runs
  rcases run_unique dwrrRuns' prioRuns asked with ⟨sameActions, dwrrPort⟩
  rcases run_unique ns2Runs' prioRuns ns2Asked with ⟨ns2SameActions, ns2Port⟩
  have mode : dwrrLast.params.value .enableWrr = 0 := by
    rw [onePriority.params]
    exact dwrr.enableWrr
  rw [← sameConfig] at valid
  exact ⟨sameActions, ns2SameActions, alike_of_ports valid dwrrPort ns2Port,
    returns_of_schedule mode onePriority.balanced noPriority.steady valid⟩

end

/-! ### Three runs -/

namespace Schedule

/-- `sch_dwrr` at 1 Gbit/s with a bucket that never runs dry. -/
def dwrrStart : Dwrr.Sys :=
  ⟨Dwrr.paramsInit.write .bucket 1000000, Dwrr.dwrrInit 0 125000000, 0⟩

/-- A jumbo frame, which two quanta do not pay for, arrives in queue 1 between two frames of
queue 0, and all leave. -/
def dwrrEvents : List (Event Dwrr.Param) :=
  [.enqueue 0 (fullFrame 0) .success, .enqueue 0 (jumboFrame 4) .success,
    .enqueue 0 (fullFrame 0) .success, .dequeue 1000000 (.packet 0 (fullFrame 0)),
    .dequeue 2000000 (.packet 0 (fullFrame 0)), .dequeue 3000000 (.packet 1 (jumboFrame 4)),
    .dequeue 4000000 .null]

/-- `sch_prio_dwrr` alike; DWRR queue `i` is queue `i + 1` of the qdisc. -/
def prioStart : PrioDwrr.Sys :=
  ⟨PrioDwrr.paramsInit.write .bucketNs 1000000, PrioDwrr.qdiscInit 0 125000000, 0⟩

def prioEvents : List (Event PrioDwrr.Param) :=
  [.enqueue 0 (fullFrame 4) .success, .enqueue 0 (jumboFrame 8) .success,
    .enqueue 0 (fullFrame 4) .success, .dequeue 1000000 (.packet 1 (fullFrame 4)),
    .dequeue 2000000 (.packet 1 (fullFrame 4)), .dequeue 3000000 (.packet 2 (jumboFrame 8)),
    .dequeue 4000000 .null]

/-- Seven queues of the NS2 discipline get the quanta of the kernel. -/
def ns2Quanta : List (Ns2.Event Ns2.Dwrr.Command) :=
  (List.range 7).map fun queueId => .command (.setQuantum queueId 1538)

private theorem ns2Quanta_replays : (replay (Ns2.Dwrr.Sys.next Ns2.wholePow 8) (fun _ => True)
    Ns2.Dwrr.fresh ns2Quanta).isSome = true := by
  decide

def ns2Start : Ns2.Dwrr.Sys := (replay (Ns2.Dwrr.Sys.next Ns2.wholePow 8) (fun _ => True)
  Ns2.Dwrr.fresh ns2Quanta).get ns2Quanta_replays

def ns2Frame : Ns2.Packet := Ns2.Dwrr.segment 0 1538 (by decide)

def ns2Jumbo : Ns2.Packet := Ns2.Dwrr.segment 1 4024 (by decide)

def ns2Events : List (Ns2.Event Ns2.Dwrr.Command) :=
  [.enque 0 ns2Frame true, .enque 0 ns2Jumbo true, .enque 0 ns2Frame true,
    .deque 1 (some (0, ns2Frame)), .deque 2 (some (0, ns2Frame)), .deque 3 (some (1, ns2Jumbo)),
    .deque 4 none]

/-- What all three do. -/
def actions : List (Action Nat) :=
  [.accept 0 1538, .accept 1 4024, .accept 0 1538, .dequeue (some (0, 1538)),
    .dequeue (some (0, 1538)), .dequeue (some (1, 4024)), .dequeue none]

private theorem dwrr_replays : (replay (Dwrr.Sys.next byteLimit 8) (fun _ => True) dwrrStart
    dwrrEvents).isSome = true := by
  decide

private theorem prio_replays : (replay (PrioDwrr.Sys.next byteLimit 8) (fun _ => True) prioStart
    prioEvents).isSome = true := by
  decide

private theorem ns2_replays : (replay (Ns2.Dwrr.Sys.next Ns2.wholePow 8) (fun _ => True) ns2Start
    ns2Events).isSome = true := by
  decide +kernel

/-- Where the runs end. -/
def dwrrLast : Dwrr.Sys := (replay (Dwrr.Sys.next byteLimit 8) (fun _ => True) dwrrStart
  dwrrEvents).get dwrr_replays

def prioLast : PrioDwrr.Sys := (replay (PrioDwrr.Sys.next byteLimit 8) (fun _ => True) prioStart
  prioEvents).get prio_replays

def ns2Last : Ns2.Dwrr.Sys := (replay (Ns2.Dwrr.Sys.next Ns2.wholePow 8) (fun _ => True)
  ns2Start ns2Events).get ns2_replays

private theorem dwrr_runs : DwrrRun byteLimit 0 dwrrStart dwrrEvents actions dwrrLast where
  reachable := ⟨dwrrStart, [], ⟨_, rfl⟩, .nil dwrrStart⟩
  empty := by decide
  enableWrr := by decide
  queuePrio := by decide
  run := (RunWithin.of_replay_isSome Dwrr.Sys.next_sound dwrr_replays).run
  stand := by decide

private theorem prio_runs : PrioDwrrRun byteLimit prioStart prioEvents actions prioLast where
  reachable := ⟨prioStart, [], ⟨_, rfl⟩, .nil prioStart⟩
  prioEmpty := by decide
  dwrrEmpty := by decide
  run := (RunWithin.of_replay_isSome PrioDwrr.Sys.next_sound prio_replays).run
  stand := by decide

private theorem ns2_runs : Ns2Run Ns2.wholePow ns2Start ns2Events actions ns2Last where
  reachable :=
    have initial : Ns2.Dwrr.Initial Ns2.Dwrr.fresh := rfl
    ⟨_, ns2Quanta, initial,
      (RunWithin.of_replay_isSome Ns2.Dwrr.Sys.next_sound ns2Quanta_replays).run⟩
  empty := by decide
  run := (RunWithin.of_replay_isSome Ns2.Dwrr.Sys.next_sound ns2_replays).run
  stand := by decide

private theorem sameQuanta : SameQuanta dwrrStart.params prioStart.params ns2Start.q where
  dwrr := by decide
  ns2 := by decide

end Schedule

open Schedule

theorem schedule_eq_of_jumbo : Alike 0 dwrrLast.q prioLast.q ns2Last.q ∧
    Returns Ns2.wholePow dwrrLast prioLast ns2Last :=
  (schedule_eq byteLimit_bounded byteLimit_bounded dwrr_runs prio_runs ns2_runs sameQuanta rfl
    rfl).2.2

end MqEcn.Comparison
