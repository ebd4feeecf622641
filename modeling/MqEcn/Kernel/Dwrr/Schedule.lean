import MqEcn.Kernel.Dwrr.Loop
import MqEcn.Library.RingSchedule

/-!
Contract: the schedule of `sch_dwrr` in DWRR mode with all queues in one priority.

Owns: the port the active list stands for, the action an event stands for, and the
simulation of every such run by the runs of the port.

Does not own: what the token bucket refuses, and drops.
-/

set_option autoImplicit false

namespace MqEcn.Kernel.Dwrr

open MqEcn.Kernel
open MqEcn.Library
open MqEcn.Library.RingSchedule
open MqEcn.Library.Transition
open MqEcn.Library.Word
open Relation (ReflTransGen)

/-- The packets of a queue as the port counts them. -/
def sizes (q : DwrrSchedData) (i : Fin 8) : List Nat := (q.queues i).qdisc.map skbSize

/-- The active list of priority `prio` with the deficits of its queues. -/
def port (prio : Fin 8) (q : DwrrSchedData) : Port Nat :=
  .numbered (q.active prio) (fun i => (q.queues i).deficit) (sizes q)

/-- What an event stands for; a refused packet and a throttled dequeue stand for nothing. -/
def action (params : Params) : Event Param → Option (Action Nat)
  | .enqueue _ skb .success => some (.accept (dwrrClassify params skb) (skbSize skb))
  | .dequeue _ .null => some (.dequeue none)
  | .dequeue _ (.packet i skb) => some (.dequeue (some ((i : Nat), skbSize skb)))
  | _ => none

/-- The quantum of a queue by its number. -/
def quanta (params : Params) : Nat → Nat := spread params.queueQuantum

section

variable {params : Params} {prio i : Fin 8} {now : Int} {q q' : DwrrSchedData}
  {ring : List (Fin 8)}

private theorem sizes_front {skb : Skb} {rest : List Skb}
    (front : (q.queues i).qdisc = skb :: rest) :
    sizes q i = skbSize skb :: rest.map skbSize := by
  unfold sizes
  rw [front]
  rfl

/-- Where no queue holds a packet, none is listed. -/
theorem port_of_empty (linked : Linked q) (empty : ∀ i, (q.queues i).qdisc = []) :
    port prio q = Port.empty := by
  have unlisted : q.active prio = [] := List.eq_nil_iff_forall_not_mem.mpr fun i member =>
    (linked.mem_iff.mp member).2 (empty i)
  unfold port
  rw [unlisted]
  apply Port.numbered_nil
  intro i
  unfold sizes
  rw [empty, List.map_nil]

/-- The head is listed once. -/
theorem Linked.head_fresh (linked : Linked q) (head : q.active prio = i :: ring) : i ∉ ring := by
  have nodup := linked.nodup prio
  rw [head] at nodup
  exact (List.nodup_cons.mp nodup).1

/-- A rotation is a turn. -/
theorem turns_of_rotates (dwrr : params.value .enableWrr = 0) (linked : Linked q)
    (stored : StoredWithin 2000024 q) (rotates : Rotates params prio q q') :
    Turns (quanta params) (port prio q) (port prio q') := by
  cases rotates with
  | @intro i ring skb rest head front blocked =>
      have granted := rotate_deficit_exact prio dwrr (by decide) stored front blocked
      have after : (dwrrRotate params prio i q).active prio = ring ++ [i] := by
        rw [dwrrRotate_active, Function.update_self, head, List.erase_cons_head]
      unfold port quanta
      rw [head, after]
      apply turns_numbered (linked.head_fresh head) (sizes_front front) blocked
      · intro k other
        exact dwrrRotate_deficit_of_ne _ _ _ other
      · rw [granted i]
        unfold grantedDeficit
        rw [if_pos rfl]
      · intro k
        unfold sizes
        rw [qdisc_of_view (view_rotate params prio i q)]

private theorem turns_of_rotations {middle : DwrrSchedData} (dwrr : params.value .enableWrr = 0)
    (linked : Linked q) (stored : StoredWithin 2000024 q)
    (rotations : ReflTransGen (Rotates params prio) q middle) :
    ReflTransGen (Turns (quanta params)) (port prio q) (port prio middle) := by
  induction rotations with
  | refl => exact .refl
  | tail before last inductionHypothesis =>
      exact inductionHypothesis.tail (turns_of_rotates dwrr (linked.rotations before)
        (stored.of_view (view_of_rotations before)) last)

/-- A packet that leaves is sent by the port. -/
theorem sends_of_transmit {skb : Skb} {rest : List Skb} {result : Int} (linked : Linked q)
    (fit : DeficitsFit q) (head : q.active prio = i :: ring)
    (front : (q.queues i).qdisc = skb :: rest) (affordable : skbSize skb ≤ (q.queues i).deficit) :
    Sends (port prio q) (some ((i : Nat), skbSize skb))
      (port prio (dwrrTransmit params now prio i skb rest result q).1) := by
  have after : (dwrrTransmit params now prio i skb rest result q).1.active prio =
      if rest.map skbSize = [] then ring else i :: ring := by
    rw [dwrrTransmit_active]
    by_cases last : rest = []
    · rw [if_pos last, if_pos (List.map_eq_nil_iff.mpr last), Function.update_self, head,
        List.erase_cons_head]
    · rw [if_neg last, if_neg (mt List.map_eq_nil_iff.mp last), head]
  unfold port
  rw [head, after]
  apply sends_numbered (linked.head_fresh head) (sizes_front front) affordable
  · intro k other
    exact dwrrTransmit_deficit_of_ne _ _ _ _ _ _ _ other
  · intro more
    rw [dwrrTransmit_deficit, u32Sub_of_le (fit i) affordable]
  · intro k
    unfold sizes
    rw [dwrrTransmit_qdisc]
    by_cases same : k = i
    · subst same
      rw [if_pos rfl, Function.update_self]
    · rw [if_neg same, Function.update_of_ne same]

/-- A packet that is stored is accepted by the port. -/
theorem accept_of_stored (linked : Linked q) (skb : Skb) :
    port prio (dwrrAdmit params now i prio skb q) =
      (port prio q).accept (quanta params) i (skbSize skb) := by
  obtain ⟨marked, sameLen, fifo⟩ := dwrrAdmit_qdisc params now i prio skb q
  have idle_iff : sizes q i = [] ↔ (q.queues i).qdisc = [] := List.map_eq_nil_iff
  have after : (dwrrAdmit params now i prio skb q).active prio =
      if sizes q i = [] then q.active prio ++ [i] else q.active prio := by
    rw [dwrrAdmit_active]
    by_cases idle : (q.queues i).qdisc = []
    · rw [if_pos idle, if_pos (idle_iff.mpr idle), Function.update_self]
    · rw [if_neg idle, if_neg (mt idle_iff.mp idle)]
  unfold port quanta
  rw [after]
  apply accept_numbered
  · intro idle member
    exact (linked.mem_iff.mp member).2 (idle_iff.mp idle)
  · intro k other
    rw [dwrrAdmit_deficit, if_neg fun both => other both.1]
  · rw [dwrrAdmit_deficit]
    by_cases idle : (q.queues i).qdisc = []
    · rw [if_pos ⟨rfl, idle⟩, if_pos (idle_iff.mpr idle)]
    · rw [if_neg fun both => idle both.2, if_neg (mt idle_iff.mp idle)]
  · intro k
    rw [← skbSize_eq_of_len_eq sameLen]
    unfold sizes
    rw [fifo k]
    by_cases same : k = i
    · subst same
      rw [if_pos rfl, Function.update_self, List.map_append]
      rfl
    · rw [if_neg same, Function.update_of_ne same, List.append_nil]

end

/-! ### Runs -/

/-- What the simulation of a port with the given parameters rests on. -/
structure OnePriority (params : Params) (prio : Fin 8) (s : Sys) : Prop where
  params : s.params = params
  linked : Linked s.q
  balanced : (view s.q).Balanced
  fit : DeficitsFit s.q
  elsewhere : ∀ other ≠ prio, s.q.active other = []

section

variable {bfifo : Bfifo} {params : Params} {prio : Fin 8} {s s' : Sys} {event : Event Param}
  {q q' : DwrrSchedData}

/-- A state that is reached and holds nothing. -/
theorem OnePriority.of_reachable (bounded : bfifo.Bounded) (reachable : Reachable bfifo s)
    (empty : ∀ i, (s.q.queues i).qdisc = []) : OnePriority s.params prio s := by
  have linked := linked_of_reachable reachable
  refine ⟨rfl, linked, balanced_of_reachable bounded reachable, deficitsFit_of_reachable reachable,
    fun other _ => List.eq_nil_iff_forall_not_mem.mpr fun i member => ?_⟩
  exact (linked.mem_iff.mp member).2 (empty i)

private theorem active_of_rotations {other : Fin 8} (elsewhere : other ≠ prio)
    (rotations : ReflTransGen (Rotates params prio) q q') : q'.active other = q.active other := by
  induction rotations with
  | refl => rfl
  | tail _ last inductionHypothesis =>
      cases last with
      | intro =>
          rw [dwrrRotate_active, Function.update_of_ne elsewhere]
          exact inductionHypothesis

/-- The other active lists stay empty. -/
theorem elsewhere_of_step (step : Step bfifo s event s')
    (prios : ∀ i, s.params.queuePrio i = prio)
    (elsewhere : ∀ other ≠ prio, s.q.active other = []) :
    ∀ other ≠ prio, s'.q.active other = [] := by
  intro other apart
  cases step with
  | enqueue later returns =>
      rcases dwrrEnqueue_cases returns with ⟨roundTime, ⟨_, rfl⟩ | ⟨_, _, rfl⟩⟩
      · exact elsewhere other apart
      · rw [prios, dwrrAdmit_active]
        split
        · rw [Function.update_of_ne apart]
          exact elsewhere other apart
        · exact elsewhere other apart
  | dequeue later returns =>
      rcases dwrrDequeue_cases returns with ⟨_, rfl, _⟩ | ⟨used, middle, selected, rotations, exit⟩
      · exact elsewhere other apart
      · have busy := (prioSchedule_eq_some selected).1
        obtain rfl : used = prio := by
          by_contra different
          exact busy (elsewhere used different)
        have same := (active_of_rotations apart rotations).trans (elsewhere other apart)
        cases exit with
        | fault | null | throttled => exact same
        | packet =>
            rw [dwrrTransmit_active]
            split
            · rw [Function.update_of_ne apart]
              exact same
            · exact same
  | sysctl => exact elsewhere other apart
  | change => exact elsewhere other apart

/-- An event that stands for an action does to the port what the action does. -/
theorem OnePriority.step {act : Action Nat} (bounded : bfifo.Bounded)
    (dwrr : params.value .enableWrr = 0) (prios : ∀ i, params.queuePrio i = prio)
    (related : OnePriority params prio s) (step : Step bfifo s event s')
    (stands : action params event = some act) :
    RingSchedule.Step (quanta params) (port prio s.q) act (port prio s'.q) ∧
      OnePriority params prio s' := by
  rcases related with ⟨same, linked, balanced, fit, elsewhere⟩
  subst same
  have after : s'.params = s.params → OnePriority s.params prio s' := fun same =>
    ⟨same, linked.step step, balanced_step bounded step linked balanced, fit.step step,
      elsewhere_of_step step prios elsewhere⟩
  cases step with
  | @enqueue now skb q' ret later returns =>
      refine ⟨?_, after rfl⟩
      rcases dwrrEnqueue_cases returns with ⟨roundTime, ⟨refuses, _⟩ | ⟨rfl, _, rfl⟩⟩
      · cases ret with
        | success => exact absurd rfl refuses
        | drop | cn => cases stands
      · cases stands
        rw [prios]
        have accepted := @accept_of_stored s.params prio (dwrrClassify s.params skb) now
          { s.q with roundTime } linked skb
        show RingSchedule.Step _ (port prio { s.q with roundTime }) _ (port prio _)
        rw [accepted]
        exact .accept _ _
  | @dequeue now fuel q' outcome later returns =>
      refine ⟨?_, after rfl⟩
      rcases dwrrDequeue_cases returns with ⟨idle, rfl, rfl⟩ |
        ⟨used, middle, selected, rotations, exit⟩
      · cases stands
        refine .dequeue .refl (.idle ?_)
        unfold port
        rw [prioSchedule_eq_none idle prio]
        rfl
      · have busy := (prioSchedule_eq_some selected).1
        obtain rfl : used = prio := by
          by_contra different
          exact busy (elsewhere used different)
        have rotated := linked.rotations rotations
        have turns := turns_of_rotations dwrr linked (storedWithin_of_balanced balanced) rotations
        cases exit with
        | fault => cases stands
        | null head empty => exact absurd empty (rotated.head head).2
        | throttled => cases stands
        | packet head front affordable enough =>
            cases stands
            rw [skbSize_eq_of_len_eq (dwrrTransmit_markedFrom _ _ _ _ _ _ _ _).len_eq]
            exact .dequeue turns
              (sends_of_transmit rotated (fit.rotations rotations) head front affordable)
  | sysctl => cases stands
  | change => cases stands

/-- A run in DWRR mode with all queues in one priority is a run of the port. -/
theorem OnePriority.run {last : Sys} {events : List (Event Param)} {actions : List (Action Nat)}
    (bounded : bfifo.Bounded) (dwrr : params.value .enableWrr = 0)
    (prios : ∀ i, params.queuePrio i = prio) (related : OnePriority params prio s)
    (run : Run (Step bfifo) s events last)
    (stand : events.map (action params) = actions.map some) :
    Run (RingSchedule.Step (quanta params)) (port prio s.q) actions (port prio last.q) ∧
      OnePriority params prio last := by
  obtain ⟨finish, abstract, rfl, holds⟩ :=
    Run.refine (fun s shown => shown = port prio s.q ∧ OnePriority params prio s)
      (fun step stands related => by
        rcases related with ⟨rfl, holds⟩
        rcases holds.step bounded dwrr prios step stands with ⟨answers, after⟩
        exact ⟨_, answers, rfl, after⟩) run stand ⟨rfl, related⟩
  exact ⟨abstract, holds⟩

end

end MqEcn.Kernel.Dwrr
