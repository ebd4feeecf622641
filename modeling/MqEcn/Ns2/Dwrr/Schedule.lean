import MqEcn.Library.RingSchedule
import MqEcn.Ns2.Dwrr.Invariant

/-!
Contract: the schedule of the NS2 DWRR discipline.

Owns: the port the queues and the chain of the active list stand for, the action an event
stands for, and the simulation of every run by the runs of the port.

Does not own: drops, and the commands that change a quantum.
-/

set_option autoImplicit false

namespace MqEcn.Ns2.Dwrr

open MqEcn.Library
open MqEcn.Library.RingSchedule
open MqEcn.Library.Transition
open Relation (ReflTransGen)

/-- The packets of a queue as the port counts them. -/
def sizes (slots : Fin 64 → Slot) (i : Fin 64) : List Nat := (slots i).packets.map Packet.size

/-- The queues in `ring` with what they may send. -/
def port (slots : Fin 64 → Slot) (ring : List (Fin 64)) : Port Nat :=
  .numbered ring (fun i => (slots i).credit.toNat) (sizes slots)

/-- What an event stands for; a dropped packet, a command and a timeout stand for nothing. -/
def action (config : Config) : Event Command → Option (Action Nat)
  | .enque _ p true => some (.accept (classify config p) p.size)
  | .deque _ none => some (.dequeue none)
  | .deque _ (some (i, pkt)) => some (.dequeue (some ((i : Nat), pkt.size)))
  | _ => none

/-- The quantum of a queue by its number. -/
def quanta (quantum : Fin 64 → Int) : Nat → Nat := spread fun i => (quantum i).toNat

theorem quanta_pos {quantum : Fin 64 → Int} {i : Fin 64} (positive : 0 < quantum i) :
    0 < quanta quantum i := by
  unfold quanta
  rw [spread_val]
  omega

theorem quanta_cast {quantum : Fin 64 → Int} {i : Fin 64} (positive : 0 < quantum i) :
    (quanta quantum i : ℚ) = quantum i := by
  unfold quanta
  rw [spread_val]
  exact_mod_cast Int.toNat_of_nonneg positive.le

section

variable {quantum : Fin 64 → Int} {slots : Fin 64 → Slot} {i : Fin 64} {ring tail : List (Fin 64)}

private theorem sizes_front {pkt : Packet} {rest : List Packet}
    (front : (slots i).packets = pkt :: rest) :
    sizes slots i = pkt.size :: rest.map Packet.size := by
  unfold sizes
  rw [front]
  rfl

/-- A port whose queues hold nothing. -/
theorem port_of_empty (empty : ∀ i, (slots i).packets = []) : port slots [] = Port.empty := by
  apply Port.numbered_nil
  intro i
  unfold sizes
  rw [empty, List.map_nil]

/-- Where one slot is replaced, only its packets can change. -/
theorem sizes_update (slots : Fin 64 → Slot) (i : Fin 64) (slot : Slot) (k : Fin 64) :
    sizes (Function.update slots i slot) k =
      Function.update (sizes slots) i (slot.packets.map Packet.size) k := by
  unfold sizes
  by_cases same : k = i
  · subst same
    rw [Function.update_self, Function.update_self]
  · rw [Function.update_of_ne same, Function.update_of_ne same]

/-- Where one slot is replaced, the others may send what they could before. -/
theorem credit_of_ne (slot : Slot) (k : Fin 64) (other : k ≠ i) :
    (Function.update slots i slot k).credit.toNat = (slots k).credit.toNat := by
  rw [Function.update_of_ne other]

/-- The head is listed once. -/
theorem Ordered.head_fresh (ordered : Ordered slots (i :: tail)) : i ∉ tail :=
  (List.nodup_cons.mp ordered.nodup).1

/-- A queue that is not active holds no packet. -/
theorem Ordered.idle_of_inactive {ring : List (Fin 64)} (ordered : Ordered slots ring)
    (inactive : (slots i).active = false) : (slots i).packets = [] := by
  by_contra busy
  rw [(ordered.active_iff i).mpr busy] at inactive
  cases inactive

/-- A pass of the loop that moves the head to the tail is a turn. -/
theorem turns_of_pass {before after : (Fin 64 → Slot) × List (Fin 64)}
    (constant : ∀ k, (before.1 k).quantum = quantum k) (ordered : Ordered before.1 before.2)
    (pass : Passes before after) :
    Turns (quanta quantum) (port before.1 before.2) (port after.1 after.2) := by
  cases pass with
  | @intro slots i tail pkt rest front blocked =>
      have first : Ordered slots (i :: tail) := ordered
      have credit := Slot.credit_nonneg (first.deficit i) (first.quantum i)
      have grant : (slots i).quantum = quantum i := constant i
      have positive := first.quantum i
      have short : (slots i).credit.toNat < pkt.size := by omega
      apply turns_numbered first.head_fresh (sizes_front front) short
      · exact credit_of_ne (slots i).turned
      · show (Function.update slots i (slots i).turned i).credit.toNat =
          (slots i).credit.toNat + (quantum i).toNat
        rw [Function.update_self, Slot.turned_credit, Int.toNat_add credit positive.le, grant]
      · intro k
        show sizes (Function.update slots i (slots i).turned) k = sizes slots k
        rw [sizes_update, Slot.turned_packets]
        show Function.update (sizes slots) i (sizes slots i) k = sizes slots k
        rw [Function.update_eq_self]

theorem turns_of_passes {before after : (Fin 64 → Slot) × List (Fin 64)}
    (constant : ∀ k, (before.1 k).quantum = quantum k) (ordered : Ordered before.1 before.2)
    (passes : ReflTransGen Passes before after) :
    ReflTransGen (Turns (quanta quantum)) (port before.1 before.2) (port after.1 after.2) := by
  induction passes with
  | refl => exact .refl
  | tail during last inductionHypothesis =>
      exact inductionHypothesis.tail (turns_of_pass
        (fun k => ((passes_frame_of_run during k).2).trans (constant k)) (ordered.passes during)
        last)

/-- What a queue may send once it has sent a packet of the visit. -/
theorem Slot.visit_sent_credit (slot : Slot) (size : Nat) {rest : List Packet}
    (more : rest ≠ []) : (slot.visit.sent size rest).credit = slot.credit - size := by
  unfold Slot.sent
  rw [if_neg more, Slot.visit_eq]
  show slot.credit - size + 0 = slot.credit - size
  exact add_zero _

theorem Slot.visit_sent_packets (slot : Slot) (size : Nat) (rest : List Packet) :
    (slot.visit.sent size rest).packets = rest := by
  unfold Slot.sent
  split
  next last => rfl
  next => rfl

private theorem Slot.visit_sent_quantum (slot : Slot) (size : Nat) (rest : List Packet) :
    (slot.visit.sent size rest).quantum = slot.quantum := by
  unfold Slot.sent
  rw [Slot.visit_eq]
  split
  next last => rfl
  next => rfl

/-- A packet that leaves is sent by the port. -/
theorem sends_of_serve {pkt : Packet} {rest : List Packet} (ordered : Ordered slots (i :: tail))
    (front : (slots i).packets = pkt :: rest) (affordable : pkt.size ≤ (slots i).credit) :
    Sends (port slots (i :: tail)) (some ((i : Nat), pkt.size))
      (port (Function.update slots i ((slots i).visit.sent pkt.size rest))
        (if rest = [] then tail else i :: tail)) := by
  have credit := Slot.credit_nonneg (ordered.deficit i) (ordered.quantum i)
  have enough : pkt.size ≤ (slots i).credit.toNat := by omega
  have after : (if rest = [] then tail else i :: tail) =
      if rest.map Packet.size = [] then tail else i :: tail := by
    simp only [List.map_eq_nil_iff]
  unfold port
  rw [after]
  apply sends_numbered ordered.head_fresh (sizes_front front) enough
  · exact credit_of_ne _
  · intro more
    rw [Function.update_self, Slot.visit_sent_credit _ _ (mt List.map_eq_nil_iff.mpr more)]
    omega
  · intro k
    rw [sizes_update, Slot.visit_sent_packets]

end

section

variable {config : Config} {quantum : Fin 64 → Int} {q q' : DwrrQueue} {ring ring' : List (Fin 64)}
  {p : Packet}

/-- A packet that is taken is accepted by the port. -/
theorem accept_of_joins {slots slots' : Fin 64 → Slot} {i : Fin 64} {marked : Packet}
    (ordered : Ordered slots ring) (constant : ∀ k, (slots k).quantum = quantum k)
    (joins : Joins i marked slots ring slots' ring') :
    port slots' ring' = (port slots ring).accept (quanta quantum) i marked.size := by
  have idle_iff : sizes slots i = [] ↔ (slots i).packets = [] := List.map_eq_nil_iff
  have unlisted : sizes slots i = [] → i ∉ ring :=
    fun idle member => (ordered.mem_iff _).mp member (idle_iff.mp idle)
  -- Both ways of taking a packet end with one slot replaced.
  have stores : ∀ {slot : Slot}, slot.packets = (slots i).packets ++ [marked] → ∀ k,
      sizes (Function.update slots i slot) k =
        Function.update (sizes slots) i (sizes slots i ++ [marked.size]) k := by
    intro slot stored k
    rw [sizes_update, stored, List.map_append]
    rfl
  cases joins with
  | activate inactive =>
      have idle := idle_iff.mpr (ordered.idle_of_inactive inactive)
      have listed : ring ++ [i] = if sizes slots i = [] then ring ++ [i] else ring :=
        (if_pos idle).symm
      rw [listed]
      apply accept_numbered unlisted
      · exact credit_of_ne _
      · rw [Function.update_self, if_pos idle, ← constant i]
        unfold Slot.credit
        simp only [Bool.false_eq_true, if_false, zero_add]
      · exact stores rfl
  | append active =>
      have busy := mt idle_iff.mp ((ordered.active_iff _).mp active)
      have listed : ring = if sizes slots i = [] then ring ++ [i] else ring := (if_neg busy).symm
      rw [show port _ ring = port _ (if sizes slots i = [] then ring ++ [i] else ring) from
        congrArg _ listed]
      apply accept_numbered unlisted
      · exact credit_of_ne _
      · rw [Function.update_self, if_neg busy]
        rfl
      · exact stores rfl

private theorem Joins.quantum_eq {slots slots' : Fin 64 → Slot} {i : Fin 64} {marked : Packet}
    (joins : Joins i marked slots ring slots' ring') (k : Fin 64) :
    (slots' k).quantum = (slots k).quantum := by
  cases joins with
  | activate | append =>
      by_cases same : k = i
      · subst same
        rw [Function.update_self]
      · rw [Function.update_of_ne same]

/-- A packet that is taken joins its queue. -/
theorem Enques.joins (enques : Enques config p q ring q' true ring') :
    ∃ marked, MarkedFrom p marked ∧
      Joins (classify config p) marked (slots q) ring (slots q') ring' := by
  cases enques with
  | @activate marked marker inactive after lists quantumSum =>
      rw [after]
      exact ⟨marked, marker, .activate inactive⟩
  | @append marked marker active after lists quantumSum =>
      rw [after]
      exact ⟨marked, marker, .append active⟩

end

/-! ### Runs -/

/-- What the simulation of the discipline with constant quanta rests on. -/
structure Constant (config : Config) (quantum : Fin 64 → Int) (s : Sys) (ring : List (Fin 64)) :
    Prop where
  unchanged : s.config = config
  quantum : ∀ i, (slots s.q i).quantum = quantum i
  valid : Valid config s.q ring

section

variable {pow : ℚ → ℚ → ℚ} {config : Config} {quantum : Fin 64 → Int} {s s' : Sys}
  {ring : List (Fin 64)} {event : Event Command}

/-- A state that is reached and holds nothing. -/
theorem Constant.of_reachable (reachable : Reachable pow s)
    (empty : ∀ i, (slots s.q i).packets = []) :
    Constant s.config (fun i => (slots s.q i).quantum) s [] := by
  rcases valid_of_reachable reachable with ⟨ring, valid⟩
  obtain rfl : ring = [] := List.eq_nil_iff_forall_not_mem.mpr fun i member =>
    (valid.ordered.mem_iff i).mp member (empty i)
  exact ⟨rfl, fun _ => rfl, valid⟩

/-- An event that stands for an action does to the port what the action does. -/
theorem Constant.step {act : Action Nat} (related : Constant config quantum s ring)
    (step : Step pow s event s') (stands : action config event = some act) :
    ∃ ring', RingSchedule.Step (quanta quantum) (port (slots s.q) ring) act
        (port (slots s'.q) ring') ∧ Constant config quantum s' ring' := by
  rcases related with ⟨same, constant, valid⟩
  subst same
  cases step with
  | @enque now p q' taken later returns =>
      rcases valid.enque_cases returns with ⟨ring', enques⟩
      cases taken with
      | false => cases stands
      | true =>
          cases stands
          rcases enques.joins with ⟨marked, marker, joins⟩
          refine ⟨ring', ?_, rfl, fun k => (joins.quantum_eq k).trans (constant k),
            valid.enque enques⟩
          show RingSchedule.Step _ _ _ (port (slots q') ring')
          rw [accept_of_joins valid.ordered constant joins, marker.1]
          exact .accept _ _
  | @deque now fuel q' pkt later returns =>
      rcases valid.deque_cases returns with ⟨ring', deques⟩
      have after := valid.deque deques
      cases deques with
      | idle empty same =>
          cases stands
          refine ⟨ring, ?_, rfl, fun k => ?_, after⟩
          · show RingSchedule.Step _ _ _ (port (slots q') ring)
            rw [same.slots, valid.totalByteLength_eq_zero_iff.mp empty]
            exact .dequeue .refl (.idle rfl)
          · show (slots q' k).quantum = quantum k
            rw [same.slots]
            exact constant k
      | @send middle choice tail marked busy passes front affordable marker result lists sum =>
          cases stands
          have ordered : Ordered middle (choice.queue :: tail) := valid.ordered.passes passes
          have frame := passes_frame_of_run passes
          refine ⟨_, ?_, rfl, fun k => ?_, after⟩
          · show RingSchedule.Step _ _ _ (port (slots q') _)
            rw [result, marker.1]
            exact .dequeue (turns_of_passes constant valid.ordered passes)
              (sends_of_serve ordered front affordable)
          · show (slots q' k).quantum = quantum k
            rw [result, ← constant k, ← (frame k).2]
            by_cases same : k = choice.queue
            · subst same
              rw [Function.update_self, Slot.visit_sent_quantum]
            · rw [Function.update_of_ne same]
  | command => cases stands
  | timeout => cases stands

/-- A run with constant quanta is a run of the port. -/
theorem Constant.run {last : Sys} {events : List (Event Command)} {actions : List (Action Nat)}
    (related : Constant config quantum s ring) (run : Run (Step pow) s events last)
    (stand : events.map (action config) = actions.map some) :
    ∃ ring', Run (RingSchedule.Step (quanta quantum)) (port (slots s.q) ring) actions
        (port (slots last.q) ring') ∧ Constant config quantum last ring' := by
  obtain ⟨finish, abstract, ring', rfl, holds⟩ :=
    Run.refine (fun s shown => ∃ ring, shown = port (slots s.q) ring ∧
      Constant config quantum s ring)
      (fun step stands related => by
        rcases related with ⟨ring, rfl, holds⟩
        rcases holds.step step stands with ⟨ring', answers, after⟩
        exact ⟨_, answers, ring', rfl, after⟩) run stand ⟨ring, rfl, related⟩
  exact ⟨ring', abstract, holds⟩

end

end MqEcn.Ns2.Dwrr
