import Mathlib.Algebra.Order.BigOperators.Group.List
import MqEcn.Ns2.Wrr.Step

/-!
Contract: one quantum for each stay of the WRR cursor.

Owns: the invariant of the cursor and its allowance, the bytes of a stay, the number of moves
before a packet is sent, and a run on which that number is one more than the queues.

Does not own: the rule that lifts allowances to stays.
-/

set_option autoImplicit false

namespace MqEcn.Ns2.Wrr

open MqEcn.Library.Transition
open MqEcn.Library.Visits
open MqEcn.Ns2.Dwrr (maxQueueNum Command)

/-! ### The invariant -/

/-- A queue of which every visit is over leaves the whole quantum. -/
theorem allowance_of_left {cl : PacketWrr} (spent : cl.counterUpdated = false) :
    cl.allowance = cl.quantum := by
  unfold PacketWrr.allowance
  rw [spent]
  rfl

private theorem following_lt (config : Config) (current : Fin 64) :
    (config.following current : Nat) < config.queueNum :=
  Nat.mod_lt _ config.queueNum_range.1

/-- The cursor is on a queue of which it has sent `sent` bytes, and only there can an
allowance be in use. -/
structure Visiting (config : Config) (quantum : Fin 64 → Int) (q : WrrQueue) (sent : Nat) :
    Prop where
  cursor : (q.current : Nat) < config.queueNum
  others : ∀ i ≠ q.current, (q.queues i).counterUpdated = false
  quanta : ∀ i, (q.queues i).quantum = quantum i
  fits : ∀ i, ∀ pkt ∈ (q.queues i).packets, (pkt.size : Int) ≤ quantum i
  outside : ∀ i : Fin 64, config.queueNum ≤ i → (q.queues i).packets = []
  allowed : (q.queues q.current).allowance = quantum q.current - sent
  unspent : (q.queues q.current).counterUpdated = false → sent = 0

namespace Visiting

variable {config : Config} {quantum : Fin 64 → Int} {q q' : WrrQueue} {sent : Nat}

/-- What leaves the quanta, the allowances, the packets and the cursor leaves the invariant. -/
theorem congr (visiting : Visiting config quantum q sent) (current : q'.current = q.current)
    (same : ∀ i, ∃ thresh startTime drain,
      q'.queues i = { q.queues i with thresh, startTime, drain }) :
    Visiting config quantum q' sent := by
  have quanta : ∀ i, (q'.queues i).quantum = (q.queues i).quantum := by
    intro i
    obtain ⟨thresh, startTime, drain, equal⟩ := same i
    rw [equal]
  have updated : ∀ i, (q'.queues i).counterUpdated = (q.queues i).counterUpdated := by
    intro i
    obtain ⟨thresh, startTime, drain, equal⟩ := same i
    rw [equal]
  have packets : ∀ i, (q'.queues i).packets = (q.queues i).packets := by
    intro i
    obtain ⟨thresh, startTime, drain, equal⟩ := same i
    rw [equal]
  have allowance : ∀ i, (q'.queues i).allowance = (q.queues i).allowance := by
    intro i
    obtain ⟨thresh, startTime, drain, equal⟩ := same i
    rw [equal]
    rfl
  refine ⟨current ▸ visiting.cursor, ?_, ?_, ?_, ?_, ?_, ?_⟩
  · intro i other
    rw [updated]
    exact visiting.others i (current ▸ other)
  · intro i
    rw [quanta]
    exact visiting.quanta i
  · intro i
    rw [packets]
    exact visiting.fits i
  · intro i beyond
    rw [packets]
    exact visiting.outside i beyond
  · rw [current, allowance]
    exact visiting.allowed
  · rw [current, updated]
    exact visiting.unspent

/-- A packet that fits one of the queues joins it. -/
theorem push (visiting : Visiting config quantum q sent) {i : Fin 64} {p : Packet}
    (inside : (i : Nat) < config.queueNum) (small : (p.size : Int) ≤ quantum i) :
    Visiting config quantum (push i p q) sent := by
  have same : ∀ k, ∃ packets, (Wrr.push i p q).queues k = { q.queues k with packets } := by
    intro k
    unfold Wrr.push
    by_cases equal : k = i
    · subst equal
      exact ⟨_, Function.update_self _ _ _⟩
    · exact ⟨(q.queues k).packets, Function.update_of_ne equal _ _⟩
  refine ⟨visiting.cursor, ?_, ?_, ?_, ?_, ?_, ?_⟩
  · intro k other
    obtain ⟨packets, equal⟩ := same k
    rw [equal]
    exact visiting.others k other
  · intro k
    obtain ⟨packets, equal⟩ := same k
    rw [equal]
    exact visiting.quanta k
  · intro k pkt member
    unfold Wrr.push at member
    by_cases equal : k = i
    · subst equal
      simp only [Function.update_self, List.mem_append, List.mem_singleton] at member
      rcases member with inside | rfl
      · exact visiting.fits k pkt inside
      · exact small
    · simp only [Function.update_of_ne equal] at member
      exact visiting.fits k pkt member
  · intro k beyond
    have equal : k ≠ i := by
      rintro rfl
      omega
    unfold Wrr.push
    simp only [Function.update_of_ne equal]
    exact visiting.outside k beyond
  · obtain ⟨packets, equal⟩ := same q.current
    show ((Wrr.push i p q).queues q.current).allowance = _
    rw [equal]
    exact visiting.allowed
  · obtain ⟨packets, equal⟩ := same q.current
    show ((Wrr.push i p q).queues q.current).counterUpdated = false → _
    rw [equal]
    exact visiting.unspent

/-- After a move no allowance is in use. -/
theorem updated_of_leave (visiting : Visiting config quantum q sent) {cl : PacketWrr}
    (queues : q'.queues = Function.update q.queues q.current cl) (spent : cl.counterUpdated = false)
    (i : Fin 64) : (q'.queues i).counterUpdated = false := by
  rw [queues]
  by_cases equal : i = q.current
  · subst equal
    rw [Function.update_self]
    exact spent
  · rw [Function.update_of_ne equal]
    exact visiting.others i equal

/-- A move ends the visit, whatever it left of the queue. -/
theorem leave (visiting : Visiting config quantum q sent) {cl : PacketWrr} {packets : List Packet}
    (current : q'.current = config.following q.current)
    (queues : q'.queues = Function.update q.queues q.current cl)
    (spent : cl.counterUpdated = false) (quanta : cl.quantum = (q.queues q.current).quantum)
    (kept : cl.packets = packets) (subset : ∀ pkt ∈ packets, pkt ∈ (q.queues q.current).packets) :
    Visiting config quantum q' 0 := by
  have updated := visiting.updated_of_leave queues spent
  have quantum' : ∀ i, (q'.queues i).quantum = quantum i := by
    intro i
    rw [queues]
    by_cases equal : i = q.current
    · subst equal
      rw [Function.update_self, quanta]
      exact visiting.quanta q.current
    · rw [Function.update_of_ne equal]
      exact visiting.quanta i
  refine ⟨current ▸ following_lt config q.current, fun i _ => updated i, quantum', ?_, ?_, ?_,
    fun _ => rfl⟩
  · intro i pkt member
    rw [queues] at member
    by_cases equal : i = q.current
    · subst equal
      rw [Function.update_self, kept] at member
      exact visiting.fits _ pkt (subset pkt member)
    · rw [Function.update_of_ne equal] at member
      exact visiting.fits i pkt member
  · intro i beyond
    have equal : i ≠ q.current := by
      rintro rfl
      exact absurd visiting.cursor (not_lt.mpr beyond)
    rw [queues, Function.update_of_ne equal]
    exact visiting.outside i beyond
  · rw [allowance_of_left (updated _), quantum', Nat.cast_zero, sub_zero]

theorem move (visiting : Visiting config quantum q sent) (startTime : ℚ) :
    Visiting config quantum (move config startTime q) 0 :=
  visiting.leave rfl (move_queues config startTime q) rfl rfl rfl fun _ member => member

private theorem exhaust (visiting : Visiting config quantum q sent) (now : ℚ) :
    Visiting config quantum (exhaust config now (refresh q)) 0 :=
  visiting.leave (exhaust_current config now q) (exhaust_queues config now q) rfl rfl rfl
    fun _ member => member

/-- A packet that leaves others behind is counted in the visit. -/
theorem serve_of_ne_nil (visiting : Visiting config quantum q sent) (now : ℚ) {pkt : Packet}
    {rest : List Packet} (front : (q.queues q.current).packets = pkt :: rest)
    (others : rest ≠ []) :
    Visiting config quantum (serve config now pkt rest (refresh q)) (sent + pkt.size) := by
  have queues := serve_queues config now pkt rest q
  have current := serve_current config now pkt rest q
  rw [if_neg others] at queues current
  have here : (serve config now pkt rest (refresh q)).queues q.current =
      (q.queues q.current).sent config now pkt rest := by
    rw [queues, Function.update_self]
  have there : ∀ i ≠ q.current, (serve config now pkt rest (refresh q)).queues i =
      q.queues i := by
    intro i other
    rw [queues, Function.update_of_ne other]
  refine ⟨current ▸ visiting.cursor, ?_, ?_, ?_, ?_, ?_, ?_⟩
  · intro i other
    rw [current] at other
    rw [there i other]
    exact visiting.others i other
  · intro i
    by_cases equal : i = q.current
    · subst equal
      rw [here]
      exact visiting.quanta q.current
    · rw [there i equal]
      exact visiting.quanta i
  · intro i packet member
    by_cases equal : i = q.current
    · subst equal
      rw [here] at member
      apply visiting.fits q.current packet
      rw [front]
      exact List.mem_cons_of_mem _ member
    · rw [there i equal] at member
      exact visiting.fits i packet member
  · intro i beyond
    have equal : i ≠ q.current := by
      rintro rfl
      exact absurd visiting.cursor (not_lt.mpr beyond)
    rw [there i equal]
    exact visiting.outside i beyond
  · rw [current, here]
    have allowed := visiting.allowed
    show (q.queues q.current).allowance - pkt.size = _
    omega
  · rw [current, here]
    intro spent
    cases spent

private theorem serve_of_nil (visiting : Visiting config quantum q sent) (now : ℚ) (pkt : Packet) :
    Visiting config quantum (serve config now pkt [] (refresh q)) 0 :=
  visiting.leave (serve_current config now pkt [] q) (serve_queues config now pkt [] q) rfl rfl
    rfl fun _ member => absurd member List.not_mem_nil

end Visiting

/-! ### The visits of a deque -/

/-- What a deque does with the allowances. -/
theorem Visiting.serves {config : Config} {quantum : Fin 64 → Int} {q q' : WrrQueue} {now : ℚ}
    {visits : List (Visit (Fin 64))} {answer : Fin 64 × Packet} {sent : Nat}
    (visiting : Visiting config quantum q sent) (serves : Serves config now q visits q' answer) :
    ∃ sent', Visiting config quantum q' sent' ∧
      Follows quantum q.current sent visits q'.current sent' := by
  induction serves generalizing sent with
  | @sends q pkt rest front enough =>
      have covered : ((sent + pkt.size : Nat) : Int) ≤ quantum q.current := by
        have allowed := visiting.allowed
        omega
      by_cases last : rest = []
      · subst last
        refine ⟨0, visiting.serve_of_nil now pkt, ?_⟩
        exact .send covered (.move nofun (.nil _ 0))
      · refine ⟨sent + pkt.size, visiting.serve_of_ne_nil now front last, ?_⟩
        rw [if_neg last, serve_current, if_neg last]
        exact .send covered (.nil _ _)
  | @skips q q' visits answer empty later inductionHypothesis =>
      obtain ⟨sent', after, follows⟩ := inductionHypothesis (visiting.move now)
      exact ⟨sent', after, .move nofun follows⟩
  | @exhausts q q' visits answer pkt rest front short later inductionHypothesis =>
      obtain ⟨sent', after, follows⟩ := inductionHypothesis (visiting.exhaust now)
      refine ⟨sent', after, .move (fun size member => ?_) follows⟩
      obtain rfl := Option.mem_some_iff.mp member
      have allowed := visiting.allowed
      omega

/-! ### Progress -/

section

variable {config : Config} {quantum : Fin 64 → Int} {q : WrrQueue} {sent : Nat}

private theorem move_packets (config : Config) (startTime : ℚ) (q : WrrQueue) (i : Fin 64) :
    ((move config startTime q).queues i).packets = (q.queues i).packets := by
  rw [move_queues]
  by_cases equal : i = q.current
  · subst equal
    rw [Function.update_self]
    rfl
  · rw [Function.update_of_ne equal]

private theorem exhaust_packets (config : Config) (now : ℚ) (q : WrrQueue) (i : Fin 64) :
    ((exhaust config now (refresh q)).queues i).packets = (q.queues i).packets := by
  rw [exhaust_queues]
  by_cases equal : i = q.current
  · subst equal
    rw [Function.update_self]
    rfl
  · rw [Function.update_of_ne equal]

private theorem serve_packets (config : Config) (now : ℚ) (pkt : Packet) (rest : List Packet)
    (q : WrrQueue) :
    ((serve config now pkt rest (refresh q)).queues q.current).packets = rest := by
  rw [serve_queues, Function.update_self]
  split
  next last => exact last ▸ rfl
  next others => rfl

/-- The cursor gets to every queue within one turn. -/
theorem exists_turn {queueNum current number : Nat} (here : current < queueNum)
    (there : number < queueNum) :
    ∃ distance < queueNum, number = (current + distance) % queueNum := by
  by_cases ahead : current ≤ number
  · refine ⟨number - current, by omega, ?_⟩
    rw [Nat.add_sub_cancel' ahead, Nat.mod_eq_of_lt there]
  · refine ⟨number + queueNum - current, by omega, ?_⟩
    rw [Nat.add_sub_cancel' (by omega), Nat.add_mod_right, Nat.mod_eq_of_lt there]

/-- The moves after the packet: one if it was the last of its queue. -/
def movesAfter (q : WrrQueue) (i : Fin 64) : Nat := if (q.queues i).packets = [] then 1 else 0

/-- The moves of a deque that need not leave the queue to send from it. -/
theorem moves_sends (config : Config) (now : ℚ) (pkt : Packet) (rest : List Packet)
    (q : WrrQueue) :
    movesOf (.send q.current pkt.size :: if rest = [] then [.move q.current none] else []) =
      movesAfter (serve config now pkt rest (refresh q)) q.current := by
  unfold movesAfter
  rw [serve_packets]
  by_cases last : rest = []
  · rw [if_pos last, if_pos last]
    rfl
  · rw [if_neg last, if_neg last]
    rfl

/-- A cursor with no allowance in use sends a packet before it gets past a queue that has
one. -/
theorem Visiting.reaches (visiting : Visiting config quantum q sent)
    (spent : ∀ i, (q.queues i).counterUpdated = false) (now : ℚ) {distance : Nat} {i : Fin 64}
    (turn : (i : Nat) = (q.current + distance) % config.queueNum)
    (busy : (q.queues i).packets ≠ []) :
    ∃ visits q' answer, Serves config now q visits q' answer ∧
      movesOf visits ≤ distance + movesAfter q' answer.1 := by
  induction distance generalizing q sent with
  | zero =>
      have here : i = q.current := by
        apply Fin.ext
        rw [turn, Nat.add_zero, Nat.mod_eq_of_lt visiting.cursor]
      subst here
      obtain ⟨pkt, rest, front⟩ := List.exists_cons_of_ne_nil busy
      have covers : (pkt.size : Int) ≤ (q.queues q.current).allowance := by
        rw [allowance_of_left (spent q.current), visiting.quanta]
        exact visiting.fits q.current pkt (front ▸ List.mem_cons_self)
      refine ⟨_, _, _, .sends front covers, ?_⟩
      rw [moves_sends config now, Nat.zero_add]
  | succ distance inductionHypothesis =>
      cases front : (q.queues q.current).packets with
      | cons pkt rest =>
          have covers : (pkt.size : Int) ≤ (q.queues q.current).allowance := by
            rw [allowance_of_left (spent q.current), visiting.quanta]
            exact visiting.fits q.current pkt (front ▸ List.mem_cons_self)
          refine ⟨_, _, _, .sends front covers, ?_⟩
          rw [moves_sends config now]
          exact Nat.le_add_left _ _
      | nil =>
          have further : (i : Nat) =
              ((Wrr.move config now q).current + distance) % config.queueNum := by
            show (i : Nat) = ((q.current + 1) % config.queueNum + distance) % config.queueNum
            rw [Nat.mod_add_mod, turn, Nat.add_right_comm, Nat.add_assoc]
          obtain ⟨visits, q', answer, serves, few⟩ := inductionHypothesis (visiting.move now)
            (visiting.updated_of_leave (move_queues config now q) rfl) further
            ((move_packets config now q i).symm ▸ busy)
          refine ⟨_, q', answer, .skips front serves, ?_⟩
          have one : movesOf (.move q.current none :: visits) = movesOf visits + 1 :=
            List.countP_cons_of_pos rfl
          omega

/-- Within one turn of the cursor a deque sends a packet. -/
theorem Visiting.progress (visiting : Visiting config quantum q sent) (now : ℚ) {i : Fin 64}
    (inside : (i : Nat) < config.queueNum) (busy : (q.queues i).packets ≠ []) :
    ∃ visits q' answer, Serves config now q visits q' answer ∧
      movesOf visits ≤ config.queueNum + movesAfter q' answer.1 := by
  obtain ⟨distance, within, turn⟩ := exists_turn (following_lt config q.current) inside
  cases front : (q.queues q.current).packets with
  | nil =>
      obtain ⟨visits, q', answer, serves, few⟩ := (visiting.move now).reaches
        (visiting.updated_of_leave (move_queues config now q) rfl) now turn
        ((move_packets config now q i).symm ▸ busy)
      refine ⟨_, q', answer, .skips front serves, ?_⟩
      have one : movesOf (.move q.current none :: visits) = movesOf visits + 1 :=
        List.countP_cons_of_pos rfl
      omega
  | cons pkt rest =>
      by_cases enough : (pkt.size : Int) ≤ (q.queues q.current).allowance
      · refine ⟨_, _, _, .sends front enough, ?_⟩
        rw [moves_sends config now]
        exact Nat.le_add_left _ _
      · obtain ⟨visits, q', answer, serves, few⟩ := (visiting.exhaust now).reaches
          (visiting.updated_of_leave (exhaust_queues config now q) rfl) now
          (exhaust_current config now q ▸ turn) ((exhaust_packets config now q i).symm ▸ busy)
        refine ⟨_, q', answer, .exhausts front (not_le.mp enough) serves, ?_⟩
        have one : movesOf (.move q.current (some pkt.size) :: visits) = movesOf visits + 1 :=
          List.countP_cons_of_pos rfl
        omega

end

/-- A port that holds bytes holds a packet in one of its queues. -/
theorem exists_packet {config : Config} {q : WrrQueue} (busy : 0 < totalByteLength config q) :
    ∃ i : Fin 64, (i : Nat) < config.queueNum ∧ (q.queues i).packets ≠ [] := by
  by_contra none
  push Not at none
  have zero : totalByteLength config q = 0 := by
    apply List.sum_eq_zero
    intro bytes member
    obtain ⟨i, listed, rfl⟩ := List.mem_map.mp member
    have inside : (i : Nat) < config.queueNum := of_decide_eq_true (List.mem_filter.mp listed).2
    exact byteLength_eq_zero_iff.mpr (none i inside)
  omega

/-! ### Runs -/

/-- A discipline that has been configured and has not run yet. -/
def Configured (pow : ℚ → ℚ → ℚ) (s : Sys) : Prop :=
  ∃ (start : Sys) (requests : List Command),
    Initial start ∧ Run (Step pow) start (requests.map Event.command) s

/-- The quanta of a discipline. -/
def Sys.quanta (s : Sys) : Fin 64 → Int := fun i => (s.q.queues i).quantum

/-- An event that leaves the quanta, and whose packet, if it is taken, is not larger than the
quantum of its queue. -/
def Suits (config : Config) (quantum : Fin 64 → Int) : Event Command → Prop
  | .enque _ p true => p.size ≤ quantum (classify config p)
  | .enque _ _ false => True
  | .deque _ _ => True
  | .command (.setQuantum _ _) => False
  | .command (.setThresh _ _) => True
  | .timeout _ => True

/-- What the commands leave as it was constructed. -/
structure Unused (q : WrrQueue) : Prop where
  empty : ∀ i, (q.queues i).packets = []
  updated : ∀ i, (q.queues i).counterUpdated = false
  quanta : ∀ i, 0 < (q.queues i).quantum
  current : q.current = 0

private theorem Unused.update {q : WrrQueue} (unused : Unused q) {i : Fin 64} {cl : PacketWrr}
    (empty : cl.packets = []) (updated : cl.counterUpdated = false) (positive : 0 < cl.quantum) :
    Unused { q with queues := Function.update q.queues i cl } where
  empty := (Function.forall_update_iff q.queues fun _ cl => cl.packets = []).mpr
    ⟨empty, fun k _ => unused.empty k⟩
  updated := (Function.forall_update_iff q.queues fun _ cl => cl.counterUpdated = false).mpr
    ⟨updated, fun k _ => unused.updated k⟩
  quanta := (Function.forall_update_iff q.queues fun _ cl => 0 < cl.quantum).mpr
    ⟨positive, fun k _ => unused.quanta k⟩
  current := unused.current

theorem Unused.command {config : Config} {q q' : WrrQueue} {request : Command}
    (unused : Unused q) (returns : command config q request = some q') : Unused q' := by
  cases request with
  | setQuantum queueId quantum =>
      obtain ⟨positive, k, rfl⟩ := setQuantum_cases returns
      exact unused.update (unused.empty k) (unused.updated k) positive
  | setThresh queueId thresh =>
      obtain ⟨k, rfl⟩ := setThresh_cases returns
      exact unused.update (unused.empty k) (unused.updated k) (unused.quanta k)

private theorem Configured.unused {pow : ℚ → ℚ → ℚ} {s : Sys} (configured : Configured pow s) :
    Unused s.q := by
  obtain ⟨start, requests, initial, run⟩ := configured
  have labelled : ∀ event : Event Command, event ∈ requests.map Event.command →
      ∃ request, event = .command request := by
    intro event member
    obtain ⟨request, _, rfl⟩ := List.mem_map.mp member
    exact ⟨request, rfl⟩
  apply (run.restrict labelled).preserves (fun s => Unused s.q)
  · intro first event last step unused
    obtain ⟨step, request, rfl⟩ := step
    cases step with
    | command returns => exact unused.command returns
  · show Unused start.q
    rw [initial]
    exact ⟨fun _ => rfl, fun _ => rfl, fun _ => (by decide : (0 : Int) < 1500), rfl⟩

private theorem Unused.visiting {config : Config} {q : WrrQueue} (unused : Unused q) :
    Visiting config (fun i => (q.queues i).quantum) q 0 where
  cursor := by
    rw [unused.current]
    exact config.queueNum_range.1
  others i _ := unused.updated i
  quanta _ := rfl
  fits i pkt member := absurd member (unused.empty i ▸ List.not_mem_nil)
  outside i _ := unused.empty i
  allowed := by rw [allowance_of_left (unused.updated _), Nat.cast_zero, sub_zero]
  unspent _ := rfl

section

variable {pow : ℚ → ℚ → ℚ} {quantum : Fin 64 → Int} {sent : Nat}

private theorem Visiting.settle {config : Config} {q : WrrQueue}
    (visiting : Visiting config quantum q sent) (now : ℚ) :
    Visiting config quantum (settle config now q) sent := by
  unfold Wrr.settle
  split
  next idle =>
    exact visiting.congr rfl fun i => ⟨_, _, _, rfl⟩
  next => exact visiting

private theorem settle_queues (config : Config) (now : ℚ) (q : WrrQueue) :
    (settle config now q).queues = q.queues := by
  unfold settle
  split
  · rfl
  · rfl

private theorem settle_current (config : Config) (now : ℚ) (q : WrrQueue) :
    (settle config now q).current = q.current := by
  unfold settle
  split
  · rfl
  · rfl

/-- What an operation that sends nothing leaves. -/
theorem Visiting.quiet {s s' : Sys} {event : Event Command}
    (visiting : Visiting s.config quantum s.q sent) (step : Step pow s event s')
    (silent : ∀ now answer, event ≠ .deque now (some answer))
    (suits : Suits s.config quantum event) :
    Visiting s'.config quantum s'.q sent ∧ s'.q.current = s.q.current := by
  cases step with
  | @enque now p q' taken later returns =>
      have stamped : Visiting s.config quantum (resetIdle pow s.config now s.q) sent :=
        visiting.congr (resetIdle_current pow s.config now s.q) fun i =>
          have ⟨startTime, same⟩ := resetIdle_queue pow s.config now s.q i
          ⟨_, startTime, _, same⟩
      rcases enque_cases returns with ⟨rfl, rfl⟩ | ⟨rfl, marked, size, rfl⟩
      · exact ⟨stamped, resetIdle_current pow s.config now s.q⟩
      · refine ⟨stamped.push (classify_lt s.config p) ?_, resetIdle_current pow s.config now s.q⟩
        rw [size]
        exact suits
  | @deque now fuel q' pkt later returns =>
      rcases deque_cases returns with ⟨rfl, rfl⟩ | ⟨visits, last, answer, _, _, rfl, _⟩
      · exact ⟨visiting.settle now, settle_current s.config now s.q⟩
      · exact absurd rfl (silent now answer)
  | @command request q' returns =>
      cases request with
      | setQuantum queueId quantum => exact suits.elim
      | setThresh queueId thresh =>
          obtain ⟨k, rfl⟩ := setThresh_cases returns
          refine ⟨visiting.congr rfl fun i => ?_, rfl⟩
          by_cases equal : i = k
          · subst equal
            exact ⟨thresh, _, _, Function.update_self _ _ _⟩
          · exact ⟨_, _, _, Function.update_of_ne equal _ _⟩

/-- The step lemma. -/
theorem Visiting.traced {s s' : Sys} {event : Event Command} {visits : List (Visit (Fin 64))}
    (visiting : Visiting s.config quantum s.q sent) (traced : Traced pow s (event, visits) s')
    (suits : Suits s.config quantum event) :
    ∃ sent', Visiting s'.config quantum s'.q sent' ∧
      Follows quantum s.q.current sent visits s'.q.current sent' := by
  cases traced with
  | @serves now visits q' answer later busy serves =>
      obtain ⟨sent', after, follows⟩ := visiting.serves serves
      refine ⟨sent', after.settle now, ?_⟩
      show Follows quantum _ _ _ (Wrr.settle s.config now q').current _
      rw [settle_current]
      exact follows
  | quiet step silent =>
      obtain ⟨after, same⟩ := visiting.quiet step silent suits
      exact ⟨sent, after, same ▸ .nil _ _⟩

private theorem Traced.config_eq {s s' : Sys} {label : Event Command × List (Visit (Fin 64))}
    (traced : Traced pow s label s') : s'.config = s.config := by
  cases traced with
  | serves later busy serves => rfl
  | quiet step silent =>
      cases step with
      | enque later returns => rfl
      | deque later returns => rfl
      | command returns => rfl

/-- The run lemma. -/
theorem Visiting.run {s s' : Sys} {trace : List (Event Command × List (Visit (Fin 64)))}
    (visiting : Visiting s.config quantum s.q sent) (run : Run (Traced pow) s trace s')
    (suits : ∀ label ∈ trace, Suits s.config quantum label.1) :
    ∃ sent', Visiting s'.config quantum s'.q sent' ∧
      Follows quantum s.q.current sent (trace.flatMap Prod.snd) s'.q.current sent' := by
  induction run generalizing sent with
  | nil s => exact ⟨sent, visiting, .nil _ _⟩
  | @cons first middle last label trace head _ inductionHypothesis =>
      obtain ⟨among, between, one⟩ := visiting.traced head (suits label List.mem_cons_self)
      have later : ∀ label ∈ trace, Suits middle.config quantum label.1 := by
        intro label member
        rw [head.config_eq]
        exact suits label (List.mem_cons_of_mem _ member)
      obtain ⟨total, after, others⟩ := inductionHypothesis between later
      refine ⟨total, after, ?_⟩
      rw [List.flatMap_cons]
      exact one.append others

end

private theorem Configured.visiting {pow : ℚ → ℚ → ℚ} {s₀ : Sys} (configured : Configured pow s₀) :
    Visiting s₀.config s₀.quanta s₀.q 0 :=
  configured.unused.visiting

/-- **One quantum a stay, and progress.** While the quanta stay as configured and cover the
packets, only the current queue can have an allowance in use; a deque of a port that holds
bytes returns a packet, after at most one turn of the cursor and one move more where the packet
was the last of its queue; and a stay of the cursor sends from one queue, at most its quantum,
and all of it but less than the head packet it leaves behind. -/
theorem stays_of_run {pow : ℚ → ℚ → ℚ} {s₀ s : Sys}
    {trace : List (Event Command × List (Visit (Fin 64)))} (configured : Configured pow s₀)
    (run : Run (Traced pow) s₀ trace s)
    (suits : ∀ label ∈ trace, Suits s₀.config s₀.quanta label.1) :
    (∀ i ≠ s.q.current, (s.q.queues i).counterUpdated = false) ∧
      (∀ now, s.clock ≤ now → 0 < totalByteLength s.config s.q → ∃ visits q' i pkt,
        Traced pow s (.deque now (some (i, pkt)), visits) ⟨s.config, q', now⟩ ∧
          movesOf visits ≤ s.config.queueNum + movesAfter q' i ∧
          ∀ fuel, movesOf visits < fuel →
            deque s.config now fuel s.q = some (q', some (i, pkt))) ∧
      ∀ stay i left, IsStay (trace.flatMap Prod.snd) stay i left →
        (∀ visit ∈ stay, visit.queue = i) ∧ bytesOf stay ≤ s₀.quanta i ∧
          ∀ size ∈ left, s₀.quanta i - size < bytesOf stay := by
  obtain ⟨sent, visiting, follows⟩ := configured.visiting.run run suits
  refine ⟨visiting.others, fun now later busy => ?_, fun stay i left isStay => ?_⟩
  · obtain ⟨i, inside, packet⟩ := exists_packet busy
    obtain ⟨visits, q', ⟨served, pkt⟩, serves, few⟩ := visiting.progress now inside packet
    refine ⟨visits, settle s.config now q', served, pkt, .serves later busy serves, ?_, ?_⟩
    · unfold movesAfter at few ⊢
      rw [settle_queues]
      exact few
    · intro fuel more
      unfold deque
      rw [if_pos busy, serves.loop more]
      rfl
  · exact follows.stay (fun i => (configured.unused.quanta i).le) isStay

/-! ### A run with a move more -/

def fresh : Sys := ⟨defaultConfig, construct, 0⟩

/-- A packet of 1500 bytes for queue 0. -/
def segment : Packet := ⟨0, 1500, false, false, 0, fullSize_pos⟩

/-- Two packets join queue 0, and the first is sent. -/
def lonely : List (Event Command) :=
  [.enque 0 segment true, .enque 0 segment true, .deque 0 (some (0, segment))]

private theorem lonely_replays :
    (replay (Sys.next (fun _ _ => 1) 9) (fun _ => True) fresh lonely).isSome = true := by
  decide +kernel

def exhausted : Sys := (replay (Sys.next (fun _ _ => 1) 9) (fun _ => True) fresh lonely).get
  lonely_replays

private theorem configured_fresh (pow : ℚ → ℚ → ℚ) : Configured pow fresh :=
  ⟨fresh, [], rfl, .nil fresh⟩

private theorem suits_lonely : ∀ event ∈ lonely, Suits fresh.config fresh.quanta event := by
  have covers : ((1500 : Nat) : Int) ≤ 1500 := le_rfl
  simp only [lonely, List.forall_mem_cons]
  exact ⟨covers, covers, trivial, nofun⟩

private theorem exists_lonely_trace : ∃ trace, Run (Traced fun _ _ => 1) fresh trace exhausted ∧
    trace.map Prod.fst = lonely ∧
    ∀ label ∈ trace, Suits fresh.config fresh.quanta label.1 := by
  have run := (RunWithin.of_replay_isSome Sys.next_sound lonely_replays).run
  obtain ⟨trace, traced, events⟩ := exists_traced run
  refine ⟨trace, traced, events, fun label member => ?_⟩
  exact suits_lonely label.1 (events ▸ List.mem_map_of_mem member)

/-- The moves over queues that are empty. -/
theorem serves_of_turn {config : Config} {now : ℚ} {q q' : WrrQueue}
    {visits : List (Visit (Fin 64))} {answer : Fin 64 × Packet} {moves : Nat}
    (empty : ∀ passed < moves, (((move config now)^[passed] q).queues
      ((move config now)^[passed] q).current).packets = [])
    (later : Serves config now ((move config now)^[moves] q) visits q' answer) :
    ∃ all, Serves config now q all q' answer ∧ movesOf all = moves + movesOf visits := by
  induction moves generalizing q with
  | zero => exact ⟨visits, later, (Nat.zero_add _).symm⟩
  | succ moves inductionHypothesis =>
      have others : ∀ passed < moves, (((move config now)^[passed] (move config now q)).queues
          ((move config now)^[passed] (move config now q)).current).packets = [] := by
        intro passed before
        exact empty (passed + 1) (Nat.succ_lt_succ before)
      obtain ⟨all, serves, count⟩ := inductionHypothesis others later
      have one : movesOf (.move q.current none :: all) = movesOf all + 1 :=
        List.countP_cons_of_pos rfl
      refine ⟨_, .skips (empty 0 (Nat.succ_pos _)) serves, ?_⟩
      omega

/-- The quantum of queue 0 is used up: the cursor leaves it, turns over the empty queues, sends
its last packet and leaves it again. -/
theorem exhausted_moves : ∃ visits q' answer,
    Serves exhausted.config 0 exhausted.q visits q' answer ∧ movesOf visits = 9 := by
  have front : (exhausted.q.queues exhausted.q.current).packets = [segment] := by decide +kernel
  have short : (exhausted.q.queues exhausted.q.current).allowance < segment.size := by
    decide +kernel
  let left := exhaust exhausted.config 0 (refresh exhausted.q)
  let turned (moves : Nat) : WrrQueue := (move exhausted.config 0)^[moves] left
  have empty : ∀ moves < 7, ((turned moves).queues (turned moves).current).packets = [] := by
    decide +kernel
  have again : ((turned 7).queues (turned 7).current).packets = [segment] := by decide +kernel
  have enough : segment.size ≤ ((turned 7).queues (turned 7).current).allowance := by
    decide +kernel
  obtain ⟨visits, serves, count⟩ := serves_of_turn empty (.sends again enough)
  have one : movesOf (.move exhausted.q.current (some segment.size) :: visits) =
      movesOf visits + 1 := List.countP_cons_of_pos rfl
  refine ⟨_, _, _, .exhausts front short serves, ?_⟩
  rw [one, count]
  rfl

/-- A deque can make more moves than there are queues. -/
theorem turn_exceeded : ¬∀ (pow : ℚ → ℚ → ℚ) (s₀ s s' : Sys)
    (trace : List (Event Command × List (Visit (Fin 64)))) (event : Event Command)
    (visits : List (Visit (Fin 64))), Configured pow s₀ → Run (Traced pow) s₀ trace s →
      (∀ label ∈ trace, Suits s₀.config s₀.quanta label.1) → Traced pow s (event, visits) s' →
        movesOf visits ≤ s.config.queueNum := by
  intro bounded
  obtain ⟨trace, run, _, suits⟩ := exists_lonely_trace
  obtain ⟨visits, q', answer, serves, count⟩ := exhausted_moves
  have clock : exhausted.clock ≤ 0 := by decide +kernel
  have busy : 0 < totalByteLength exhausted.config exhausted.q := by decide +kernel
  have few := bounded _ _ _ _ _ _ _ (configured_fresh _) run suits (.serves clock busy serves)
  have eight : exhausted.config.queueNum = 8 := by decide +kernel
  omega

theorem lonely_stays : ∃ trace : List (Event Command × List (Visit (Fin 64))),
    trace.map Prod.fst = lonely ∧
    (∀ i ≠ exhausted.q.current, (exhausted.q.queues i).counterUpdated = false) ∧
    (∀ now, exhausted.clock ≤ now → 0 < totalByteLength exhausted.config exhausted.q →
      ∃ visits q' i pkt,
        Traced (fun _ _ => 1) exhausted (.deque now (some (i, pkt)), visits)
            ⟨exhausted.config, q', now⟩ ∧
          movesOf visits ≤ exhausted.config.queueNum + movesAfter q' i ∧
          ∀ fuel, movesOf visits < fuel →
            deque exhausted.config now fuel exhausted.q = some (q', some (i, pkt))) ∧
    ∀ stay i left, IsStay (trace.flatMap Prod.snd) stay i left →
      (∀ visit ∈ stay, visit.queue = i) ∧ bytesOf stay ≤ fresh.quanta i ∧
        ∀ size ∈ left, fresh.quanta i - size < bytesOf stay := by
  obtain ⟨trace, run, events, suits⟩ := exists_lonely_trace
  exact ⟨trace, events, stays_of_run (configured_fresh _) run suits⟩

end MqEcn.Ns2.Wrr
