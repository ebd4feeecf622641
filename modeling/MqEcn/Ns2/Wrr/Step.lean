import Mathlib.Tactic.SplitIfs
import MqEcn.Library.Transition
import MqEcn.Library.Visits
import MqEcn.Ns2.Wrr.Model

/-!
Contract: what each operation of the NS2 WRR discipline can do, said once.

Owns: the effect of every operation on the queues, the passes of the loop of `deque` as the
visits of its cursor, the equivalence of the two, and the step relation with these visits.

Does not own: the invariants derived from these facts.
-/

set_option autoImplicit false

namespace MqEcn.Ns2.Wrr

open MqEcn.Library.Transition
open MqEcn.Library.Visits
open MqEcn.Ns2.Dwrr (latencyMarking Command)

/-! ### Marking and enque -/

theorem enqueMarking_size {config : Config} {now : ℚ} {queue : Fin 64} {p marked : Packet}
    {q : WrrQueue} (marks : enqueMarking config now queue p q = some marked) :
    marked.size = p.size := by
  unfold enqueMarking at marks
  split at marks
  · obtain ⟨decides, _, rfl⟩ := Option.map_eq_some_iff.mp marks
    split
    · rfl
    · rfl
  · obtain rfl := Option.some.inj marks
    split
    · rfl
    · rfl

theorem dequeMarking_size (config : Config) (now : ℚ) (pkt : Packet) :
    (dequeMarking config now pkt).size = pkt.size := by
  unfold dequeMarking
  simp only
  split_ifs
  all_goals rfl

theorem classify_lt (config : Config) (p : Packet) :
    (classify config p : Nat) < config.queueNum := by
  have positive := config.queueNum_range.1
  unfold classify
  split
  next inside =>
    simp only
    omega
  next => exact Nat.sub_one_lt_of_lt positive

/-- The reset of an idle port changes the times only. -/
theorem resetIdle_queue (pow : ℚ → ℚ → ℚ) (config : Config) (now : ℚ) (q : WrrQueue)
    (i : Fin 64) :
    ∃ startTime, (resetIdle pow config now q).queues i = { q.queues i with startTime } := by
  unfold resetIdle
  split
  · simp only
    split
    · exact ⟨now, rfl⟩
    · exact ⟨(q.queues i).startTime, rfl⟩
  · exact ⟨(q.queues i).startTime, rfl⟩

theorem resetIdle_current (pow : ℚ → ℚ → ℚ) (config : Config) (now : ℚ) (q : WrrQueue) :
    (resetIdle pow config now q).current = q.current := by
  unfold resetIdle
  split
  · rfl
  · rfl

/-- A packet is dropped, or its queue takes it, marked or not. -/
theorem enque_cases {pow : ℚ → ℚ → ℚ} {config : Config} {now : ℚ} {p : Packet}
    {q q' : WrrQueue} {taken : Bool} (returns : enque pow config now p q = some (q', taken)) :
    (taken = false ∧ q' = resetIdle pow config now q) ∨
      (taken = true ∧ ∃ marked : Packet, marked.size = p.size ∧
        q' = push (classify config p) marked (resetIdle pow config now q)) := by
  unfold enque at returns
  simp only at returns
  split at returns
  · cases returns
    exact Or.inl ⟨rfl, rfl⟩
  · obtain ⟨marked, marks, same⟩ := Option.map_eq_some_iff.mp returns
    cases same
    exact Or.inr ⟨rfl, marked, enqueMarking_size marks, rfl⟩

/-! ### The queues -/

/-- What a visit may still send from a queue. -/
def PacketWrr.allowance (cl : PacketWrr) : Int :=
  if cl.counterUpdated then cl.counter else cl.quantum

/-- A queue once its visit has started. -/
def PacketWrr.visited (cl : PacketWrr) : PacketWrr :=
  { cl with counter := cl.allowance, counterUpdated := true }

theorem refresh_eq (q : WrrQueue) :
    refresh q =
      { q with queues := Function.update q.queues q.current (q.queues q.current).visited } := by
  unfold refresh
  simp only
  split
  next updated =>
    have same : (q.queues q.current).visited = q.queues q.current := by
      unfold PacketWrr.visited PacketWrr.allowance
      rw [if_pos updated, ← updated]
    rw [same, Function.update_eq_self]
  next due =>
    unfold PacketWrr.visited PacketWrr.allowance
    rw [if_neg due]

@[simp] theorem refresh_current (q : WrrQueue) : (refresh q).current = q.current := by
  rw [refresh_eq]

@[simp] theorem refresh_visited (q : WrrQueue) :
    (refresh q).queues q.current = (q.queues q.current).visited := by
  rw [refresh_eq]
  exact Function.update_self _ _ _

/-- A queue that the cursor leaves at `startTime`. -/
def PacketWrr.left (startTime : ℚ) (cl : PacketWrr) : PacketWrr :=
  { cl with startTime, counterUpdated := false }

theorem move_queues (config : Config) (startTime : ℚ) (q : WrrQueue) :
    (move config startTime q).queues =
      Function.update q.queues q.current ((q.queues q.current).left startTime) := rfl

/-- A queue that has sent `pkt` and keeps `rest`. -/
def PacketWrr.sent (config : Config) (now : ℚ) (pkt : Packet) (rest : List Packet)
    (cl : PacketWrr) : PacketWrr :=
  { cl with
    packets := rest
    counter := cl.allowance - pkt.size
    counterUpdated := true
    drain :=
      cl.drain.measure config.dqThresh config.estimateRateAlpha config.linkCapacity now
        (byteLength rest) pkt.size }

/-- The queues once the head `pkt` of the current queue has left. -/
theorem serve_queues (config : Config) (now : ℚ) (pkt : Packet) (rest : List Packet)
    (q : WrrQueue) :
    (serve config now pkt rest (refresh q)).queues =
      Function.update q.queues q.current
        (if rest = [] then
          ((q.queues q.current).sent config now pkt rest).left
            (now + (pkt.size : ℚ) * 8 / config.linkCapacity)
        else (q.queues q.current).sent config now pkt rest) := by
  unfold serve
  rw [refresh_eq]
  by_cases last : rest = []
  · simp only [if_pos last, pop, move_queues, Function.update_self, Function.update_idem]
    rfl
  · simp only [if_neg last, pop, Function.update_self, Function.update_idem]
    rfl

theorem serve_current (config : Config) (now : ℚ) (pkt : Packet) (rest : List Packet)
    (q : WrrQueue) :
    (serve config now pkt rest (refresh q)).current =
      if rest = [] then config.following q.current else q.current := by
  unfold serve
  rw [refresh_eq]
  by_cases last : rest = []
  · simp only [if_pos last]
    rfl
  · simp only [if_neg last]
    rfl

/-- The queues once a visit has ended with its head packet still there. -/
theorem exhaust_queues (config : Config) (now : ℚ) (q : WrrQueue) :
    (exhaust config now (refresh q)).queues =
      Function.update q.queues q.current ((q.queues q.current).visited.left now) := by
  unfold exhaust
  rw [refresh_eq]
  simp only [move_queues, Function.update_self, Function.update_idem]

theorem exhaust_current (config : Config) (now : ℚ) (q : WrrQueue) :
    (exhaust config now (refresh q)).current = config.following q.current := by
  unfold exhaust
  rw [refresh_eq]
  rfl

/-! ### The loop -/

/-- The visits a run of the loop of `deque` makes up to the packet it returns. -/
inductive Serves (config : Config) (now : ℚ) :
    WrrQueue → List (Visit (Fin 64)) → WrrQueue → Fin 64 × Packet → Prop
  | sends {q : WrrQueue} {pkt : Packet} {rest : List Packet}
      (front : (q.queues q.current).packets = pkt :: rest)
      (enough : pkt.size ≤ (q.queues q.current).allowance) :
      Serves config now q
        (.send q.current pkt.size :: if rest = [] then [.move q.current none] else [])
        (serve config now pkt rest (refresh q)) (q.current, dequeMarking config now pkt)
  | skips {q q' : WrrQueue} {visits : List (Visit (Fin 64))} {answer : Fin 64 × Packet}
      (empty : (q.queues q.current).packets = [])
      (later : Serves config now (move config now q) visits q' answer) :
      Serves config now q (.move q.current none :: visits) q' answer
  | exhausts {q q' : WrrQueue} {visits : List (Visit (Fin 64))} {answer : Fin 64 × Packet}
      {pkt : Packet} {rest : List Packet} (front : (q.queues q.current).packets = pkt :: rest)
      (short : (q.queues q.current).allowance < pkt.size)
      (later : Serves config now (exhaust config now (refresh q)) visits q' answer) :
      Serves config now q (.move q.current (some pkt.size) :: visits) q' answer

variable {config : Config} {now : ℚ} {q q' : WrrQueue} {visits : List (Visit (Fin 64))}
  {answer : Fin 64 × Packet}

/-- One pass of the loop. -/
theorem loop_succ_of_nil (fuel : Nat) (empty : (q.queues q.current).packets = []) :
    loop config now (fuel + 1) q = loop config now fuel (move config now q) := by
  conv_lhs => unfold loop
  simp only [empty]

private theorem loop_succ_of_cons (fuel : Nat) {pkt : Packet} {rest : List Packet}
    (front : (q.queues q.current).packets = pkt :: rest) :
    loop config now (fuel + 1) q =
      if pkt.size ≤ (q.queues q.current).allowance then
        some (serve config now pkt rest (refresh q), q.current, dequeMarking config now pkt)
      else loop config now fuel (exhaust config now (refresh q)) := by
  conv_lhs => unfold loop
  simp only [front, refresh_current, refresh_visited]
  rfl

private theorem serves_of_loop {fuel : Nat} (returns : loop config now fuel q = some (q', answer)) :
    ∃ visits, Serves config now q visits q' answer := by
  induction fuel generalizing q with
  | zero => cases returns
  | succ fuel inductionHypothesis =>
      cases front : (q.queues q.current).packets with
      | nil =>
          rw [loop_succ_of_nil fuel front] at returns
          obtain ⟨visits, later⟩ := inductionHypothesis returns
          exact ⟨_, .skips front later⟩
      | cons pkt rest =>
          rw [loop_succ_of_cons fuel front] at returns
          split at returns
          next enough =>
            cases returns
            exact ⟨_, .sends front enough⟩
          next short =>
            obtain ⟨visits, later⟩ := inductionHypothesis returns
            exact ⟨_, .exhausts front (not_le.mp short) later⟩

/-- A loop with a pass more than its moves returns. -/
theorem Serves.loop (serves : Serves config now q visits q' answer) {fuel : Nat}
    (more : movesOf visits < fuel) : loop config now fuel q = some (q', answer) := by
  induction serves generalizing fuel with
  | sends front enough =>
      obtain ⟨spare, rfl⟩ := Nat.exists_eq_add_of_lt more
      rw [loop_succ_of_cons _ front, if_pos enough]
  | @skips q q' visits answer empty later inductionHypothesis =>
      have one : movesOf (.move q.current none :: visits) = movesOf visits + 1 :=
        List.countP_cons_of_pos rfl
      obtain ⟨spare, rfl⟩ := Nat.exists_eq_add_of_lt more
      rw [loop_succ_of_nil _ empty]
      exact inductionHypothesis (by omega)
  | @exhausts q q' visits answer pkt rest front short later inductionHypothesis =>
      have one : movesOf (.move q.current (some pkt.size) :: visits) = movesOf visits + 1 :=
        List.countP_cons_of_pos rfl
      obtain ⟨spare, rfl⟩ := Nat.exists_eq_add_of_lt more
      rw [loop_succ_of_cons _ front, if_neg (not_le.mpr short)]
      exact inductionHypothesis (by omega)

/-- A deque finds the port empty, or sends a packet. -/
theorem deque_cases {fuel : Nat} {pkt : Option (Fin 64 × Packet)}
    (returns : deque config now fuel q = some (q', pkt)) :
    (pkt = none ∧ q' = settle config now q) ∨
      ∃ visits last answer, 0 < totalByteLength config q ∧ Serves config now q visits last answer ∧
        pkt = some answer ∧ q' = settle config now last := by
  unfold deque at returns
  obtain ⟨⟨last, answer⟩, found, same⟩ := Option.map_eq_some_iff.mp returns
  cases same
  split at found
  next busy =>
    obtain ⟨⟨sent, packet⟩, looped, same⟩ := Option.map_eq_some_iff.mp found
    cases same
    obtain ⟨visits, serves⟩ := serves_of_loop looped
    exact Or.inr ⟨visits, sent, packet, busy, serves, rfl, rfl⟩
  next idle =>
    cases found
    exact Or.inl ⟨rfl, rfl⟩

/-! ### Commands -/

theorem setQuantum_cases {queueId quantum : Int}
    (returns : setQuantum config queueId quantum q = some q') :
    0 < quantum ∧ ∃ i, q' =
      { q with queues := Function.update q.queues i { q.queues i with quantum } } := by
  unfold setQuantum at returns
  split_ifs at returns with inside positive
  obtain rfl := Option.some.inj returns
  exact ⟨positive, _, rfl⟩

theorem setThresh_cases {queueId : Int} {thresh : ℚ}
    (returns : setThresh config queueId thresh q = some q') :
    ∃ i, q' = { q with queues := Function.update q.queues i { q.queues i with thresh } } := by
  unfold setThresh at returns
  split_ifs at returns with inside nonneg
  obtain rfl := Option.some.inj returns
  exact ⟨_, rfl⟩

/-! ### Steps with their visits -/

/-- One operation, with the visits its cursor makes. -/
inductive Traced (pow : ℚ → ℚ → ℚ) :
    Sys → Event Command × List (Visit (Fin 64)) → Sys → Prop
  | serves {s : Sys} {now : ℚ} {visits : List (Visit (Fin 64))} {q' : WrrQueue}
      {answer : Fin 64 × Packet} (later : s.clock ≤ now) (busy : 0 < totalByteLength s.config s.q)
      (serves : Serves s.config now s.q visits q' answer) :
      Traced pow s (.deque now (some answer), visits) ⟨s.config, settle s.config now q', now⟩
  | quiet {s s' : Sys} {event : Event Command} (step : Step pow s event s')
      (silent : ∀ now answer, event ≠ .deque now (some answer)) : Traced pow s (event, []) s'

/-- Every operation makes some visits, and they are those of no other operation. -/
theorem step_iff_traced {pow : ℚ → ℚ → ℚ} {s s' : Sys} {event : Event Command} :
    Step pow s event s' ↔ ∃ visits, Traced pow s (event, visits) s' := by
  constructor
  · intro step
    cases step with
    | enque later returns => exact ⟨[], .quiet (.enque later returns) nofun⟩
    | command returns => exact ⟨[], .quiet (.command returns) nofun⟩
    | @deque now fuel q' pkt later returns =>
        rcases deque_cases returns with
          ⟨rfl, _⟩ | ⟨visits, last, answer, busy, serves, rfl, rfl⟩
        · exact ⟨[], .quiet (.deque later returns) nofun⟩
        · exact ⟨visits, .serves later busy serves⟩
  · intro traced
    obtain ⟨visits, traced⟩ := traced
    cases traced with
    | quiet step silent => exact step
    | @serves now visits q' answer later busy serves =>
        have loops := serves.loop (Nat.lt_succ_self (movesOf visits))
        apply Step.deque later
        unfold deque
        rw [if_pos busy, loops]
        rfl

/-- Every run makes some visits. -/
theorem exists_traced {pow : ℚ → ℚ → ℚ} {s s' : Sys} {events : List (Event Command)}
    (run : Run (Step pow) s events s') :
    ∃ trace, Run (Traced pow) s trace s' ∧ trace.map Prod.fst = events := by
  induction run with
  | nil s => exact ⟨[], .nil s, rfl⟩
  | @cons first middle last event events head _ inductionHypothesis =>
      obtain ⟨visits, traced⟩ := step_iff_traced.mp head
      obtain ⟨trace, run, same⟩ := inductionHypothesis
      exact ⟨(event, visits) :: trace, .cons traced run, by rw [List.map_cons, same]⟩

/-! ### Replay -/

/-- The operations of the discipline, which has no timer, with `fuel` for the loop of a deque. -/
def operations (pow : ℚ → ℚ → ℚ) (fuel : Nat) : Operations Config WrrQueue Command where
  enque := Wrr.enque pow
  deque := fun config now => Wrr.deque config now fuel
  command := Wrr.command
  timer := fun _ => false
  timeout := fun _ q => q

private theorem operations_follow (pow : ℚ → ℚ → ℚ) (fuel : Nat) :
    (operations pow fuel).Follow (Step pow) :=
  ⟨.enque, .deque, .command, fun _ pending => Bool.noConfusion pending⟩

def Sys.next (pow : ℚ → ℚ → ℚ) (fuel : Nat) : Sys → Event Command → Option Sys :=
  (operations pow fuel).next

theorem Sys.next_sound {pow : ℚ → ℚ → ℚ} {fuel : Nat} {s s' : Sys} {event : Event Command}
    (answers : Sys.next pow fuel s event = some s') : Step pow s event s' :=
  (operations_follow pow fuel).next_sound answers

end MqEcn.Ns2.Wrr
