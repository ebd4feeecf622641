import MqEcn.Library.DeficitRoundRobin
import MqEcn.Library.RingSchedule

/-!
Contract: the fairness of a port that serves its flows by deficit round robin.

Owns: the smallest steps of a port, what they keep of its ring, its credits and its
packet sizes, their simulation by the abstract round robin, and the bound on what two
flows that stay backlogged send.

Does not own: the alternation of turns, which is that of the abstract round robin, and
any implementation. One that shows a port and answers its operations by these steps
inherits the bound.
-/

set_option autoImplicit false

namespace MqEcn.Library.RingSchedule

open MqEcn.Library.Transition
open Relation (ReflTransGen)

variable {Flow : Type} [DecidableEq Flow]

/-- What happens to a port. -/
inductive Move (Flow : Type) where
  | accept (flow : Flow) (size : Nat)
  | turn
  | send (flow : Flow) (size : Nat)

/-- One move of a port. -/
inductive Moves (quantum : Flow → Nat) (port : Port Flow) : Move Flow → Port Flow → Prop
  | accept (flow : Flow) (size : Nat) :
      Moves quantum port (.accept flow size) (port.accept quantum flow size)
  | turn {next : Port Flow} (turns : Turns quantum port next) : Moves quantum port .turn next
  | send {next : Port Flow} {flow : Flow} {size : Nat}
      (sends : Sends port (some (flow, size)) next) : Moves quantum port (.send flow size) next

/-- Bytes a move sends from one flow. -/
def Move.sentFrom (flow : Flow) : Move Flow → Nat
  | .send served size => if served = flow then size else 0
  | _ => 0

/-- Bytes a list of moves sends from one flow. -/
def sentFrom (flow : Flow) (moves : List (Move Flow)) : Nat :=
  (moves.map (Move.sentFrom flow)).sum

@[simp] theorem sentFrom_append (flow : Flow) (left right : List (Move Flow)) :
    sentFrom flow (left ++ right) = sentFrom flow left + sentFrom flow right := by
  simp [sentFrom]

@[simp] theorem sentFrom_replicate_turn (flow : Flow) (count : Nat) :
    sentFrom flow (List.replicate count (.turn : Move Flow)) = 0 := by
  simp [sentFrom, Move.sentFrom]

/-! ### What a port keeps -/

/-- The flows of the ring. -/
def Port.flows (port : Port Flow) : List Flow := port.ring.map Prod.fst

/-- No packet exceeds the limit. -/
def Port.Small (limit : Nat) (port : Port Flow) : Prop :=
  ∀ flow, ∀ size ∈ port.fifo flow, size ≤ limit

/-- The ring lists the backlogged flows once each, no credit reaches a quantum above the
limit, and no packet exceeds the limit. -/
structure Port.Sound (quantum : Flow → Nat) (limit : Nat) (port : Port Flow) : Prop where
  nodup : port.flows.Nodup
  backlogged : ∀ flow, flow ∈ port.flows ↔ port.fifo flow ≠ []
  range : ∀ entry ∈ port.ring, entry.2 < quantum entry.1 + limit
  small : port.Small limit

/-- A move that takes no packet above the limit. -/
def Move.Within (limit : Nat) : Move Flow → Prop
  | .accept _ size => size ≤ limit
  | _ => True

omit [DecidableEq Flow] in
private theorem Move.Within.mono {limit limit' : Nat} {move : Move Flow}
    (within : move.Within limit) (le : limit ≤ limit') : move.Within limit' := by
  cases move with
  | accept flow size => exact Nat.le_trans within le
  | turn | send => exact trivial

section

variable {quantum : Flow → Nat} {limit : Nat} {port next : Port Flow} {flow : Flow} {size : Nat}

omit [DecidableEq Flow] in
private theorem Port.small_empty : Port.Small limit (Port.empty : Port Flow) := by
  intro flow size member
  simp [Port.empty] at member

private theorem Port.Small.accept (small : port.Small limit) (fits : size ≤ limit) :
    (port.accept quantum flow size).Small limit := by
  intro other taken member
  by_cases same : other = flow
  · subst same
    simp only [Port.accept, Function.update_self, List.mem_append, List.mem_singleton] at member
    rcases member with old | rfl
    · exact small other taken old
    · exact fits
  · simp only [Port.accept, Function.update_of_ne same] at member
    exact small other taken member

omit [DecidableEq Flow] in
private theorem Port.Small.turns (small : port.Small limit) (turns : Turns quantum port next) :
    next.Small limit := by
  cases turns with
  | intro head front short moves keeps =>
      unfold Port.Small
      rw [keeps]
      exact small

theorem Port.Small.sends (small : port.Small limit)
    (sends : Sends port (some (flow, size)) next) : size ≤ limit ∧ next.Small limit := by
  cases sends with
  | @packet _ _ credit _ ring sizes head front enough moves keeps =>
      refine ⟨small flow size (front ▸ List.mem_cons_self), fun other taken member => ?_⟩
      rw [keeps] at member
      by_cases same : other = flow
      · subst same
        rw [Function.update_self] at member
        exact small other taken (front ▸ List.mem_cons_of_mem _ member)
      · rw [Function.update_of_ne same] at member
        exact small other taken member

private theorem Port.Small.moves {move : Move Flow} (small : port.Small limit)
    (moves : Moves quantum port move next) (within : move.Within limit) : next.Small limit := by
  cases moves with
  | accept flow size => exact small.accept within
  | turn turns => exact small.turns turns
  | send sends => exact (small.sends sends).2

/-- Every packet a run sends is small. -/
theorem Port.Small.sentFrom_le {last : Port Flow} {moves : List (Move Flow)}
    (small : port.Small limit)
    (run : Run (fun port move next => Moves quantum port move next ∧ move.Within limit) port moves
      last) (flow : Flow) : sentFrom flow moves ≤ moves.length * limit := by
  induction run with
  | nil => exact Nat.zero_le _
  | @cons first middle last move moves head tail inductionHypothesis =>
      have rest := inductionHypothesis (small.moves head.1 head.2)
      have own : move.sentFrom flow ≤ limit := by
        cases head.1 with
        | accept | turn => exact Nat.zero_le _
        | @send _ served size sends =>
            have fits := (small.sends sends).1
            show (if served = flow then size else 0) ≤ limit
            split <;> omega
      rw [List.length_cons, Nat.succ_mul]
      have split : sentFrom flow (move :: moves) = move.sentFrom flow + sentFrom flow moves := by
        simp [sentFrom]
      omega

omit [DecidableEq Flow] in
private theorem Port.sound_empty : Port.Sound quantum limit (Port.empty : Port Flow) where
  nodup := List.nodup_nil
  backlogged := fun flow => by simp [Port.flows, Port.empty]
  range := fun entry member => by simp [Port.empty] at member
  small := Port.small_empty

private theorem Port.accept_flows (port : Port Flow) (quantum : Flow → Nat) (flow : Flow)
    (size : Nat) :
    (port.accept quantum flow size).flows =
      if port.fifo flow = [] then port.flows ++ [flow] else port.flows := by
  unfold Port.flows Port.accept
  split
  · simp
  · rfl

private theorem Port.Sound.accept (positive : 0 < limit) (sound : port.Sound quantum limit)
    (fits : size ≤ limit) : (port.accept quantum flow size).Sound quantum limit := by
  have flows := port.accept_flows quantum flow size
  refine ⟨?_, fun other => ?_, fun entry member => ?_, sound.small.accept fits⟩
  · rw [flows]
    split
    next idle =>
      have fresh : flow ∉ port.flows := fun listed => (sound.backlogged flow).mp listed idle
      rw [List.nodup_append]
      refine ⟨sound.nodup, List.nodup_singleton flow, fun other inside joined isJoined same => ?_⟩
      rw [same, List.mem_singleton.mp isJoined] at inside
      exact fresh inside
    next busy => exact sound.nodup
  · rw [flows]
    have before := sound.backlogged other
    by_cases same : other = flow
    · subst same
      by_cases idle : port.fifo other = []
      · simp [Port.accept, idle]
      · simp [Port.accept, idle, before]
    · split
      next idle => simp [Port.accept, same, before]
      next busy => simp [Port.accept, same, before]
  · unfold Port.accept at member
    simp only at member
    split at member
    · cases List.mem_append.mp member with
      | inl old => exact sound.range entry old
      | inr joined =>
          rw [List.mem_singleton.mp joined]
          exact Nat.lt_add_of_pos_right positive
    · exact sound.range entry member

omit [DecidableEq Flow] in
private theorem Port.Sound.turns (sound : port.Sound quantum limit)
    (turns : Turns quantum port next) :
    next.Sound quantum limit := by
  cases turns with
  | @intro flow credit size ring sizes head front short moves keeps =>
      have before : port.flows = flow :: ring.map Prod.fst := by
        unfold Port.flows
        rw [head]
        rfl
      have after : next.flows = ring.map Prod.fst ++ [flow] := by
        unfold Port.flows
        rw [moves, List.map_append]
        rfl
      have rotated : port.flows.Perm next.flows := by
        rw [before, after]
        exact (List.perm_append_singleton flow _).symm
      have fits : size ≤ limit := sound.small flow size (by rw [front]; exact List.mem_cons_self)
      refine ⟨rotated.nodup_iff.mp sound.nodup, fun other => ?_, fun entry member => ?_,
        sound.small.turns ⟨head, front, short, moves, keeps⟩⟩
      · rw [keeps, ← sound.backlogged other]
        exact rotated.symm.mem_iff
      · rw [moves] at member
        cases List.mem_append.mp member with
        | inl behind =>
            apply sound.range entry
            rw [head]
            exact List.mem_cons_of_mem _ behind
        | inr moved =>
            rw [List.mem_singleton.mp moved]
            show credit + quantum flow < quantum flow + limit
            omega

private theorem Port.Sound.sends (sound : port.Sound quantum limit)
    (sends : Sends port (some (flow, size)) next) : next.Sound quantum limit := by
  cases sends with
  | @packet _ _ credit _ ring sizes head front enough moves keeps =>
      have before : port.flows = flow :: ring.map Prod.fst := by
        unfold Port.flows
        rw [head]
        rfl
      have nodup := sound.nodup
      rw [before, List.nodup_cons] at nodup
      have after :
          next.flows = if sizes = [] then ring.map Prod.fst else flow :: ring.map Prod.fst := by
        unfold Port.flows
        rw [moves]
        split <;> rfl
      refine ⟨?_, fun other => ?_, fun entry member => ?_,
        (sound.small.sends (.packet head front enough moves keeps)).2⟩
      · rw [after]
        split
        · exact nodup.2
        · exact List.nodup_cons.mpr nodup
      · rw [after, keeps]
        have old := sound.backlogged other
        rw [before] at old
        by_cases same : other = flow
        · subst same
          by_cases last : sizes = []
          · simpa [last] using nodup.1
          · simp [last]
        · rw [Function.update_of_ne same, ← old]
          split
          · simp [same]
          · rfl
      · have listed : ∀ old ∈ (flow, credit) :: ring, old.2 < quantum old.1 + limit := by
          rw [← head]
          exact sound.range
        rw [moves] at member
        split at member
        · exact listed entry (List.mem_cons_of_mem _ member)
        · cases List.mem_cons.mp member with
          | inl same =>
              have own := listed (flow, credit) List.mem_cons_self
              rw [same]
              show credit - size < quantum flow + limit
              simp only at own
              omega
          | inr behind => exact listed entry (List.mem_cons_of_mem _ behind)

private theorem Port.Sound.moves {move : Move Flow} (positive : 0 < limit)
    (sound : port.Sound quantum limit) (moves : Moves quantum port move next)
    (within : move.Within limit) : next.Sound quantum limit := by
  cases moves with
  | accept flow size => exact sound.accept positive within
  | turn turns => exact sound.turns turns
  | send sends => exact sound.sends sends

end

/-! ### The abstract round robin -/

/-- The round robin of the same flows with the same credits. -/
structure Reads (port : Port Flow) (state : DeficitRoundRobin.State Flow) : Prop where
  ring : state.ring = port.flows
  deficit : ∀ entry ∈ port.ring, state.deficit entry.1 = entry.2

section

variable {quantum : Flow → Nat} {limit : Nat} {port next : Port Flow}
  {state : DeficitRoundRobin.State Flow} {flow : Flow} {size : Nat}

omit [DecidableEq Flow] in
/-- Every port that lists no flow twice reads as a state. -/
theorem exists_reads (nodup : port.flows.Nodup) : ∃ state, Reads port state := by
  have credit : ∀ flow, ∃ credit, ∀ entry ∈ port.ring, entry.1 = flow → entry.2 = credit := by
    intro flow
    by_cases listed : ∃ entry ∈ port.ring, entry.1 = flow
    · obtain ⟨entry, member, rfl⟩ := listed
      refine ⟨entry.2, fun other inside same => ?_⟩
      rw [List.inj_on_of_nodup_map nodup inside member same]
    · exact ⟨0, fun entry member same => absurd ⟨entry, member, same⟩ listed⟩
  choose deficit holds using credit
  exact ⟨⟨port.flows, deficit⟩, rfl, fun entry member => (holds entry.1 entry member rfl).symm⟩

omit [DecidableEq Flow] in
private theorem Reads.sound (sound : port.Sound quantum limit) (reads : Reads port state) :
    DeficitRoundRobin.Sound quantum limit state := by
  refine ⟨reads.ring ▸ sound.nodup, fun flow member => ?_⟩
  rw [reads.ring] at member
  obtain ⟨entry, listed, rfl⟩ := List.mem_map.mp member
  rw [reads.deficit entry listed]
  exact sound.range entry listed

private theorem Reads.accept (sound : port.Sound quantum limit) (reads : Reads port state) :
    ∃ (flows : List Flow) (state' : DeficitRoundRobin.State Flow),
      Run (DeficitRoundRobin.Step quantum limit) state (flows.map .join) state' ∧
      Reads (port.accept quantum flow size) state' := by
  have flows := port.accept_flows quantum flow size
  by_cases idle : port.fifo flow = []
  · have fresh : flow ∉ port.flows := fun listed => (sound.backlogged flow).mp listed idle
    obtain ⟨ring, deficit⟩ := state
    obtain rfl : ring = port.flows := reads.ring
    refine ⟨[flow], _, .single (.join fresh), ?_, fun entry member => ?_⟩
    · rw [flows, if_pos idle]
    · simp only [Port.accept, if_pos idle] at member
      cases List.mem_append.mp member with
      | inl old =>
          have other : entry.1 ≠ flow := fun same => fresh (same ▸ List.mem_map_of_mem old)
          show Function.update deficit flow (quantum flow) entry.1 = entry.2
          rw [Function.update_of_ne other]
          exact reads.deficit entry old
      | inr joined =>
          rw [List.mem_singleton.mp joined]
          exact Function.update_self _ _ _
  · refine ⟨[], state, .nil state, ?_, fun entry member => ?_⟩
    · rw [flows, if_neg idle]
      exact reads.ring
    · simp only [Port.accept, if_neg idle] at member
      exact reads.deficit entry member

private theorem Reads.turn (sound : port.Sound quantum limit) (reads : Reads port state)
    (turns : Turns quantum port next) :
    ∃ flow state', DeficitRoundRobin.Step quantum limit state (.turn flow) state' ∧
      Reads next state' := by
  cases turns with
  | @intro flow credit size ring sizes head front short moves keeps =>
      have flows : port.flows = flow :: ring.map Prod.fst := by
        unfold Port.flows
        rw [head]
        rfl
      have nodup := sound.nodup
      rw [flows, List.nodup_cons] at nodup
      have fits : size ≤ limit := sound.small flow size (by rw [front]; exact List.mem_cons_self)
      obtain ⟨listed, deficit⟩ := state
      obtain rfl : listed = flow :: ring.map Prod.fst := reads.ring.trans flows
      have own : deficit flow = credit :=
        reads.deficit (flow, credit) (by rw [head]; exact List.mem_cons_self)
      refine ⟨flow, _, .turn (by omega), ?_, fun entry member => ?_⟩
      · unfold Port.flows
        rw [moves, List.map_append]
        rfl
      · rw [moves] at member
        cases List.mem_append.mp member with
        | inl behind =>
            have other : entry.1 ≠ flow := fun same => nodup.1 (same ▸ List.mem_map_of_mem behind)
            show Function.update deficit flow _ entry.1 = entry.2
            rw [Function.update_of_ne other]
            apply reads.deficit entry
            rw [head]
            exact List.mem_cons_of_mem _ behind
        | inr moved =>
            rw [List.mem_singleton.mp moved]
            show Function.update deficit flow _ flow = credit + quantum flow
            rw [Function.update_self, own]

private theorem Reads.send (sound : port.Sound quantum limit) (reads : Reads port state)
    (sends : Sends port (some (flow, size)) next) :
    ∃ state', Run (DeficitRoundRobin.Step quantum limit) state
        (.serve flow size :: if next.fifo flow = [] then [.leave flow] else []) state' ∧
      Reads next state' := by
  cases sends with
  | @packet _ _ credit _ ring sizes head front enough moves keeps =>
      have flows : port.flows = flow :: ring.map Prod.fst := by
        unfold Port.flows
        rw [head]
        rfl
      have nodup := sound.nodup
      rw [flows, List.nodup_cons] at nodup
      obtain ⟨listed, deficit⟩ := state
      obtain rfl : listed = flow :: ring.map Prod.fst := reads.ring.trans flows
      have own : deficit flow = credit :=
        reads.deficit (flow, credit) (by rw [head]; exact List.mem_cons_self)
      have serve : DeficitRoundRobin.Step quantum limit ⟨flow :: ring.map Prod.fst, deficit⟩
          (.serve flow size)
          ⟨flow :: ring.map Prod.fst, Function.update deficit flow (deficit flow - size)⟩ :=
        .serve (by omega)
      have behind : ∀ entry ∈ ring,
          Function.update deficit flow (deficit flow - size) entry.1 = entry.2 := by
        intro entry member
        have other : entry.1 ≠ flow := fun same => nodup.1 (same ▸ List.mem_map_of_mem member)
        rw [Function.update_of_ne other]
        apply reads.deficit entry
        rw [head]
        exact List.mem_cons_of_mem _ member
      have stored : next.fifo flow = sizes := by rw [keeps, Function.update_self]
      rw [stored]
      by_cases last : sizes = []
      · rw [if_pos last] at moves ⊢
        refine ⟨_, .cons serve (.single .leave), ?_, fun entry member => ?_⟩
        · unfold Port.flows
          rw [moves]
        · rw [moves] at member
          exact behind entry member
      · rw [if_neg last] at moves ⊢
        refine ⟨_, .single serve, ?_, fun entry member => ?_⟩
        · unfold Port.flows
          rw [moves]
          rfl
        · rw [moves] at member
          cases List.mem_cons.mp member with
          | inl same =>
              rw [same]
              show Function.update deficit flow _ flow = credit - size
              rw [Function.update_self, own]
          | inr inside => exact behind entry inside

private theorem sent_map_join (other : Flow) (flows : List Flow) :
    DeficitRoundRobin.sent other (flows.map .join) = 0 := by
  induction flows with
  | nil => rfl
  | cons flow flows inductionHypothesis => exact inductionHypothesis

/-- Every move is answered by the round robin, in which a flow that stays backlogged does not
leave. -/
theorem Reads.moves {move : Move Flow} (sound : port.Sound quantum limit)
    (reads : Reads port state) (moves : Moves quantum port move next) :
    ∃ answer state', Run (DeficitRoundRobin.Step quantum limit) state answer state' ∧
      Reads next state' ∧ ∀ other, next.fifo other ≠ [] →
        DeficitRoundRobin.sent other answer = move.sentFrom other ∧ .leave other ∉ answer := by
  cases moves with
  | accept flow size =>
      obtain ⟨flows, state', run, reads'⟩ := @Reads.accept _ _ _ _ _ _ flow size sound reads
      exact ⟨_, state', run, reads', fun other _ => ⟨sent_map_join other flows, by simp⟩⟩
  | turn turns =>
      obtain ⟨flow, state', step, reads'⟩ := reads.turn sound turns
      exact ⟨_, state', .single step, reads', fun other _ => ⟨rfl, by simp⟩⟩
  | @send _ flow size sends =>
      obtain ⟨state', run, reads'⟩ := reads.send sound sends
      refine ⟨_, state', run, reads', fun other busy => ⟨?_, ?_⟩⟩
      · have leaves : DeficitRoundRobin.sent other
            (if next.fifo flow = [] then [DeficitRoundRobin.Move.leave flow] else []) = 0 := by
          split <;> rfl
        simp only [DeficitRoundRobin.sent, leaves, Nat.add_zero]
        rfl
      · rw [List.mem_cons, not_or]
        refine ⟨by simp, fun leaves => ?_⟩
        -- a flow that leaves has nothing stored
        split at leaves
        next last =>
          obtain rfl := DeficitRoundRobin.Move.leave.inj (List.mem_singleton.mp leaves)
          exact busy last
        next => exact List.not_mem_nil leaves

end

/-! ### Fairness -/

/-- The flows hold packets. -/
def Port.Backlogged (watched : Flow → Prop) (port : Port Flow) : Prop :=
  ∀ flow, watched flow → port.fifo flow ≠ []

section

variable {quantum : Flow → Nat} {limit : Nat} {first last : Port Flow}
  {state : DeficitRoundRobin.State Flow} {watched : Flow → Prop} {moves : List (Move Flow)}

/-- A run in which the watched flows stay backlogged is a run of the round robin in which they
do not leave and send the same. -/
theorem Reads.run (positive : 0 < limit)
    (run : RunWithin (Port.Backlogged watched) (Moves quantum) first moves last)
    (within : ∀ move ∈ moves, move.Within limit) (sound : first.Sound quantum limit)
    (reads : Reads first state) :
    ∃ answers state', Run (DeficitRoundRobin.Step quantum limit) state answers state' ∧
      (last.Sound quantum limit ∧ Reads last state') ∧ ∀ flow, watched flow →
        DeficitRoundRobin.sent flow answers = sentFrom flow moves ∧ .leave flow ∉ answers := by
  apply RunWithin.simulate (DeficitRoundRobin.Step quantum limit)
    (fun port state => port.Sound quantum limit ∧ Reads port state)
    (fun _ moves _ answers => ∀ flow, watched flow →
      DeficitRoundRobin.sent flow answers = sentFrom flow moves ∧ .leave flow ∉ answers) _ _ run
    within ⟨sound, reads⟩
  · intro first last move state before step after small related
    obtain ⟨answer, state', answered, reads', holds⟩ := related.2.moves related.1 step
    refine ⟨answer, state', answered, ⟨related.1.moves positive step small, reads'⟩, ?_⟩
    intro flow isWatched
    obtain ⟨sent, stays⟩ := holds flow (after flow isWatched)
    exact ⟨by rw [sent]; simp [sentFrom], stays⟩
  · intro port flow _
    exact ⟨rfl, List.not_mem_nil⟩
  · intro first middle last move moves answer rest head tail flow isWatched
    obtain ⟨headSent, headStays⟩ := head flow isWatched
    obtain ⟨tailSent, tailStays⟩ := tail flow isWatched
    constructor
    · rw [DeficitRoundRobin.sent_append, headSent, tailSent]
      simp [sentFrom]
    · simp [headStays, tailStays]

/-- **Weighted fairness.** While two flows stay backlogged, the bytes they send, each counted
in its own quanta, differ by at most three and the largest packet in either quantum. -/
theorem weighted_fairness {left right : Flow} (positive : 0 < limit)
    (leftPositive : 0 < quantum left) (rightPositive : 0 < quantum right)
    (sound : first.Sound quantum limit)
    (run : RunWithin (Port.Backlogged fun flow => flow = left ∨ flow = right) (Moves quantum)
      first moves last)
    (within : ∀ move ∈ moves, move.Within limit) :
    |(sentFrom left moves : ℚ) / quantum left - (sentFrom right moves : ℚ) / quantum right| ≤
      3 + (limit : ℚ) / quantum left + (limit : ℚ) / quantum right := by
  by_cases different : left = right
  · subst different
    rw [sub_self, abs_zero]
    positivity
  obtain ⟨state, reads⟩ := exists_reads sound.nodup
  obtain ⟨answers, state', answered, ⟨sound', reads'⟩, sent⟩ :=
    reads.run positive run within sound
  have listed : ∀ flow, flow = left ∨ flow = right → flow ∈ state.ring := fun flow isWatched => by
    rw [reads.ring]
    exact (sound.backlogged flow).mpr (run.1 flow isWatched)
  have listed' : ∀ flow, flow = left ∨ flow = right → flow ∈ state'.ring :=
    fun flow isWatched => by
      rw [reads'.ring]
      exact (sound'.backlogged flow).mpr (run.good_last flow isWatched)
  obtain ⟨leftSent, leftStays⟩ := sent left (Or.inl rfl)
  obtain ⟨rightSent, rightStays⟩ := sent right (Or.inr rfl)
  have fair := DeficitRoundRobin.abs_sent_div_sub_le answered (reads.sound sound)
    (reads'.sound sound') different leftPositive rightPositive (listed left (Or.inl rfl))
    (listed' left (Or.inl rfl)) (listed right (Or.inr rfl)) (listed' right (Or.inr rfl)) leftStays
    rightStays
  rwa [leftSent, rightSent] at fair

end

/-! ### Implementations -/

/-- What one operation of an implementation does to the port it shows: an action, or turns
alone. -/
inductive Answer (quantum : Flow → Nat) (port : Port Flow) :
    Option (Action Flow) → Port Flow → Prop
  | action {action : Action Flow} {next : Port Flow} (step : Step quantum port action next) :
      Answer quantum port (some action) next
  | turns {next : Port Flow} (turns : ReflTransGen (Turns quantum) port next) :
      Answer quantum port none next

/-- Bytes an action sends from one flow. -/
def Action.sentFrom (flow : Flow) : Option (Action Flow) → Nat
  | some (.dequeue (some (served, size))) => if served = flow then size else 0
  | _ => 0

/-- Bytes an action takes. -/
def Action.acceptedSize : Option (Action Flow) → Nat
  | some (.accept _ size) => size
  | _ => 0

/-- What one of `n` flows sends, by the number of a flow. -/
theorem spread_ite {n : Nat} (i : Fin n) (size number : Nat) :
    spread (fun k => if i = k then size else 0) number =
      if (i : Nat) = number then size else 0 := by
  unfold spread
  by_cases inside : number < n
  · rw [dif_pos inside]
    simp only [Fin.ext_iff]
  · rw [dif_neg inside, if_neg fun same : (i : Nat) = number => inside (same ▸ i.isLt)]
    rfl

/-- Flows that send nothing. -/
theorem spread_zero {n : Nat} (number : Nat) : spread (fun _ : Fin n => 0) number = 0 := by
  unfold spread
  split <;> rfl

section

variable {quantum : Flow → Nat} {limit : Nat} {port middle next : Port Flow}
  {watched : Flow → Prop} {answer : Option (Action Flow)}

/-- Turns keep what is stored. -/
theorem backlogged_of_turns (backlogged : port.Backlogged watched)
    (turns : ReflTransGen (Turns quantum) port middle) :
    ∃ count, RunWithin (Port.Backlogged watched) (Moves quantum) port
      (List.replicate count .turn) middle := by
  induction turns with
  | refl => exact ⟨0, backlogged, .nil port⟩
  | tail _ last inductionHypothesis =>
      obtain ⟨count, before⟩ := inductionHypothesis
      refine ⟨count + 1, before.1, ?_⟩
      rw [List.replicate_succ']
      apply before.2.append
      apply Run.single
      refine ⟨before.good_last, .turn last, fun flow isWatched => ?_⟩
      cases last with
      | intro head front short moves keeps =>
          rw [keeps]
          exact before.good_last flow isWatched

/-- What an operation does is done by moves that send what it sends. -/
theorem Answer.moves (answers : Answer quantum port answer next)
    (before : port.Backlogged watched) (after : next.Backlogged watched) :
    ∃ moves, RunWithin (Port.Backlogged watched) (Moves quantum) port moves next ∧
      (∀ move ∈ moves, move.Within (Action.acceptedSize answer)) ∧
      ∀ flow, RingSchedule.sentFrom flow moves = Action.sentFrom flow answer := by
  have harmless : ∀ {count bound : Nat}, ∀ move ∈ List.replicate count (.turn : Move Flow),
      move.Within bound := fun move member => by
    rw [List.eq_of_mem_replicate member]
    exact trivial
  cases answers with
  | turns turns =>
      obtain ⟨count, run⟩ := backlogged_of_turns before turns
      exact ⟨_, run, harmless, fun flow => sentFrom_replicate_turn flow count⟩
  | action step =>
      cases step with
      | accept flow size =>
          refine ⟨[.accept flow size], ⟨before, .single ⟨before, .accept flow size, after⟩⟩,
            ?_, fun other => rfl⟩
          rw [List.forall_mem_singleton]
          exact le_refl size
      | dequeue turns sends =>
          obtain ⟨count, run⟩ := backlogged_of_turns before turns
          cases sends with
          | idle empty => exact ⟨_, run, harmless, fun flow => sentFrom_replicate_turn flow count⟩
          | @packet _ flow credit size ring sizes head front enough moves keeps =>
              refine ⟨_ ++ [.send flow size], ⟨before, run.2.append (.single ⟨run.good_last,
                .send (.packet head front enough moves keeps), after⟩)⟩, ?_, fun other => ?_⟩
              · rw [List.forall_mem_append]
                exact ⟨harmless, by simp [Move.Within]⟩
              · rw [sentFrom_append, sentFrom_replicate_turn, Nat.zero_add]
                simp [RingSchedule.sentFrom, Move.sentFrom, Action.sentFrom]

end

section

variable {State Label : Type} {step : State → Label → State → Prop} {good busy : State → Prop}
  {quantum : Flow → Nat} {limit : Nat} {shows : State → Port Flow → Prop}
  {sent : Label → Flow → Nat} {accepted : Label → Nat} {watched : Flow → Prop}

/-- Every operation of the implementation is answered by the port it shows; what it sends and
how much it takes is read off its label. -/
structure Implements (step : State → Label → State → Prop) (good : State → Prop)
    (quantum : Flow → Nat) (shows : State → Port Flow → Prop) (sent : Label → Flow → Nat)
    (accepted : Label → Nat) : Prop where
  answer : ∀ {first last : State} {label : Label} {port : Port Flow},
    Within good step first label last → shows first port →
      ∃ answer next, Answer quantum port answer next ∧ shows last next ∧
        (∀ flow, Action.sentFrom flow answer = sent label flow) ∧
        Action.acceptedSize answer ≤ accepted label

/-- A run in which the watched flows stay backlogged is answered by moves of the port. -/
theorem Implements.run {first last : State} {labels : List Label} {port : Port Flow}
    (implements : Implements step good quantum shows sent accepted)
    (stays : ∀ {state port}, busy state → shows state port → port.Backlogged watched)
    (run : RunWithin (fun state => good state ∧ busy state) step first labels last)
    (small : ∀ label ∈ labels, accepted label ≤ limit) (shown : shows first port) :
    ∃ moves next, RunWithin (Port.Backlogged watched) (Moves quantum) port moves next ∧
      shows last next ∧ (∀ move ∈ moves, move.Within limit) ∧
      ∀ flow, sentFrom flow moves = (labels.map fun label => sent label flow).sum := by
  obtain ⟨moves, next, answered, shown', within, answers⟩ :=
    RunWithin.simulate (Within (Port.Backlogged watched) (Moves quantum)) shows
      (fun _ labels _ moves => (∀ move ∈ moves, Move.Within limit move) ∧
        ∀ flow, sentFrom flow moves = (labels.map fun label => sent label flow).sum)
      (fun _ => ⟨List.forall_mem_nil _, fun _ => rfl⟩)
      (fun head tail => ⟨List.forall_mem_append.mpr ⟨head.1, tail.1⟩, fun flow => by
        rw [sentFrom_append, head.2, tail.2]
        simp⟩) run small shown
      (fun {first last label port} before moved after fits shown => by
        obtain ⟨answer, next, answers, shown', sends, takes⟩ :=
          implements.answer ⟨before.1, moved, after.1⟩ shown
        obtain ⟨moves, run, within, movesSend⟩ :=
          answers.moves (stays before.2 shown) (stays after.2 shown')
        refine ⟨moves, next, run.2, shown', fun move member => ?_, fun flow => ?_⟩
        · exact (within move member).mono (takes.trans fits)
        · rw [movesSend, sends]
          simp)
  exact ⟨moves, next, ⟨stays run.1.2 shown, answered⟩, shown', within, answers⟩

/-- **Weighted fairness of implementations.** From an empty port on, and while two flows stay
backlogged, the bytes they send, each counted in its own quanta, differ by at most three and
the largest packet in either quantum. -/
theorem Implements.weighted_fairness {start first last : State} {history interval : List Label}
    {left right : Flow} (implements : Implements step good quantum shows sent accepted)
    (stays : ∀ {state port}, busy state → shows state port →
      port.Backlogged fun flow => flow = left ∨ flow = right)
    (leftPositive : 0 < quantum left) (rightPositive : 0 < quantum right)
    (empty : shows start Port.empty) (before : RunWithin good step start history first)
    (during : RunWithin (fun state => good state ∧ busy state) step first interval last)
    (small : ∀ label ∈ history ++ interval, accepted label ≤ limit) :
    |((interval.map fun label => sent label left).sum : ℚ) / quantum left -
        ((interval.map fun label => sent label right).sum : ℚ) / quantum right| ≤
      3 + (limit : ℚ) / quantum left + (limit : ℚ) / quantum right := by
  have filling : RunWithin (fun state => good state ∧ True) step start history first :=
    before.mono fun _ holds => ⟨holds, trivial⟩
  have unwatched : ∀ {state : State} {port : Port Flow}, True → shows state port →
      port.Backlogged fun _ => False := fun _ _ _ isWatched => isWatched.elim
  obtain ⟨_, port, filled, shown, filledWithin, _⟩ := implements.run unwatched filling
    (fun label member => small label (List.mem_append_left _ member)) empty
  obtain ⟨moves, next, moved, _, movedWithin, answers⟩ := implements.run stays during
    (fun label member => small label (List.mem_append_right _ member)) shown
  rw [← answers left, ← answers right]
  by_cases positive : 0 < limit
  · have sound : port.Sound quantum limit :=
      (filled.run.restrict filledWithin).preserves (Port.Sound quantum limit)
        (fun inside sound => sound.moves positive inside.1 inside.2) Port.sound_empty
    exact RingSchedule.weighted_fairness positive leftPositive rightPositive sound moved movedWithin
  · -- where every packet is empty, nothing is sent
    obtain rfl : limit = 0 := by omega
    have stored : port.Small 0 :=
      (filled.run.restrict filledWithin).preserves (Port.Small 0)
        (fun inside stored => stored.moves inside.1 inside.2) Port.small_empty
    have nothing : ∀ flow, sentFrom flow moves = 0 := fun flow =>
      Nat.le_zero.mp (by simpa using stored.sentFrom_le (moved.run.restrict movedWithin) flow)
    rw [nothing, nothing]
    simp

end

end MqEcn.Library.RingSchedule
