import MqEcn.Kernel.Dwrr.Bookkeeping

/-!
Contract: the `while (1)` of `dwrr_dequeue` in DWRR mode.

Owns: the measure that every rotation lowers, termination of the loop from any
state with packets below `2 ^ 31` bytes, the exactness of the deficits while it
rotates, and the work conservation of the call from every reachable state.

Does not own: WRR mode, in which a rotation replaces the deficit, and the order in
which queues are served.
-/

set_option autoImplicit false

namespace MqEcn.Kernel.Dwrr

open Finset
open MqEcn.Kernel
open MqEcn.Library
open MqEcn.Library.Transition
open MqEcn.Library.Word
open Relation (ReflTransGen)

/-- No stored packet is accounted with more than `limit` bytes. -/
def StoredWithin (limit : Nat) (q : DwrrSchedData) : Prop :=
  ∀ i, ∀ skb ∈ (q.queues i).qdisc, skbSize skb ≤ limit

theorem StoredWithin.of_view {limit : Nat} {q q' : DwrrSchedData} (within : StoredWithin limit q)
    (same : view q' = view q) : StoredWithin limit q' := by
  intro i
  rw [qdisc_of_view same]
  exact within i

theorem storedWithin_of_balanced {q : DwrrSchedData} (balanced : (view q).Balanced) :
    StoredWithin 2000024 q :=
  fun _ _ member => (balanced.stored_size member).2

private theorem StoredWithin.step {bfifo : Bfifo} {limit : Nat} {s s' : Sys} {event : Event Param}
    (step : Step bfifo s event s') (accepted : event.acceptedSize ≤ limit)
    (within : StoredWithin limit s.q) : StoredWithin limit s'.q := by
  cases step with
  | enqueue later returns =>
      obtain ⟨roundTime, ⟨_, rfl⟩ | ⟨rfl, _, rfl⟩⟩ := dwrrEnqueue_cases returns
      · exact within
      · obtain ⟨marked, sameLen, fifo⟩ := dwrrAdmit_qdisc s.params _ _ _ _ { s.q with roundTime }
        intro k skb member
        rw [fifo k] at member
        rcases List.mem_append.mp member with old | new
        · exact within k skb old
        · split at new
          · obtain rfl := List.mem_singleton.mp new
            exact (skbSize_eq_of_len_eq sameLen).trans_le accepted
          · exact absurd new List.not_mem_nil
  | dequeue later returns =>
      rcases dwrrDequeue_cases returns with ⟨_, rfl, _⟩ | ⟨prio, middle, _, rotations, exit⟩
      · exact within
      · have rotated := within.of_view (view_of_rotations rotations)
        cases exit with
        | fault | null | throttled => exact rotated
        | @packet i ring skb rest head front affordable enough =>
            intro k skb' member
            rw [dwrrTransmit_qdisc] at member
            split at member
            next same =>
              apply rotated k skb'
              rw [same, front]
              exact List.mem_cons_of_mem _ member
            next => exact rotated k skb' member
  | sysctl => exact within
  | change => exact within

/-- What is stored was accepted on the way. -/
theorem storedWithin_of_run {bfifo : Bfifo} {limit : Nat} {start s : Sys}
    {events : List (Event Param)} (run : Run (Step bfifo) start events s)
    (accepted : ∀ event ∈ events, event.acceptedSize ≤ limit)
    (within : StoredWithin limit start.q) : StoredWithin limit s.q :=
  (run.restrict accepted).preserves (fun s => StoredWithin limit s.q)
    (fun step within => within.step step.1 step.2) within

/-! ### Rotations in DWRR mode -/

section

variable {params : Params} {limit : Nat}

/-- The deficit of a queue after a rotation of queue `i`. -/
def grantedDeficit (params : Params) (i : Fin 8) (q : DwrrSchedData) (other : Fin 8) : Nat :=
  (q.queues other).deficit + if other = i then params.queueQuantum i else 0

/-- A rotation grants one quantum, and the 32-bit sum does not wrap. -/
theorem rotate_deficit_exact (prio : Fin 8) (dwrr : params.value .enableWrr = 0)
    {q : DwrrSchedData} {i : Fin 8} {skb : Skb} {rest : List Skb} (small : limit < 2 ^ 31)
    (within : StoredWithin limit q) (front : (q.queues i).qdisc = skb :: rest)
    (blocked : (q.queues i).deficit < skbSize skb)
    (other : Fin 8) :
    ((dwrrRotate params prio i q).queues other).deficit = grantedDeficit params i q other := by
  unfold grantedDeficit
  by_cases same : other = i
  · subst same
    have size := within other skb (by simp [front])
    have quantum := (params.queueQuantum_range other).2
    rw [dwrrRotate_deficit, dwrr, if_neg (by decide), if_pos rfl, u32_of_lt (by omega)]
  · rw [dwrrRotate_deficit_of_ne _ _ _ same, if_neg same, Nat.add_zero]

/-- What the head of a FIFO lacks to be affordable. -/
def shortfall (cl : DwrrClass) : Nat :=
  match cl.qdisc with
  | [] => 0
  | skb :: _ => skbSize skb - cl.deficit

/-- Every rotation lowers the total shortfall. -/
theorem rotate_shortfall_lt (prio : Fin 8) (dwrr : params.value .enableWrr = 0)
    {q : DwrrSchedData} {i : Fin 8} {skb : Skb} {rest : List Skb} (small : limit < 2 ^ 31)
    (within : StoredWithin limit q) (front : (q.queues i).qdisc = skb :: rest)
    (blocked : (q.queues i).deficit < skbSize skb) :
    ∑ other, shortfall ((dwrrRotate params prio i q).queues other) <
      ∑ other, shortfall (q.queues other) := by
  have same := view_rotate params prio i q
  have granted := rotate_deficit_exact prio dwrr small within front blocked
  have positive := (params.queueQuantum_range i).1
  refine sum_lt_sum (fun other _ => ?_) ⟨i, mem_univ i, ?_⟩
  · unfold shortfall
    rw [qdisc_of_view same, granted other]
    unfold grantedDeficit
    split <;> omega
  · unfold shortfall
    rw [qdisc_of_view same, granted i, front]
    simp only [grantedDeficit, if_true]
    omega

end

/-! ### Termination -/

/-- With more fuel than the total shortfall the loop returns. -/
theorem dwrrDequeueLoop_returns {params : Params} (prio : Fin 8) {limit : Nat}
    (dwrr : params.value .enableWrr = 0) (small : limit < 2 ^ 31) (now : Int) {fuel : Nat}
    {q : DwrrSchedData} (within : StoredWithin limit q)
    (enough : ∑ i, shortfall (q.queues i) < fuel) :
    ∃ result, dwrrDequeueLoop params now prio fuel q = some result := by
  induction fuel generalizing q with
  | zero => omega
  | succ fuel inductionHypothesis =>
      unfold dwrrDequeueLoop
      split
      · exact ⟨_, rfl⟩
      next i ring head =>
        split
        · exact ⟨_, rfl⟩
        next skb rest front =>
          split
          · simp only
            split
            · exact ⟨_, rfl⟩
            · exact ⟨_, rfl⟩
          · have lower := rotate_shortfall_lt prio dwrr small within front (by omega)
            exact inductionHypothesis (within.of_view (view_rotate params prio i q)) (by omega)

/-- More fuel does not change what the loop returns. -/
theorem dwrrDequeueLoop_mono {params : Params} {now : Int} {prio : Fin 8} {fuel more : Nat}
    {q : DwrrSchedData} {result : DwrrSchedData × Dequeued}
    (returns : dwrrDequeueLoop params now prio fuel q = some result) (le : fuel ≤ more) :
    dwrrDequeueLoop params now prio more q = some result := by
  induction fuel generalizing q more with
  | zero => cases returns
  | succ fuel inductionHypothesis =>
      obtain ⟨more, rfl⟩ : ∃ less, more = less + 1 := ⟨more - 1, by omega⟩
      unfold dwrrDequeueLoop at returns ⊢
      split at returns
      · simpa using returns
      next i ring head =>
        split at returns
        · simpa using returns
        next skb rest front =>
          split at returns
          next affordable => rw [if_pos affordable]; exact returns
          next blocked =>
            rw [if_neg blocked]
            exact inductionHypothesis returns (by omega)

theorem dwrrDequeue_mono {params : Params} {now : Int} {fuel more : Nat} {q : DwrrSchedData}
    {result : DwrrSchedData × Dequeued} (returns : dwrrDequeue params now fuel q = some result)
    (le : fuel ≤ more) : dwrrDequeue params now more q = some result := by
  unfold dwrrDequeue at returns ⊢
  cases selected : prioSchedule q with
  | none =>
      rw [selected] at returns
      exact returns
  | some prio =>
      rw [selected] at returns
      exact dwrrDequeueLoop_mono returns le

/-- `dwrr_dequeue` returns, and the same thing for all sufficient fuel. -/
theorem dwrrDequeue_returns {params : Params} {limit : Nat} (dwrr : params.value .enableWrr = 0)
    (small : limit < 2 ^ 31) (now : Int) {q : DwrrSchedData} (within : StoredWithin limit q) :
    ∃ fuel₀ result, ∀ fuel ≥ fuel₀, dwrrDequeue params now fuel q = some result := by
  unfold dwrrDequeue
  cases prioSchedule q with
  | none => exact ⟨0, _, fun _ _ => rfl⟩
  | some prio =>
      obtain ⟨result, returns⟩ := dwrrDequeueLoop_returns prio dwrr small now within
        (Nat.lt_succ_self _)
      exact ⟨_, result, fun fuel more => dwrrDequeueLoop_mono returns more⟩

/-! ### Work conservation -/

/-- Rotations leave the token bucket alone. -/
theorem tbfSchedule_of_rotations {params : Params} {prio : Fin 8} {q middle : DwrrSchedData}
    (rotations : ReflTransGen (Rotates params prio) q middle) (len : Nat) (now : Int) :
    tbfSchedule params len middle now = tbfSchedule params len q now := by
  induction rotations with
  | refl => rfl
  | tail _ last inductionHypothesis =>
      rw [← inductionHypothesis]
      cases last with
      | intro => rfl

/-- The head packet the loop selects: that of the queue the rotations leave at the
head of the first non-empty active list, with the deficit to send it. -/
def Selected (params : Params) (q : DwrrSchedData) (i : Fin 8) (skb : Skb) : Prop :=
  ∃ prio middle ring rest, prioSchedule q = some prio ∧
    ReflTransGen (Rotates params prio) q middle ∧ middle.active prio = i :: ring ∧
    (q.queues i).qdisc = skb :: rest ∧ skbSize skb ≤ (middle.queues i).deficit

/-- What a work-conserving dequeue may answer, and what it then does to the FIFOs. -/
def WorkConserving (params : Params) (now : Int) (q q' : DwrrSchedData) : Dequeued → Prop
  | .fault => False
  | .null => ∀ i, (q.queues i).qdisc = []
  | .throttled expires => ∃ i skb, Selected params q i skb ∧
      tbfSchedule params (skbSize skb) q now < 0 ∧
      expires = now - tbfSchedule params (skbSize skb) q now ∧
      ∀ other, (q'.queues other).qdisc = (q.queues other).qdisc
  | .packet i returned => ∃ skb rest, Selected params q i skb ∧ MarkedFrom skb returned ∧
      (q.queues i).qdisc = skb :: rest ∧ (q'.queues i).qdisc = rest ∧
      ∀ other ≠ i, (q'.queues other).qdisc = (q.queues other).qdisc

theorem workConserving {params : Params} {now : Int} {fuel : Nat} {q q' : DwrrSchedData}
    {outcome : Dequeued} (linked : Linked q)
    (returns : dwrrDequeue params now fuel q = some (q', outcome)) :
    WorkConserving params now q q' outcome := by
  rcases dwrrDequeue_cases returns with ⟨idle, rfl, rfl⟩ | ⟨prio, middle, selected, rotations, exit⟩
  · intro i
    by_contra nonempty
    have member := linked.mem_iff.mpr ⟨rfl, nonempty⟩
    simp [prioSchedule_eq_none idle] at member
  · have same := view_of_rotations rotations
    have rotated := linked.rotations rotations
    have busy := (prioSchedule_eq_some selected).1
    cases exit with
    | fault empty =>
        obtain ⟨i, member⟩ := List.exists_mem_of_ne_nil _ busy
        have own := linked.mem_iff.mp member
        rw [← prio_of_view same, ← qdisc_of_view same] at own
        have stays := rotated.mem_iff.mpr own
        simp [empty] at stays
    | null head empty => exact absurd empty (rotated.head head).2
    | @throttled i ring skb rest head front affordable short =>
        rw [tbfSchedule_of_rotations rotations] at short ⊢
        rw [qdisc_of_view same] at front
        exact ⟨i, skb, ⟨prio, q', ring, rest, selected, rotations, head, front, affordable⟩,
          short, rfl, fun other => qdisc_of_view same other⟩
    | @packet i ring skb rest head front affordable enough =>
        rw [qdisc_of_view same] at front
        refine ⟨skb, rest, ⟨prio, middle, ring, rest, selected, rotations, head, front, affordable⟩,
          dwrrTransmit_markedFrom _ _ _ _ _ _ _ _, front, ?_, fun other different => ?_⟩
        · rw [dwrrTransmit_qdisc, if_pos rfl]
        · rw [dwrrTransmit_qdisc, if_neg different, qdisc_of_view same]

/-- **Termination and work conservation.** From every reachable state in DWRR mode
with packets below `2 ^ 31` bytes the dequeue returns; no deficit wraps in any
rotation of its loop; it answers NULL only when nothing is stored or when the bucket
does not cover the selected head packet, which arms the timer; and otherwise it
removes the head of exactly one queue. -/
theorem dwrrDequeue_workConserving {bfifo : Bfifo} {s : Sys} (reachable : Reachable bfifo s)
    (dwrr : s.params.value .enableWrr = 0)
    (small : ∀ i, ∀ skb ∈ (s.q.queues i).qdisc, skbSize skb < 2 ^ 31) (now : Int) :
    (∃ fuel₀ q' outcome,
      (∀ fuel ≥ fuel₀, dwrrDequeue s.params now fuel s.q = some (q', outcome)) ∧
      WorkConserving s.params now s.q q' outcome) ∧
    ∀ prio middle next i ring, prioSchedule s.q = some prio →
      ReflTransGen (Rotates s.params prio) s.q middle → Rotates s.params prio middle next →
      middle.active prio = i :: ring →
      (next.queues i).deficit = (middle.queues i).deficit + s.params.queueQuantum i := by
  have within : StoredWithin (2 ^ 31 - 1) s.q := fun i skb member =>
    Nat.le_sub_one_of_lt (small i skb member)
  constructor
  · obtain ⟨fuel₀, ⟨q', outcome⟩, returns⟩ :=
      dwrrDequeue_returns dwrr (by decide) now within
    exact ⟨fuel₀, q', outcome, returns,
      workConserving (linked_of_reachable reachable) (returns fuel₀ le_rfl)⟩
  · intro prio middle next i ring _ rotations rotation isHead
    cases rotation with
    | @intro j ring' skb rest head front blocked =>
        rw [isHead] at head
        obtain rfl : i = j := (List.cons.inj head).1
        have granted := rotate_deficit_exact prio dwrr (by decide)
          (within.of_view (view_of_rotations rotations)) front blocked i
        simpa [grantedDeficit] using granted

/-- The loaded qdisc answers a dequeue long after the last enqueue. -/
theorem loaded_workConserving : ∃ fuel₀ q' outcome,
    (∀ fuel ≥ fuel₀, dwrrDequeue loaded.params 100000 fuel loaded.q = some (q', outcome)) ∧
      WorkConserving loaded.params 100000 loaded.q q' outcome :=
  (dwrrDequeue_workConserving loaded_reachable rfl (by decide) 100000).1

end MqEcn.Kernel.Dwrr
