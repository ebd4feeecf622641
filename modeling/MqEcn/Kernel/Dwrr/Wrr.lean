import MqEcn.Kernel.Dwrr.Loop

/-!
Contract: the `while (1)` of `dwrr_dequeue` in WRR mode.

Owns: the exact states from which the loop returns, the class of runs in every
state of which it does, and a state it never leaves.

Does not own: DWRR mode, in which a rotation adds to the deficit.
-/

set_option autoImplicit false

namespace MqEcn.Kernel.Dwrr

open MqEcn.Kernel
open MqEcn.Library.Transition

/-- Some queue linked in the list can send its head, out of the deficit it has or out
of the quantum a rotation gives it. -/
def Serviceable (params : Params) (prio : Fin 8) (q : DwrrSchedData) : Prop :=
  ∃ i ∈ q.active prio, ∃ skb rest, (q.queues i).qdisc = skb :: rest ∧
    (skbSize skb ≤ (q.queues i).deficit ∨ skbSize skb ≤ params.queueQuantum i)

/-- No queue linked in the list can. -/
structure Starved (params : Params) (prio : Fin 8) (q : DwrrSchedData) : Prop where
  busy : q.active prio ≠ []
  short : ∀ i ∈ q.active prio, ∃ skb rest, (q.queues i).qdisc = skb :: rest ∧
    (q.queues i).deficit < skbSize skb ∧ params.queueQuantum i < skbSize skb

section

variable {params : Params} {prio : Fin 8} {q : DwrrSchedData}

private theorem mem_rotate_active {i j : Fin 8} {ring : List (Fin 8)}
    (head : q.active prio = i :: ring) :
    j ∈ (dwrrRotate params prio i q).active prio ↔ j ∈ q.active prio := by
  rw [dwrrRotate_active, Function.update_self, head, List.erase_cons_head, List.mem_append,
    List.mem_singleton, List.mem_cons]
  exact Or.comm

/-! ### A loop that does not return -/

/-- A rotation in WRR mode starves what was starved. -/
theorem Starved.rotate (wrr : params.value .enableWrr = 1) {i : Fin 8} {ring : List (Fin 8)}
    (head : q.active prio = i :: ring) (starved : Starved params prio q) :
    Starved params prio (dwrrRotate params prio i q) := by
  constructor
  · exact List.ne_nil_of_mem ((mem_rotate_active head).mpr (head ▸ List.mem_cons_self))
  · intro j member
    obtain ⟨skb, rest, front, deficit, quantum⟩ :=
      starved.short j ((mem_rotate_active head).mp member)
    refine ⟨skb, rest, ?_, ?_, quantum⟩
    · rw [qdisc_of_view (view_rotate params prio i q), front]
    · by_cases same : j = i
      · subst same
        rw [dwrrRotate_deficit, if_pos wrr]
        exact quantum
      · rw [dwrrRotate_deficit_of_ne _ _ _ same]
        exact deficit

/-- From a starved list the loop rotates for ever. -/
theorem Starved.dwrrDequeueLoop_eq_none (wrr : params.value .enableWrr = 1) (now : Int) (fuel : Nat)
    (starved : Starved params prio q) : dwrrDequeueLoop params now prio fuel q = none := by
  induction fuel generalizing q with
  | zero => rfl
  | succ fuel inductionHypothesis =>
      rcases List.exists_cons_of_ne_nil starved.busy with ⟨i, ring, head⟩
      rcases starved.short i (by simp [head]) with ⟨skb, rest, front, deficit, _⟩
      unfold dwrrDequeueLoop
      simp only [head, front, if_neg (not_le.mpr deficit)]
      exact inductionHypothesis (starved.rotate wrr head)

/-! ### A loop that returns -/

/-- A pass that rotates returns if the rest of the loop does. -/
theorem dwrrDequeueLoop_returns_of_rotate {now : Int} {i : Fin 8} {ring : List (Fin 8)}
    (head : q.active prio = i :: ring)
    (returns : ∃ fuel result,
      dwrrDequeueLoop params now prio fuel (dwrrRotate params prio i q) = some result) :
    ∃ fuel result, dwrrDequeueLoop params now prio fuel q = some result := by
  rcases returns with ⟨fuel, result, later⟩
  refine ⟨fuel + 1, ?_⟩
  unfold dwrrDequeueLoop
  simp only [head]
  split
  · exact ⟨_, rfl⟩
  · split
    · split
      · exact ⟨_, rfl⟩
      · exact ⟨_, rfl⟩
    · exact ⟨result, later⟩

/-- The queues before the one at `position` are rotated out of its way. -/
theorem dwrrDequeueLoop_returns_of_behind {now : Int} {i : Fin 8} {ahead behind : List (Fin 8)}
    (position : q.active prio = ahead ++ i :: behind) (linked : Linked q)
    (arrives : ∀ q' behind', q'.active prio = i :: behind' → Linked q' → view q' = view q →
      (q'.queues i).deficit = (q.queues i).deficit →
        ∃ fuel result, dwrrDequeueLoop params now prio fuel q' = some result) :
    ∃ fuel result, dwrrDequeueLoop params now prio fuel q = some result := by
  induction ahead generalizing q behind with
  | nil => exact arrives q behind position linked rfl rfl
  | cons k ahead inductionHypothesis =>
      have head : q.active prio = k :: (ahead ++ i :: behind) := position
      have different : i ≠ k := by
        have distinct := linked.nodup prio
        rw [head, List.nodup_cons] at distinct
        rintro rfl
        exact distinct.1 (by simp)
      apply dwrrDequeueLoop_returns_of_rotate head
      have moved : (dwrrRotate params prio k q).active prio = ahead ++ i :: (behind ++ [k]) := by
        rw [dwrrRotate_active, Function.update_self, head, List.erase_cons_head]
        simp
      apply inductionHypothesis moved (linked.rotate head)
      intro q' behind' first linked' viewed kept
      apply arrives q' behind' first linked' (viewed.trans (view_rotate params prio k q))
      rw [kept, dwrrRotate_deficit_of_ne _ _ _ different]

/-- A queue that affords its head is served when its turn comes, if none is before. -/
theorem dwrrDequeueLoop_returns_of_affordable {now : Int} {i : Fin 8} {skb : Skb} {rest : List Skb}
    (linked : Linked q) (member : i ∈ q.active prio) (front : (q.queues i).qdisc = skb :: rest)
    (affordable : skbSize skb ≤ (q.queues i).deficit) :
    ∃ fuel result, dwrrDequeueLoop params now prio fuel q = some result := by
  rcases List.append_of_mem member with ⟨ahead, behind, position⟩
  apply dwrrDequeueLoop_returns_of_behind position linked
  intro q' behind' head _ viewed kept
  refine ⟨1, ?_⟩
  unfold dwrrDequeueLoop
  rw [← qdisc_of_view viewed] at front
  rw [← kept] at affordable
  simp only [head, front, if_pos affordable]
  split
  · exact ⟨_, rfl⟩
  · exact ⟨_, rfl⟩

/-- In WRR mode a queue whose quantum covers its head is served in the round after next
at the latest. -/
theorem dwrrDequeueLoop_returns_of_quantum {now : Int} {i : Fin 8} {skb : Skb} {rest : List Skb}
    (wrr : params.value .enableWrr = 1) (linked : Linked q) (member : i ∈ q.active prio)
    (front : (q.queues i).qdisc = skb :: rest) (covers : skbSize skb ≤ params.queueQuantum i) :
    ∃ fuel result, dwrrDequeueLoop params now prio fuel q = some result := by
  rcases List.append_of_mem member with ⟨ahead, behind, position⟩
  apply dwrrDequeueLoop_returns_of_behind position linked
  intro q' behind' head linked' viewed _
  apply dwrrDequeueLoop_returns_of_rotate head
  apply dwrrDequeueLoop_returns_of_affordable (linked'.rotate head)
    ((mem_rotate_active head).mpr (head ▸ List.mem_cons_self))
  · rw [qdisc_of_view (view_rotate params prio i q'), qdisc_of_view viewed, front]
  · rw [dwrrRotate_deficit, if_pos wrr]
    exact covers

end

/-! ### Reachable states -/

/-- A list that links packets only is starved where it is not serviceable. -/
theorem starved_of_not_serviceable {params : Params} {prio : Fin 8} {q : DwrrSchedData}
    (linked : Linked q) (selected : prioSchedule q = some prio)
    (unserviceable : ¬Serviceable params prio q) : Starved params prio q := by
  refine ⟨(prioSchedule_eq_some selected).1, fun i member => ?_⟩
  rcases List.exists_cons_of_ne_nil (linked.mem_iff.mp member).2 with ⟨skb, rest, front⟩
  by_contra enough
  apply unserviceable
  refine ⟨i, member, skb, rest, front, ?_⟩
  by_contra neither
  rw [not_or, not_le, not_le] at neither
  exact enough ⟨skb, rest, front, neither⟩

private theorem Serviceable.returns {params : Params} {now : Int} {prio : Fin 8} {q : DwrrSchedData}
    (wrr : params.value .enableWrr = 1) (linked : Linked q)
    (serviceable : Serviceable params prio q) :
    ∃ fuel result, dwrrDequeueLoop params now prio fuel q = some result := by
  rcases serviceable with ⟨i, member, skb, rest, front, affordable | covers⟩
  · exact dwrrDequeueLoop_returns_of_affordable linked member front affordable
  · exact dwrrDequeueLoop_returns_of_quantum wrr linked member front covers

/-- **Termination in WRR mode.** In every state a run reaches, the dequeue returns if and
only if a queue of the selected priority affords its head packet or has a quantum that
covers it. It does in every run that accepts full-sized frames at most. -/
theorem wrr_dequeue_returns_iff {bfifo : Bfifo} {start s : Sys} {events : List (Event Param)}
    (fresh : Initial start) (run : Run (Step bfifo) start events s)
    (wrr : s.params.value .enableWrr = 1) (now : Int) :
    ((∃ fuel result, dwrrDequeue s.params now fuel s.q = some result) ↔
      ∀ prio, prioSchedule s.q = some prio → Serviceable s.params prio s.q) ∧
    ((∀ event ∈ events, event.acceptedSize ≤ maxPktBytes) →
      ∃ fuel result, dwrrDequeue s.params now fuel s.q = some result) := by
  have linked := linked_of_reachable ⟨start, events, fresh, run⟩
  have exact : (∃ fuel result, dwrrDequeue s.params now fuel s.q = some result) ↔
      ∀ prio, prioSchedule s.q = some prio → Serviceable s.params prio s.q := by
    constructor
    · rintro ⟨fuel, result, returns⟩ prio selected
      by_contra unserviceable
      have starved := starved_of_not_serviceable linked selected unserviceable
      have never := starved.dwrrDequeueLoop_eq_none wrr now fuel
      simp [dwrrDequeue, selected, never] at returns
    · intro serviceable
      unfold dwrrDequeue
      cases selected : prioSchedule s.q with
      | none => exact ⟨0, _, rfl⟩
      | some prio => exact (serviceable prio selected).returns wrr linked
  refine ⟨exact, fun accepted => exact.mpr fun prio selected => ?_⟩
  have within : StoredWithin maxPktBytes s.q := by
    apply storedWithin_of_run run accepted
    rcases fresh with ⟨rate, initial⟩
    rw [initial]
    exact fun _ _ member => absurd member List.not_mem_nil
  rcases List.exists_mem_of_ne_nil _ (prioSchedule_eq_some selected).1 with ⟨i, member⟩
  rcases List.exists_cons_of_ne_nil (linked.mem_iff.mp member).2 with ⟨skb, rest, front⟩
  have size := within i skb (by simp [front])
  exact ⟨i, member, skb, rest, front, Or.inr (size.trans (s.params.queueQuantum_range i).1)⟩

/-! ### A frame beyond every quantum -/

/-- A fresh qdisc in WRR mode with the default quanta. -/
def wrrIdle : Sys := ⟨paramsInit.write .enableWrr 1, dwrrInit 0 125000000, 0⟩

/-- The jumbo frame is accepted, and no dequeue ever returns. -/
theorem jumboFrame_spins : Reachable byteLimit (wrrIdle.enqueue 1 (jumboFrame 0)) ∧
    (wrrIdle.enqueue 1 (jumboFrame 0)).params.value .enableWrr = 1 ∧
    ∀ now fuel, dwrrDequeue (wrrIdle.enqueue 1 (jumboFrame 0)).params now fuel
      (wrrIdle.enqueue 1 (jumboFrame 0)).q = none := by
  have run : Run (Step byteLimit) wrrIdle [.enqueue 1 (jumboFrame 0) .success]
      (wrrIdle.enqueue 1 (jumboFrame 0)) :=
    .single (Sys.enqueue_step (by decide) (by decide))
  have starved : Starved (wrrIdle.enqueue 1 (jumboFrame 0)).params 0
      (wrrIdle.enqueue 1 (jumboFrame 0)).q := by
    refine ⟨by decide, fun i member => ?_⟩
    have only : (wrrIdle.enqueue 1 (jumboFrame 0)).q.active 0 = [0] := by decide
    rw [only, List.mem_singleton] at member
    subst member
    exact ⟨_, [], rfl, by decide, by decide⟩
  have selected : prioSchedule (wrrIdle.enqueue 1 (jumboFrame 0)).q = some 0 := by decide
  refine ⟨⟨wrrIdle, _, ⟨_, rfl⟩, run⟩, by decide, fun now fuel => ?_⟩
  unfold dwrrDequeue
  rw [selected]
  exact starved.dwrrDequeueLoop_eq_none (by decide) now fuel

private theorem fullFrame_run : Run (Step byteLimit) wrrIdle [.enqueue 1 (fullFrame 0) .success]
    (wrrIdle.enqueue 1 (fullFrame 0)) :=
  .single (Sys.enqueue_step (by decide) (by decide))

/-- A full-sized frame leaves. -/
theorem fullFrame_returns : ∃ fuel result,
    dwrrDequeue (wrrIdle.enqueue 1 (fullFrame 0)).params 100000 fuel
      (wrrIdle.enqueue 1 (fullFrame 0)).q = some result :=
  (wrr_dequeue_returns_iff ⟨_, rfl⟩ fullFrame_run (by decide) 100000).2 (by decide)

end MqEcn.Kernel.Dwrr
