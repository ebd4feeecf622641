import MqEcn.Kernel.Dwrr.Interval
import MqEcn.Kernel.Marker
import MqEcn.Kernel.Wfq.Step

/-!
Contract: the CoDel counters of the classes of `sch_dwrr` and `sch_wfq`.

Owns: that the operations of either qdisc drive the CoDel fields of a class by calls of its
marker, at most one for each packet that leaves the class, and that the counters therefore
stay in range in every run of the qdisc, whatever is written to the parameters meanwhile.

Does not own: what one call does.
-/

set_option autoImplicit false

namespace MqEcn.Kernel

open MqEcn.Library.Transition

/-! ### Systems that drive a marker -/

section

variable {State Param : Type}

/-- A packet of this queue leaves. -/
def Event.leaves (i : Fin 8) : Event Param → Bool
  | .dequeue _ (.packet queue _) => decide (queue = i)
  | _ => false

/-- Every step leaves the fields alone, or dequeues from the queue and calls the marker once. -/
def Drives (step : State → Event Param → State → Prop) (codel : State → Codel) (i : Fin 8) :
    Prop :=
  ∀ s event s', step s event s' →
    codel s' = codel s ∨
      event.leaves i = true ∧ ∃ call : CodelCall, codel s' = (call.run (codel s)).2

namespace Drives

variable {step : State → Event Param → State → Prop} {codel : State → Codel} {i : Fin 8}
  {s s' : State} {events : List (Event Param)}

/-- A run of the system is a run of the marker, with no more marks than packets that leave. -/
theorem calls (drives : Drives step codel i) (run : Run step s events s') {m : Marker}
    (same : m.codel = codel s) :
    ∃ calls m', Run Marker.Step m calls m' ∧ m'.codel = codel s' ∧
      m'.marks ≤ m.marks + events.countP (Event.leaves i) := by
  obtain ⟨calls, m', marker, same', fewer⟩ : ∃ calls m', Run Marker.Step m calls m' ∧
      m'.codel = codel s' ∧ calls.length ≤ events.countP (Event.leaves i) := by
    apply Run.simulate Marker.Step (fun s m => m.codel = codel s)
      (fun _ events _ calls => calls.length ≤ events.countP (Event.leaves i))
      (fun _ => Nat.zero_le _) _ run same
    · intro s event s' m step same
      rcases drives _ _ _ step with kept | ⟨leaves, call, called⟩
      · exact ⟨[], m, .nil m, same.trans kept.symm, Nat.zero_le _⟩
      · refine ⟨[call], m.next call, .single rfl, ?_, ?_⟩
        · rw [called, ← same]
          rfl
        · rw [List.countP_cons_of_pos leaves]
          exact Nat.le_add_left 1 _
    · intro first middle last event events calls rest head tail
      rw [List.length_append, List.countP_cons]
      rw [List.countP_singleton] at head
      omega
  exact ⟨calls, m', marker, same',
    (Marker.marks_le_add_length marker).trans (Nat.add_le_add_left fewer _)⟩

/-- Once the class has been marking, its counters stay in range, for the first `2 ^ 32 - 2`
packets that leave it. -/
theorem inRange (drives : Drives step codel i) {start entered last : State}
    {before after : List (Event Param)} (fresh : codel start = Codel.initial)
    (run : Run step start before entered) (marking : (codel entered).marking = true)
    (rest : Run step entered after last)
    (few : (before ++ after).countP (Event.leaves i) < 2 ^ 32 - 1) : InRange (codel last) := by
  have start : Marker.initial.codel = codel start := fresh.symm
  obtain ⟨_, m, enters, same, early⟩ := drives.calls run start
  obtain ⟨_, m', stays, same', late⟩ := drives.calls rest same
  rw [List.countP_append] at few
  have none : Marker.initial.marks = 0 := rfl
  have fewer : m'.marks < 2 ^ 32 - 1 := by omega
  have tracked := Tracked.of_run enters (lt_of_le_of_lt (Marker.marks_le stays) fewer)
  rw [← same] at marking
  rw [← same']
  exact (Counted.of_run stays (tracked.of_marking marking) fewer).inRange

end Drives

end

/-! ### `sch_dwrr` -/

namespace Dwrr

variable {bfifo : Bfifo} {start entered last : Sys} {before after : List (Event Param)}

private theorem drives (bfifo : Bfifo) (i : Fin 8) :
    Drives (Step bfifo) (fun s => (s.q.queues i).codel) i := by
  intro s event s' step
  by_cases marks : DequeuesFrom i event ∧ s.params.value .ecnScheme = 5
  · obtain ⟨⟨now, sent, rfl⟩, scheme⟩ := marks
    cases step with
    | dequeue later returns =>
        obtain ⟨skb, codel⟩ := dwrrDequeue_codel ⟨scheme, rfl, rfl⟩ returns
        exact Or.inr ⟨decide_eq_true rfl, ⟨_, _, _, skb, now⟩, codel⟩
  · exact Or.inl (step.codel_same fun dequeues scheme => marks ⟨dequeues, scheme⟩)

/-- **Counters of a class of `sch_dwrr`.** In every run from `dwrr_init`, with the parameters
written at any time, the CoDel counters of a class that has been marking are in range. -/
theorem codel_inRange (fresh : Initial start) (run : Run (Step bfifo) start before entered)
    (i : Fin 8) (marking : (entered.q.queues i).codel.marking = true)
    (rest : Run (Step bfifo) entered after last)
    (few : (before ++ after).countP (Event.leaves i) < 2 ^ 32 - 1) :
    InRange (last.q.queues i).codel := by
  apply (drives bfifo i).inRange _ run marking rest few
  obtain ⟨rate, isInit⟩ := fresh
  rw [isInit]
  rfl

end Dwrr

/-! ### `sch_wfq` -/

namespace Wfq

private theorem wfqTransmit_codel (params : Params) (now : Int) (prio i : Fin 8) (skb : Skb)
    (rest : List Skb) (result : Int) (q : WfqSchedData) :
    ∃ call : CodelCall,
      ((wfqTransmit params now prio i skb rest result q).1.queues i).codel =
        if params.value .ecnScheme = 5 then (call.run (q.queues i).codel).2
        else (q.queues i).codel := by
  refine ⟨⟨params.value .codelTarget, params.value .codelInterval,
    ((wfqTransmit params now prio i skb rest result q).1.queues i).lenBytes, skb, now⟩, ?_⟩
  by_cases scheme : params.value .ecnScheme = 5
  · simp [wfqTransmit, dequeueMarking, scheme, CodelCall.run]
  · simp only [wfqTransmit, dequeueMarking, if_neg scheme, Function.update_self]
    split
    · rfl
    · split
      · rfl
      · rfl

private theorem wfqTransmit_codel_of_ne (params : Params) (now : Int) (prio : Fin 8)
    {i other : Fin 8} (skb : Skb) (rest : List Skb) (result : Int) (q : WfqSchedData)
    (different : other ≠ i) :
    ((wfqTransmit params now prio i skb rest result q).1.queues other).codel =
      (q.queues other).codel := by
  simp [wfqTransmit, Function.update_of_ne different]

private theorem wfqAdmit_codel (params : Params) (now : Int) (i : Fin 8) (skb : Skb)
    (q : WfqSchedData) (k : Fin 8) :
    ((wfqAdmit params now i skb q).queues k).codel = (q.queues k).codel := by
  unfold wfqAdmit
  simp only [wfqActivate_eq]
  by_cases same : k = i
  · subst same
    by_cases idle : (q.queues k).qdisc = []
    · simp [idle]
    · simp [idle]
  · simp [same]

variable {bfifo : Bfifo} {start entered last : Sys} {before after : List (Event Param)}

private theorem drives (bfifo : Bfifo) (i : Fin 8) :
    Drives (Step bfifo) (fun s => (s.q.queues i).codel) i := by
  intro s event s' step
  cases step with
  | enqueue later returns =>
      obtain ⟨_, rfl⟩ | ⟨_, _, rfl⟩ := wfqEnqueue_cases returns
      · exact Or.inl rfl
      · exact Or.inl (wfqAdmit_codel _ _ _ _ _ _)
  | dequeue later returns =>
      cases wfqDequeue_cases returns with
      | idle nothing => exact Or.inl rfl
      | fault selected missing => exact Or.inl rfl
      | null selected found empty => exact Or.inl rfl
      | throttled selected found front short => exact Or.inl rfl
      | @packet prio served skb rest selected found front enough =>
          by_cases same : i = served
          · subst same
            obtain ⟨call, codel⟩ := wfqTransmit_codel s.params _ prio i skb rest _ s.q
            by_cases scheme : s.params.value .ecnScheme = 5
            · rw [if_pos scheme] at codel
              exact Or.inr ⟨decide_eq_true rfl, call, codel⟩
            · rw [if_neg scheme] at codel
              exact Or.inl codel
          · exact Or.inl (wfqTransmit_codel_of_ne _ _ _ _ _ _ _ same)
  | sysctl param value => exact Or.inl rfl
  | change rate => exact Or.inl rfl

/-- **Counters of a class of `sch_wfq`.** As for `sch_dwrr`. -/
theorem codel_inRange (fresh : Initial start) (run : Run (Step bfifo) start before entered)
    (i : Fin 8) (marking : (entered.q.queues i).codel.marking = true)
    (rest : Run (Step bfifo) entered after last)
    (few : (before ++ after).countP (Event.leaves i) < 2 ^ 32 - 1) :
    InRange (last.q.queues i).codel := by
  apply (drives bfifo i).inRange _ run marking rest few
  obtain ⟨rate, isInit⟩ := fresh
  rw [isInit]
  rfl

end Wfq

end MqEcn.Kernel
