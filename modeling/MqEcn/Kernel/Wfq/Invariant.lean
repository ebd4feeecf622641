import MqEcn.Kernel.Wfq.VirtualTime

/-!
Contract: what holds of `sch_wfq` in every reachable state.

Owns: the spread of the finish times below the virtual time, the advance from one
head packet of a queue to the next, the counters as sums, the queue the scan ends
with, and the exactness of the counters in every step.

Does not own: fairness over intervals.
-/

set_option autoImplicit false

namespace MqEcn.Kernel.Wfq

open Finset
open MqEcn.Kernel
open MqEcn.Library
open MqEcn.Library.Transition
open MqEcn.Library.Word

/-! ### The timed invariant along runs -/

section

variable {bfifo : Bfifo} {limit : Nat}

theorem covers_const (limit : Nat) (params : Params) :
    Covers limit params fun _ => (limit : Int) := by
  intro i
  show ((limit / params.queueWeight i : Nat) : Int) ≤ (limit : Int)
  exact_mod_cast Nat.div_le_self limit (params.queueWeight i)

theorem narrow_const (small : limit ≤ 2000024) : Narrow fun _ => (limit : Int) where
  nonneg := fun _ => Int.natCast_nonneg limit
  total := by
    simp only [sum_const, card_univ, Fintype.card_fin, nsmul_eq_mul]
    omega

/-- The inner FIFO takes no packet above its own limit. -/
theorem skbSize_le_of_taken (bounded : bfifo.Bounded) {params : Params} {now : Int} {skb : Skb}
    {q q' : WfqSchedData} {ret : NetXmit}
    (returns : wfqEnqueue bfifo params now skb q = (q', ret)) (success : ret = .success) :
    skbSize skb ≤ 2000024 := by
  rcases wfqEnqueue_cases returns with ⟨refused, _⟩ | ⟨_, taken, _⟩
  · exact absurd success refused
  · exact (skbSize_range ((Nat.le_add_left _ _).trans (bounded _ _ taken))).2.1

theorem acceptedSize_le (bounded : bfifo.Bounded) {s s' : Sys} {event : Event Param}
    (step : Step bfifo s event s') : event.acceptedSize ≤ 2000024 := by
  cases step with
  | @enqueue now skb q' ret later returns =>
      cases ret with
      | success => exact skbSize_le_of_taken bounded returns rfl
      | drop | cn => exact Nat.zero_le _
  | dequeue | sysctl | change => exact Nat.zero_le _

private theorem timed_of_run (bounded : bfifo.Bounded) (small : limit ≤ 2000024) {start s : Sys}
    {events : List (Event Param)} (fresh : Initial start) (run : Run (Step bfifo) start events s)
    (accepted : ∀ event ∈ events, event.acceptedSize ≤ limit) :
    Timed limit (fun _ => (limit : Int)) s.q := by
  apply (run.restrict accepted).preserves fun s => Timed limit (fun _ => limit) s.q
  · intro first event last step timed
    exact timed.step bounded (narrow_const small) step.1 (covers_const _ _) step.2
  · obtain ⟨rate, initial⟩ := fresh
    rw [initial]
    exact timed_wfqInit _ _ _ _

theorem timed_of_reachable (bounded : bfifo.Bounded) {s : Sys} (reachable : Reachable bfifo s) :
    Timed 2000024 (fun _ => ((2000024 : Nat) : Int)) s.q := by
  obtain ⟨start, events, fresh, run⟩ := reachable
  exact timed_of_run bounded le_rfl fresh run (run.forall_label (acceptedSize_le bounded))

end

/-! ### Virtual time -/

/-- The queue holds a packet and is counted under the priority. -/
def Busy (prio : Fin 8) (cl : WfqClass) : Prop := cl.prio = prio ∧ cl.qdisc ≠ []

instance (prio : Fin 8) (cl : WfqClass) : Decidable (Busy prio cl) :=
  inferInstanceAs (Decidable (_ ∧ _))

/-- One step of a queue within a busy period: its head stays, and with it the finish
time, or the head leaves and the finish time grows by at least 1 and at most `limit`. -/
def HeadStep (limit : Nat) (before after : WfqClass) : Prop :=
  (∃ skb rest more, before.qdisc = skb :: rest ∧ after.qdisc = skb :: (rest ++ more) ∧
    after.headFinTime = before.headFinTime) ∨
  ∃ skb rest advance, before.qdisc = skb :: rest ∧ after.qdisc = rest ∧ 1 ≤ advance ∧
    advance ≤ limit ∧ after.headFinTime = u64 (before.headFinTime + advance)

private theorem headStep_refl {limit : Nat} {cl : WfqClass} (busy : cl.qdisc ≠ []) :
    HeadStep limit cl cl := by
  obtain ⟨skb, rest, content⟩ := List.exists_cons_of_ne_nil busy
  exact Or.inl ⟨skb, rest, [], content, by rw [content, List.append_nil], rfl⟩

section

variable {limit : Nat} {width : Fin 8 → Int} {s s' : Sys} {event : Event Param}

private theorem headStep_store {params : Params} {now : Int} {i k : Fin 8} {skb : Skb}
    {q : WfqSchedData} (busy : (q.queues k).qdisc ≠ []) :
    HeadStep limit (q.queues k) ((wfqAdmit params now i skb q).queues k) := by
  obtain ⟨marked, _, fifo⟩ := wfqAdmit_qdisc params now i skb q
  obtain ⟨head, rest, content⟩ := List.exists_cons_of_ne_nil busy
  refine Or.inl ⟨head, rest, if k = i then [marked] else [], content, ?_, ?_⟩
  · rw [fifo k, content, List.cons_append]
  · rw [wfqAdmit_headFinTime, if_neg]
    intro activated
    exact busy (activated.1 ▸ activated.2)

private theorem headStep_transmit {params : Params} {now result : Int} {prio i k : Fin 8}
    {skb : Skb} {rest : List Skb} {q : WfqSchedData} (timed : Timed limit width q)
    (front : (q.queues i).qdisc = skb :: rest) (busy : (q.queues k).qdisc ≠ [])
    (stays : ((wfqTransmit params now prio i skb rest result q).1.queues k).qdisc ≠ []) :
    HeadStep limit (q.queues k) ((wfqTransmit params now prio i skb rest result q).1.queues k) := by
  have fifo := (transmit_fields params now prio i skb rest result q k).2
  by_cases same : k = i
  · subst same
    rw [if_pos rfl] at fifo
    rw [fifo] at stays
    obtain ⟨next, more, rfl⟩ := List.exists_cons_of_ne_nil stays
    have inside : next ∈ (q.queues k).qdisc := by simp [front]
    have size := (timed.balanced.stored_size inside).1
    have range := increment_range (covers_const limit params) size (timed.stored k next inside) k
    have positive := stored_after_head timed.balanced front
    exact Or.inr ⟨skb, next :: more, skbSize next / params.queueWeight k, front, fifo,
      by exact_mod_cast range.1, by exact_mod_cast range.2,
      (wfqTransmit_next params now prio k skb next more result q positive).1⟩
  · rw [if_neg same] at fifo
    obtain ⟨head, tail, content⟩ := List.exists_cons_of_ne_nil busy
    exact Or.inl ⟨head, tail, [], content, by rw [fifo, content, List.append_nil],
      wfqTransmit_headFinTime_of_ne _ _ _ _ _ _ _ same⟩

private theorem headStep_of_step {bfifo : Bfifo} (step : Step bfifo s event s')
    (timed : Timed limit width s.q) (i : Fin 8) (busy : (s.q.queues i).qdisc ≠ [])
    (stays : (s'.q.queues i).qdisc ≠ []) : HeadStep limit (s.q.queues i) (s'.q.queues i) := by
  cases step with
  | enqueue later returns =>
      rcases wfqEnqueue_cases returns with ⟨_, rfl⟩ | ⟨_, _, rfl⟩
      · exact headStep_refl busy
      · exact headStep_store busy
  | dequeue later returns =>
      cases wfqDequeue_cases returns with
      | idle | fault | null | throttled => exact headStep_refl busy
      | packet selected found front enough => exact headStep_transmit timed front busy stays
  | sysctl => exact headStep_refl busy
  | change => exact headStep_refl busy

end

/-- **Virtual time.** In every state of every run the virtual time of a busy priority is
the finish time of one of its queues, no finish time of the `n` busy queues lies more than
`n - 1` largest packets below it, and within a busy period the finish time of a queue
grows with every head. -/
theorem virtualTime_invariant {bfifo : Bfifo} (bounded : bfifo.Bounded) {start s : Sys}
    {events : List (Event Param)} (fresh : Initial start) (run : Run (Step bfifo) start events s) :
    (∀ prio, (∃ i, Busy prio (s.q.queues i)) →
      (∃ i, Busy prio (s.q.queues i) ∧ (s.q.queues i).headFinTime = s.q.virtualTime prio) ∧
      ∀ i, Busy prio (s.q.queues i) →
        u64Sub (s.q.virtualTime prio) (s.q.queues i).headFinTime ≤
          (#{k | Busy prio (s.q.queues k)} - 1) * largestSize events) ∧
    ∀ event s', Step bfifo s event s' → ∀ i, (s.q.queues i).qdisc ≠ [] →
      (s'.q.queues i).qdisc ≠ [] →
        HeadStep (largestSize events) (s.q.queues i) (s'.q.queues i) := by
  have small : largestSize events ≤ 2000024 :=
    largestSize_le (run.forall_label (acceptedSize_le bounded))
  have timed := timed_of_run bounded small fresh run
    fun _ member => acceptedSize_le_largestSize member
  refine ⟨fun prio busy => ?_, fun event s' step => headStep_of_step step timed⟩
  obtain ⟨tags, tracks, chained⟩ := timed.times prio
  have backlogged : tags.backlogged = univ.filter fun k => Busy prio (s.q.queues k) := by
    ext k
    rw [tracks.backlogged k, mem_filter]
    simp [Busy]
  constructor
  · obtain ⟨k, isBusy⟩ := busy
    obtain ⟨i, member, equal⟩ := chained.attained ⟨k, (tracks.backlogged k).mpr isBusy⟩
    refine ⟨i, (tracks.backlogged i).mp member, ?_⟩
    rw [tracks.finish i member, equal, tracks.clock]
  · intro i isBusy
    have member := (tracks.backlogged i).mpr isBusy
    have below := chained.clock_sub_finish_le (narrow_const small).nonneg member
    have above := chained.greatest i member
    rw [sum_const, card_erase_of_mem member, backlogged, nsmul_eq_mul] at below
    have few : #{k | Busy prio (s.q.queues k)} ≤ 8 := card_le_univ _
    have bound : (#{k | Busy prio (s.q.queues k)} - 1) * largestSize events ≤ 7 * 2000024 :=
      Nat.mul_le_mul (by omega) small
    rw [tracks.clock, tracks.finish i member]
    have exact := u64Sub_u64OfInt above (by
      have cast : ((#{k | Busy prio (s.q.queues k)} - 1 : Nat) : Int) * largestSize events ≤
          7 * 2000024 := by exact_mod_cast bound
      omega)
    exact_mod_cast exact.trans_le below

/-! ### Bookkeeping and selection -/

/-- The bookkeeping of the qdisc. -/
structure Bookkeeping (q : WfqSchedData) : Prop where
  lenBytes : ∀ i, (q.queues i).lenBytes = ((q.queues i).qdisc.map skbSize).sum
  prioLenBytes : ∀ prio,
    q.prioLenBytes prio = ∑ i with (q.queues i).prio = prio, (q.queues i).lenBytes
  sumLenBytes : q.sumLenBytes = ∑ i, (q.queues i).lenBytes
  qlen : q.qlen = ∑ i, (q.queues i).qdisc.length

private theorem bookkeeping_of_balanced {q : WfqSchedData} (balanced : (view q).Balanced) :
    Bookkeeping q where
  lenBytes := balanced.lenBytes
  prioLenBytes := fun prio => by
    rw [sum_filter]
    exact balanced.prioLenBytes prio
  sumLenBytes := balanced.sumLenBytes
  qlen := balanced.qlen

/-- The scan ended with a queue it may serve: it holds a packet of the first priority
that does, and no queue of that priority has an earlier finish time. -/
structure Selects (q : WfqSchedData) (prio cl : Fin 8) : Prop where
  busy : Busy prio (q.queues cl)
  highest : ∀ i, (q.queues i).prio < prio → (q.queues i).qdisc = []
  earliest : ∀ i, Busy prio (q.queues i) →
    wfqTimeBefore (q.queues i).headFinTime (q.queues cl).headFinTime = false

theorem scan_selects {limit : Nat} {width : Fin 8 → Int} {q : WfqSchedData} {prio : Fin 8}
    (narrow : Narrow width) (timed : Timed limit width q) (selected : prioSchedule q = some prio) :
    ∃ cl, scan q prio = some cl ∧ Selects q prio cl := by
  obtain ⟨⟨i, busy⟩, highest⟩ := prioSchedule_busy timed.balanced selected
  have candidate := (candidate_iff timed.balanced).mpr busy
  obtain ⟨cl, found⟩ := Option.isSome_iff_exists.mp (scan_isSome candidate)
  obtain ⟨tags, tracks, chained⟩ := timed.times prio
  have least := tracks.least timed.balanced narrow chained found
  refine ⟨cl, found, (tracks.backlogged cl).mp least.1, highest, fun k isBusy => ?_⟩
  have member := (tracks.backlogged k).mpr isBusy
  rw [tracks.finish k member, tracks.finish cl least.1, Bool.eq_false_iff]
  intro before
  have lower := (wfqTimeBefore_iff (narrow.near chained member least.1)).mp before
  exact absurd (least.2 k member) (not_le.mpr lower)

/-- What an event does to the counters: a stored packet adds to each of them, a returned
one is taken off each of them, in exact arithmetic, and every other event leaves them. -/
def CountsExactly (params : Params) (q q' : WfqSchedData) : Event Param → Prop
  | .enqueue _ skb .success =>
      OnePacketMore (wfqClassify params skb) (q'.queues (wfqClassify params skb)).prio
        (skbSize skb) q q'
  | .dequeue _ (.packet i skb) => OnePacketMore i (q.queues i).prio (skbSize skb) q' q
  | _ => view q' = view q

private theorem countsExactly_of_step {bfifo : Bfifo} (bounded : bfifo.Bounded) {s s' : Sys}
    {event : Event Param} (step : Step bfifo s event s') (balanced : (view s.q).Balanced) :
    CountsExactly s.params s.q s'.q event := by
  cases step with
  | @enqueue now skb q' ret later returns =>
      rcases wfqEnqueue_cases returns with ⟨refused, rfl⟩ | ⟨rfl, taken, rfl⟩
      · cases ret with
        | success => exact absurd rfl refused
        | drop | cn => exact rfl
      · exact wfqAdmit_exact balanced (bounded _ _ taken)
  | @dequeue now q' outcome later returns =>
      cases wfqDequeue_cases returns with
      | idle | fault | null | throttled => exact rfl
      | @packet prio i skb rest selected found front enough =>
          have own := (scan_candidate found).1
          have size := skbSize_eq_of_len_eq (wfqTransmit_markedFrom s.params now prio i skb rest
            (tbfSchedule s.params (skbSize skb) s.q now) s.q).len_eq
          show OnePacketMore i (s.q.queues i).prio
            (skbSize (wfqTransmit s.params now prio i skb rest _ s.q).2) _ s.q
          rw [size, own]
          exact wfqTransmit_exact balanced front own
  | sysctl => exact rfl
  | change => exact rfl

/-- **Bookkeeping and selection.** In every reachable state the counters are the sums they
stand for; whenever a priority is selected the scan ends with a queue, which may be
served; and no operation wraps a counter. -/
theorem bookkeeping_and_selection {bfifo : Bfifo} (bounded : bfifo.Bounded) {s : Sys}
    (reachable : Reachable bfifo s) :
    Bookkeeping s.q ∧
      (∀ prio, prioSchedule s.q = some prio → ∃ cl, scan s.q prio = some cl ∧ Selects s.q prio cl) ∧
      ∀ event s', Step bfifo s event s' → CountsExactly s.params s.q s'.q event := by
  have timed := timed_of_reachable bounded reachable
  refine ⟨bookkeeping_of_balanced timed.balanced, fun prio selected => ?_, fun event s' step => ?_⟩
  · exact scan_selects (narrow_const le_rfl) timed selected
  · exact countsExactly_of_step bounded step timed.balanced

/-! ### A loaded qdisc -/

/-- A fresh qdisc at 1 Gbit/s with the default parameters. -/
def idle : Sys := ⟨paramsInit, wfqInit 0 125000000, 0⟩

/-- The state after an enqueue at `now`. -/
def Sys.enqueue (s : Sys) (now : Int) (skb : Skb) : Sys :=
  ⟨s.params, (wfqEnqueue byteLimit s.params now skb s.q).1, now⟩

theorem Sys.enqueue_step {s : Sys} {now : Int} {skb : Skb} {ret : NetXmit} (later : s.clock ≤ now)
    (returns : (wfqEnqueue byteLimit s.params now skb s.q).2 = ret) :
    Step byteLimit s (.enqueue now skb ret) (s.enqueue now skb) :=
  .enqueue later (Prod.ext rfl returns)

/-- Two frames in queue 0 and one in queue 1. -/
def loaded : Sys :=
  ((idle.enqueue 1 (fullFrame 0)).enqueue 2 (fullFrame 4)).enqueue 3 (fullFrame 0)

def loadedHistory : List (Event Param) :=
  [.enqueue 1 (fullFrame 0) .success, .enqueue 2 (fullFrame 4) .success,
    .enqueue 3 (fullFrame 0) .success]

private theorem loaded_run : Run (Step byteLimit) idle loadedHistory loaded :=
  .cons (Sys.enqueue_step (by decide) (by decide))
    (.cons (Sys.enqueue_step (by decide) (by decide))
      (.single (Sys.enqueue_step (by decide) (by decide))))

theorem loaded_reachable : Reachable byteLimit loaded :=
  ⟨idle, loadedHistory, ⟨_, rfl⟩, loaded_run⟩

theorem virtualTime_of_loaded : ∃ i, Busy 0 (loaded.q.queues i) ∧
    (loaded.q.queues i).headFinTime = loaded.q.virtualTime 0 :=
  ((virtualTime_invariant byteLimit_bounded ⟨_, rfl⟩ loaded_run).1 0 ⟨0, by decide⟩).1

theorem selection_of_loaded : Bookkeeping loaded.q :=
  (bookkeeping_and_selection byteLimit_bounded loaded_reachable).1

end MqEcn.Kernel.Wfq
