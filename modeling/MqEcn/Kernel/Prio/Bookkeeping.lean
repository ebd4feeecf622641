import MqEcn.Kernel.Prio.Step

/-!
Contract: the bookkeeping and the service order of `sch_prio` in every reachable state.

Owns: the counters as sums, their exact updates, and what a dequeue returns in terms of
what is stored.

Does not own: when the tokens suffice.
-/

set_option autoImplicit false

namespace MqEcn.Kernel.Prio

open Finset
open MqEcn.Kernel
open MqEcn.Library
open MqEcn.Library.Transition
open MqEcn.Library.Word

/-! ### The counters -/

private theorem balanced_qdiscInit (now : Int) (rate : Nat) :
    (view (qdiscInit now rate)).Balanced :=
  Ledger.balanced_of_empty (fun _ => rfl) (fun _ => rfl) (fun _ => rfl) rfl rfl

private theorem balanced_enqueue {bfifo : Bfifo} (bounded : bfifo.Bounded) {params : Params}
    {now : Int} {skb : Skb} {q q' : PrioSchedData} {ret : NetXmit}
    (returns : qdiscEnqueue bfifo params now skb q = (q', ret)) (balanced : (view q).Balanced) :
    (view q').Balanced := by
  cases qdiscEnqueue_cases returns with
  | refused => exact balanced
  | stored fits accepted =>
      rw [view_admitted _ (enqueueMarking_len _ _ _ _ _)]
      exact balanced.enter _ (bounded _ _ accepted)

private theorem balanced_dequeue {params : Params} {now : Int} {q q' : PrioSchedData}
    {outcome : Dequeued} (returns : qdiscDequeue params now q = (q', outcome))
    (balanced : (view q).Balanced) : (view q').Balanced := by
  cases qdiscDequeue_cases returns with
  | null | throttled => exact balanced
  | packet front enough =>
      rw [view_sent]
      exact balanced.depart front.content rfl

private theorem balanced_step {bfifo : Bfifo} (bounded : bfifo.Bounded) {s s' : Sys}
    {event : Event Param} (step : Step bfifo s event s') (balanced : (view s.q).Balanced) :
    (view s'.q).Balanced := by
  cases step with
  | enqueue later returns => exact balanced_enqueue bounded returns balanced
  | dequeue later returns => exact balanced_dequeue returns balanced
  | sysctl => exact balanced
  | change => exact balanced

private theorem balanced_initial {s : Sys} (fresh : Initial s) : (view s.q).Balanced := by
  obtain ⟨rate, initial⟩ := fresh
  rw [initial]
  exact balanced_qdiscInit _ _

private theorem balanced_of_reachable {bfifo : Bfifo} (bounded : bfifo.Bounded) {s : Sys}
    (reachable : Reachable bfifo s) : (view s.q).Balanced :=
  reachable.invariant (fun s => (view s.q).Balanced) balanced_initial (balanced_step bounded)

/-- The bookkeeping of the qdisc. -/
structure Bookkeeping (q : PrioSchedData) : Prop where
  queueLenBytes : ∀ i, q.queueLenBytes i = ((q.queues i).map skbSize).sum
  sumLenBytes : q.sumLenBytes = ∑ i, q.queueLenBytes i
  qlen : q.qlen = ∑ i, (q.queues i).length

private theorem bookkeeping_of_balanced {q : PrioSchedData} (balanced : (view q).Balanced) :
    Bookkeeping q where
  queueLenBytes := balanced.lenBytes
  sumLenBytes := balanced.sumLenBytes
  qlen := balanced.qlen

/-- The subtractions of a dequeue of `len` bytes from queue `i`: none wraps. -/
structure Subtracts (i : Fin 8) (len : Nat) (q q' : PrioSchedData) : Prop where
  queueLenBytes : q'.queueLenBytes i + len = q.queueLenBytes i
  sumLenBytes : q'.sumLenBytes + len = q.sumLenBytes
  qlen : q'.qlen + 1 = q.qlen

private theorem subtracts_sent {params : Params} {now toks : Int} {i : Fin 8} {skb : Skb}
    {rest : List Skb} {q : PrioSchedData} (balanced : (view q).Balanced)
    (content : q.queues i = skb :: rest) :
    Subtracts i (skbSize skb) q (sent params now toks i skb rest q) := by
  have front : ((view q).queues i).fifo = skb :: rest := content
  obtain ⟨lenCovers, _, sumCovers, countCovers⟩ := balanced.covers front
  refine ⟨?_, u32Sub_add_of_le balanced.sumLenBytes_lt sumCovers,
    u32Sub_add_of_le balanced.qlen_lt countCovers⟩
  have own : (sent params now toks i skb rest q).queueLenBytes i =
      u32Sub (q.queueLenBytes i) (skbSize skb) := by
    simp [sent, take]
  rw [own]
  exact u32Sub_add_of_le (balanced.lenBytes_lt i) lenCovers

/-! ### Service order -/

/-- What a dequeue has to do with the packets that are stored. -/
inductive Serves (params : Params) (now : Int) (q q' : PrioSchedData) : Dequeued → Prop
  /-- Nothing is stored. -/
  | null (empty : q.qlen = 0) (stays : q' = q) : Serves params now q q' .null
  /-- The tokens do not cover the first packet, and the timer is set. -/
  | throttled {i : Fin 8} {skb : Skb} {rest : List Skb} {expires : Int}
      (front : Front q i skb rest) (short : refilled params now q < l2tNs q.rate (skbSize skb))
      (armed : now < expires) (stays : q' = q) : Serves params now q q' (.throttled expires)
  /-- The first packet leaves its queue, no higher queue holds one, and no other changes. -/
  | packet {i : Fin 8} {skb returned : Skb} {rest : List Skb} (front : Front q i skb rest)
      (queues : q'.queues = Function.update q.queues i rest) (marker : MarkedFrom skb returned)
      (exact : Subtracts i (skbSize skb) q q') : Serves params now q q' (.packet i returned)

private theorem qlen_eq_zero_iff {q : PrioSchedData} (balanced : (view q).Balanced) :
    q.qlen = 0 ↔ ∀ i, q.queues i = [] := by
  rw [show q.qlen = ∑ i, (q.queues i).length from balanced.qlen, sum_eq_zero_iff]
  simp

private theorem serves_of_returns {params : Params} {now : Int} {q q' : PrioSchedData}
    {outcome : Dequeued} (balanced : (view q).Balanced)
    (returns : qdiscDequeue params now q = (q', outcome)) : Serves params now q q' outcome := by
  cases qdiscDequeue_cases returns with
  | null empty => exact .null ((qlen_eq_zero_iff balanced).mpr empty) rfl
  | throttled front short => exact .throttled front short (by omega) rfl
  | packet front enough =>
      exact .packet front rfl (dequeueMarking_markedFrom _ _ _ _)
        (subtracts_sent balanced front.content)

/-- **Bookkeeping and strict priority.** In every reachable state the counters are the sums
they stand for. A dequeue takes the head of the first queue that holds a packet, exactly,
or is throttled on it, and returns nothing else only if nothing is stored. -/
theorem prio_bookkeeping_and_service {bfifo : Bfifo} (bounded : bfifo.Bounded) {s : Sys}
    (reachable : Reachable bfifo s) :
    Bookkeeping s.q ∧ ∀ now q' outcome, qdiscDequeue s.params now s.q = (q', outcome) →
      Serves s.params now s.q q' outcome := by
  have balanced := balanced_of_reachable bounded reachable
  exact ⟨bookkeeping_of_balanced balanced, fun now q' outcome => serves_of_returns balanced⟩

/-! ### A loaded qdisc -/

/-- A fresh qdisc at 1 Gbit/s with the default parameters. -/
def idle : Sys := ⟨paramsInit, qdiscInit 0 125000000, 0⟩

/-- Frames for three queues, and a dequeue that the tokens allow. -/
def mixedHistory : List (Event Param) :=
  [.enqueue 10 (fullFrame 8) .success, .enqueue 20 (fullFrame 4) .success,
    .enqueue 30 (fullFrame 28) .success, .dequeue 20000 (.packet 1 (fullFrame 4))]

private theorem mixed_isSome :
    (replay (Sys.next byteLimit) (fun _ => True) idle mixedHistory).isSome = true := by
  decide

/-- The state they lead to. -/
def mixed : Sys := (replay (Sys.next byteLimit) (fun _ => True) idle mixedHistory).get mixed_isSome

private theorem mixed_reachable : Reachable byteLimit mixed :=
  ⟨idle, mixedHistory, ⟨_, rfl⟩, (RunWithin.of_replay_isSome Sys.next_sound mixed_isSome).run⟩

theorem service_of_mixed : Bookkeeping mixed.q ∧ ∀ now q' outcome,
    qdiscDequeue mixed.params now mixed.q = (q', outcome) →
      Serves mixed.params now mixed.q q' outcome :=
  prio_bookkeeping_and_service byteLimit_bounded mixed_reachable

end MqEcn.Kernel.Prio
