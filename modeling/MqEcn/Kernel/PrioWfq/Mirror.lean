import MqEcn.Kernel.Delivery
import MqEcn.Kernel.Wfq.Fairness

/-!
Contract: `sch_prio_wfq` as a `sch_wfq` of two priorities.

Owns: what the operations of `sch_prio_wfq` do to its finish times and its virtual time, the
parameters under which `sch_wfq` serves its first queue at priority 0 and the other seven at
priority 1, the relation between the two qdiscs, and that both scans end with the same queue.

Does not own: that the operations keep the relation.
-/

set_option autoImplicit false

namespace MqEcn.Kernel.PrioWfq

open Finset
open MqEcn.Kernel
open MqEcn.Kernel.PrioDwrr (prioId queueOf dwrrId)
open MqEcn.Kernel.Sysctl (Handler Settings)
open MqEcn.Library.Transition
open MqEcn.Library.Word

/-! ### Times -/

theorem handler_queueWeight (queue : Fin 7) : handler (.queueWeight queue) = .minmax 1 64 := by
  revert queue
  decide

theorem queueWeight_range (params : Params) (queue : Fin 7) :
    0 < params.value (.queueWeight queue) ∧
      1 ≤ params.queueWeight queue ∧ params.queueWeight queue ≤ 64 := by
  have admits := params.admissible (.queueWeight queue)
  rw [handler_queueWeight] at admits
  simp only [Handler.Admits] at admits
  unfold Params.queueWeight u32OfInt
  omega

section

variable {params : Params} {now toks : Int} {i : Fin 7} {skb next : Skb} {rest : List Skb}
  {q : PrioWfqSchedData}

/-- An arrival at an empty queue is stamped past the virtual time, which it moves. -/
theorem wfqAdmit_first (idle : (q.wfqQueues i).lenBytes = 0) :
    ((wfqAdmit params now i skb q).wfqQueues i).headFinishTime =
        u64 (q.virtualTime + skbSize skb / params.queueWeight i) ∧
      (wfqAdmit params now i skb q).virtualTime =
        u64 (q.virtualTime + skbSize skb / params.queueWeight i) := by
  have weight := (queueWeight_range params i).1
  unfold wfqAdmit stampFirst
  simp only [idle, weight, and_self, if_true]
  exact ⟨by simp, trivial⟩

/-- An arrival behind others is not stamped. -/
theorem wfqAdmit_behind (busy : (q.wfqQueues i).lenBytes ≠ 0) :
    ((wfqAdmit params now i skb q).wfqQueues i).headFinishTime = (q.wfqQueues i).headFinishTime ∧
      (wfqAdmit params now i skb q).virtualTime = q.virtualTime := by
  unfold wfqAdmit stampFirst
  simp only [busy, false_and, if_false]
  exact ⟨by simp, trivial⟩

theorem wfqAdmit_others {k : Fin 7} (different : k ≠ i) :
    (wfqAdmit params now i skb q).wfqQueues k = q.wfqQueues k := by
  obtain ⟨headFinishTime, marked, _, queues⟩ := wfqAdmit_wfqQueues params now i skb q
  rw [queues, Function.update_of_ne different]

/-- The last packet of a queue moves no time. -/
theorem transmit_last :
    ((transmit params now i skb [] toks q).1.wfqQueues i).headFinishTime =
        (q.wfqQueues i).headFinishTime ∧
      (transmit params now i skb [] toks q).1.virtualTime = q.virtualTime := by
  unfold transmit stampNext
  simp only [Function.update_self, PrioDwrr.peek, List.head?_nil]
  split
  · exact ⟨by simp, rfl⟩
  · exact ⟨by simp, rfl⟩

/-- The next head is stamped by its own size, and the virtual time follows the stamp. -/
theorem transmit_next (positive : 0 < u32Sub (q.wfqQueues i).lenBytes (skbSize skb)) :
    ((transmit params now i skb (next :: rest) toks q).1.wfqQueues i).headFinishTime =
        u64 ((q.wfqQueues i).headFinishTime + skbSize next / params.queueWeight i) ∧
      (transmit params now i skb (next :: rest) toks q).1.virtualTime =
        maxTimestamp q.virtualTime
          (u64 ((q.wfqQueues i).headFinishTime + skbSize next / params.queueWeight i)) := by
  have weight := (queueWeight_range params i).1
  unfold transmit stampNext
  simp only [Function.update_self, positive, weight, and_self, if_true, PrioDwrr.peek,
    List.head?_cons]

theorem transmit_others {k : Fin 7} (different : k ≠ i) :
    (transmit params now i skb rest toks q).1.wfqQueues k = q.wfqQueues k := by
  obtain ⟨headFinishTime, queues⟩ := transmit_wfqQueues params now toks i skb rest q
  rw [queues, Function.update_of_ne different]

end

/-! ### Parameters -/

/-- The priority of a queue in the mirror. -/
def prioOf (id : Fin 8) : Fin 8 :=
  match queueOf id with
  | .inl _ => 0
  | .inr _ => 1

@[simp] theorem prioOf_prioId (k : Fin 1) : prioOf (prioId k) = 0 := by
  unfold prioOf
  rw [PrioDwrr.queueOf_prioId]

@[simp] theorem prioOf_wfqId (i : Fin 7) : prioOf (wfqId i) = 1 := by
  unfold prioOf wfqId
  rw [PrioDwrr.queueOf_dwrrId]

/-- The weight of a queue in the mirror; that of the priority queue is the largest there is. -/
def weightOf (params : Params) (id : Fin 8) : Int :=
  match queueOf id with
  | .inl _ => 64
  | .inr i => params.value (.queueWeight i)

private theorem weightOf_range (params : Params) (id : Fin 8) :
    1 ≤ weightOf params id ∧ weightOf params id ≤ 64 := by
  unfold weightOf
  cases queueOf id with
  | inl _ =>
      show (1 : Int) ≤ 64 ∧ (64 : Int) ≤ 64
      decide
  | inr i =>
      have admits := params.admissible (.queueWeight i)
      rwa [handler_queueWeight] at admits

/-- The values of the mirror's parameters: the DSCPs and the weights are those of the module,
the priorities are fixed, and nothing is marked, dropped or held back for long. -/
def mirrorValue (params : Params) : Wfq.Param → Int
  | .queueDscp queue => params.value (.queueDscp queue)
  | .queueWeight queue => weightOf params queue
  | .queuePrio queue => (prioOf queue : Nat)
  | .ecnScheme => 0
  | .sharedBuffer => 2 ^ 31 - 1
  | .bucket => 2 ^ 31 - 1
  | param => Wfq.paramsInit.value param

private theorem handler_queueDscp (queue : Fin 8) :
    Wfq.handler (.queueDscp queue) = handler (.queueDscp queue) := by
  revert queue
  decide

private theorem mirrorValue_admissible (params : Params) (param : Wfq.Param) :
    (Wfq.handler param).Admits (mirrorValue params param) := by
  cases param with
  | queueDscp queue =>
      rw [handler_queueDscp]
      exact params.admissible (.queueDscp queue)
  | queueWeight queue =>
      rw [Wfq.handler_queueWeight]
      exact weightOf_range params queue
  | queuePrio queue =>
      rw [Wfq.handler_queuePrio]
      exact ⟨Int.natCast_nonneg _, by show ((prioOf queue : Nat) : Int) ≤ 7; omega⟩
  | ecnScheme =>
      show (Handler.minmax 0 5).Admits 0
      decide
  | sharedBuffer | bucket =>
      show Handler.dointvec.Admits (2 ^ 31 - 1)
      decide
  | enableDebug | bufferMode | portThresh | enableDequeueEcn | tcnThresh | codelTarget
  | codelInterval | queueThresh | queueBuffer => exact Wfq.paramsInit.admissible _

/-- The parameters of the mirror. -/
def mirrorParams (params : Params) : Wfq.Params :=
  ⟨mirrorValue params, mirrorValue_admissible params⟩

section

variable (params : Params)

theorem mirror_queuePrio (id : Fin 8) : (mirrorParams params).queuePrio id = prioOf id := by
  apply Fin.ext
  show ((prioOf id : Nat) : Int).toNat = prioOf id
  exact Int.toNat_natCast _

theorem mirror_queueWeight (i : Fin 7) :
    (mirrorParams params).queueWeight (wfqId i) = params.queueWeight i := by
  show u32OfInt (weightOf params (wfqId i)) = _
  unfold weightOf wfqId
  rw [PrioDwrr.queueOf_dwrrId]
  rfl

theorem mirror_classify (skb : Skb) :
    Wfq.wfqClassify (mirrorParams params) skb = qdiscClassify params skb := rfl

/-! A write to the parameters of the module is one to those of the mirror, or none. -/

theorem mirror_write_dscp (queue : Fin 8) (value : Int) :
    mirrorParams (params.write (.queueDscp queue) value) =
      (mirrorParams params).write (.queueDscp queue) value := by
  apply Settings.eq_of_value
  intro param
  rw [Settings.write_value, handler_queueDscp]
  cases param with
  | queueDscp other =>
      show (params.write (.queueDscp queue) value).value (.queueDscp other) = _
      rw [Settings.write_value]
      simp only [Param.queueDscp.injEq, Wfq.Param.queueDscp.injEq]
      rfl
  | queueWeight other =>
      rw [if_neg (by simp)]
      show weightOf (params.write (.queueDscp queue) value) other = weightOf params other
      unfold weightOf
      split
      · rfl
      · exact Settings.write_value_of_ne _ (by simp) _
  | _ =>
      rw [if_neg (by simp)]
      rfl

theorem mirror_write_weight (i : Fin 7) (value : Int) :
    mirrorParams (params.write (.queueWeight i) value) =
      (mirrorParams params).write (.queueWeight (wfqId i)) value := by
  apply Settings.eq_of_value
  intro param
  rw [Settings.write_value, Wfq.handler_queueWeight, ← handler_queueWeight i]
  cases param with
  | queueDscp other =>
      rw [if_neg (by simp)]
      exact Settings.write_value_of_ne _ (by simp) _
  | queueWeight other =>
      show weightOf (params.write (.queueWeight i) value) other =
        if (handler (.queueWeight i)).Admits value ∧
          Wfq.Param.queueWeight other = .queueWeight (wfqId i) then value else weightOf params other
      unfold weightOf
      split
      next k target =>
        have different : other ≠ wfqId i := by
          rw [PrioDwrr.eq_prioId_of_queueOf target]
          exact (wfqId_ne_prioId i k).symm
        rw [if_neg (by simp [different])]
      next k target =>
        rw [Settings.write_value, PrioDwrr.eq_dwrrId_of_queueOf target]
        simp only [Param.queueWeight.injEq, Wfq.Param.queueWeight.injEq,
          wfqId_injective.eq_iff.symm, wfqId]
  | _ =>
      rw [if_neg (by simp)]
      rfl

theorem mirror_write_other {param : Param} (notDscp : ∀ queue, param ≠ .queueDscp queue)
    (notWeight : ∀ i, param ≠ .queueWeight i) (value : Int) :
    mirrorParams (params.write param value) = mirrorParams params := by
  apply Settings.eq_of_value
  intro other
  cases other with
  | queueDscp queue => exact Settings.write_value_of_ne _ (notDscp queue).symm _
  | queueWeight queue =>
      show weightOf (params.write param value) queue = weightOf params queue
      unfold weightOf
      split
      · rfl
      · exact Settings.write_value_of_ne _ (notWeight _).symm _
  | _ => rfl

end

/-! ### The relation -/

/-- The mirror stores the same packets in the same queues, at the same finish times; its other
fields are those of an unlimited `sch_wfq`. -/
structure Mirrors (s : Sys) (m : Wfq.Sys) : Prop where
  counted : Counted s.q
  reachable : Wfq.Reachable byteLimit m
  params : m.params = mirrorParams s.params
  rate : m.q.rate = changeRate 0
  fifo : ∀ id, List.Forall₂ Carries (m.q.queues id).qdisc (fifo s.q id)
  prio : ∀ id, (m.q.queues id).qdisc ≠ [] → (m.q.queues id).prio = prioOf id
  finish : ∀ i, (s.q.wfqQueues i).qdisc ≠ [] →
    (m.q.queues (wfqId i)).headFinTime = (s.q.wfqQueues i).headFinishTime
  clock : m.q.virtualTime 1 = s.q.virtualTime

theorem forall₂_carries_size {fifo fifo' : List Skb} (same : List.Forall₂ Carries fifo fifo') :
    storedBytes fifo' = storedBytes fifo ∧ backlog fifo' = backlog fifo := by
  induction same with
  | nil => exact ⟨rfl, rfl⟩
  | cons carries _ inductionHypothesis =>
      have len := carries.len
      have size := skbSize_eq_of_len_eq len
      constructor
      · rw [storedBytes_cons, storedBytes_cons, size, inductionHypothesis.1]
      · rw [backlog_cons, backlog_cons, len, inductionHypothesis.2]

private theorem forall₂_nil_iff {fifo fifo' : List Skb} (same : List.Forall₂ Carries fifo fifo') :
    fifo = [] ↔ fifo' = [] := by
  cases same with
  | nil => exact ⟨fun _ => rfl, fun _ => rfl⟩
  | cons => simp

namespace Mirrors

variable {s : Sys} {m : Wfq.Sys}

theorem balanced (mirrors : Mirrors s m) : (Wfq.view m.q).Balanced :=
  Wfq.balanced_of_reachable byteLimit_bounded mirrors.reachable

theorem empty_iff (mirrors : Mirrors s m) (i : Fin 7) :
    (m.q.queues (wfqId i)).qdisc = [] ↔ (s.q.wfqQueues i).qdisc = [] := by
  rw [← fifo_wfqId]
  exact forall₂_nil_iff (mirrors.fifo (wfqId i))

theorem empty_prio_iff (mirrors : Mirrors s m) (k : Fin 1) :
    (m.q.queues (prioId k)).qdisc = [] ↔ (s.q.prioQueues k).qdisc = [] := by
  rw [← fifo_prioId]
  exact forall₂_nil_iff (mirrors.fifo (prioId k))

/-- The two modules account a queue with the same bytes. -/
theorem lenBytes (mirrors : Mirrors s m) (i : Fin 7) :
    (m.q.queues (wfqId i)).lenBytes = (s.q.wfqQueues i).lenBytes := by
  have same := (forall₂_carries_size (mirrors.fifo (wfqId i))).1
  rw [fifo_wfqId] at same
  calc
    (m.q.queues (wfqId i)).lenBytes = storedBytes (m.q.queues (wfqId i)).qdisc :=
      mirrors.balanced.lenBytes (wfqId i)
    _ = storedBytes (s.q.wfqQueues i).qdisc := same.symm
    _ = (s.q.wfqQueues i).lenBytes := (mirrors.counted.bookkeeping.wfqLenBytes i).symm

/-! ### Selection -/

private theorem candidate_iff (mirrors : Mirrors s m) (i : Fin 7) :
    Wfq.Candidate m.q 1 (wfqId i) ↔ Candidate s.q i := by
  rw [Wfq.candidate_iff mirrors.balanced, ne_eq, mirrors.empty_iff, Candidate, ne_eq,
    mirrors.counted.lenBytes_eq_zero_iff]
  constructor
  · exact And.right
  · intro busy
    refine ⟨?_, busy⟩
    rw [mirrors.prio _ (mt (mirrors.empty_iff i).mp busy), prioOf_wfqId]

/-- The scan of the mirror skips the first queue. -/
theorem not_candidate_zero (mirrors : Mirrors s m) : ¬Wfq.Candidate m.q 1 0 := by
  rw [Wfq.candidate_iff mirrors.balanced]
  rintro ⟨one, busy⟩
  have zero : (m.q.queues 0).prio = 0 := mirrors.prio 0 busy
  rw [zero] at one
  exact absurd one (by decide)

/-- One iteration of either scan, on corresponding queues. -/
theorem scanStep (mirrors : Mirrors s m) {best : Option (Fin 7)}
    (kept : ∀ j, best = some j → Candidate s.q j) (i : Fin 7) :
    Wfq.scanStep m.q 1 (best.map wfqId) (wfqId i) = (PrioWfq.scanStep s.q best i).map wfqId := by
  by_cases candidate : Candidate s.q i
  · have candidate' := (mirrors.candidate_iff i).mpr candidate
    have stays : ¬((m.q.queues (wfqId i)).prio ≠ 1 ∨ (m.q.queues (wfqId i)).lenBytes = 0) := by
      rintro (other | empty)
      · exact other candidate'.1
      · exact candidate'.2 empty
    have stays' : ¬(s.q.wfqQueues i).lenBytes = 0 := candidate
    have busy : ∀ j, Candidate s.q j → (s.q.wfqQueues j).qdisc ≠ [] := fun j inside =>
      mt (mirrors.counted.lenBytes_eq_zero_iff j).mpr inside
    cases best with
    | none => simp only [Wfq.scanStep, PrioWfq.scanStep, if_neg stays, if_neg stays', Option.map]
    | some j =>
        simp only [Wfq.scanStep, PrioWfq.scanStep, if_neg stays, if_neg stays', Option.map,
          mirrors.finish i (busy i candidate), mirrors.finish j (busy j (kept j rfl))]
        change (if timestampBefore _ _ = true then _ else _) = _
        split
        · rfl
        · rfl
  · have skipped : (m.q.queues (wfqId i)).prio ≠ 1 ∨ (m.q.queues (wfqId i)).lenBytes = 0 := by
      rw [mirrors.lenBytes]
      exact Or.inr (not_not.mp candidate)
    simp only [Wfq.scanStep, PrioWfq.scanStep, if_pos skipped, if_pos (not_not.mp candidate)]

private theorem scanStep_kept {best : Option (Fin 7)} (kept : ∀ j, best = some j → Candidate s.q j)
    (i j : Fin 7) (found : PrioWfq.scanStep s.q best i = some j) : Candidate s.q j := by
  unfold PrioWfq.scanStep at found
  split at found
  next => exact kept j found
  next candidate =>
    split at found
    next =>
      cases found
      exact candidate
    next best' =>
      split at found
      next =>
        cases found
        exact candidate
      next =>
        cases found
        exact kept _ rfl

private theorem foldl_scanStep (mirrors : Mirrors s m) (indices : List (Fin 7))
    (best : Option (Fin 7)) (kept : ∀ j, best = some j → Candidate s.q j) :
    (indices.map wfqId).foldl (Wfq.scanStep m.q 1) (best.map wfqId) =
      (indices.foldl (PrioWfq.scanStep s.q) best).map wfqId := by
  induction indices generalizing best with
  | nil => rfl
  | cons i rest inductionHypothesis =>
      rw [List.map_cons, List.foldl_cons, List.foldl_cons, mirrors.scanStep kept]
      exact inductionHypothesis _ (scanStep_kept kept i)

/-- Both scans end with the same queue. -/
theorem scan (mirrors : Mirrors s m) : Wfq.scan m.q 1 = (PrioWfq.scan s.q).map wfqId := by
  have indices : List.finRange 8 = 0 :: (List.finRange 7).map wfqId := by decide
  have first : Wfq.scanStep m.q 1 none 0 = none := by
    unfold Wfq.scanStep
    rw [if_pos]
    by_contra stays
    push Not at stays
    exact mirrors.not_candidate_zero stays
  unfold Wfq.scan PrioWfq.scan
  rw [indices, List.foldl_cons, first]
  exact mirrors.foldl_scanStep _ none (by simp)

end Mirrors

end MqEcn.Kernel.PrioWfq
