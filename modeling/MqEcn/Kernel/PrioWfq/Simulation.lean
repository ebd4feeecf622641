import MqEcn.Kernel.PrioWfq.Mirror

/-!
Contract: the simulation of `sch_prio_wfq` by `sch_wfq`.

Owns: that `sch_wfq`, with its first queue at priority 0 and the other seven at priority 1, can
store and return the packets of every run of `sch_prio_wfq`, from the same queues, in the same
order, with the same finish times and the same virtual time.

Does not own: the token buckets, the buffers and the marks. The mirror runs without limits on
the first two, and leaves the packets unmarked.
-/

set_option autoImplicit false

namespace MqEcn.Kernel.PrioWfq

open MqEcn.Kernel
open MqEcn.Kernel.PrioDwrr (prioId queueOf)
open MqEcn.Library.Transition
open MqEcn.Library.Word

/-! ### The packets of the mirror -/

section

variable {mirror : Wfq.Params} {now : Int} {i : Fin 8} {skb : Skb} {q : Wfq.WfqSchedData}

/-- Without a scheme nothing is marked or stamped. -/
theorem wfq_enqueueMarking_off (off : mirror.value .ecnScheme = 0) (cl : Wfq.WfqClass) :
    Wfq.enqueueMarking mirror now skb q i cl = skb := by
  unfold Wfq.enqueueMarking Wfq.wfqQlenMarking
  simp [off]

private theorem wfq_dequeueMarking_off (off : mirror.value .ecnScheme = 0) (cl : Wfq.WfqClass) :
    (Wfq.dequeueMarking mirror now skb q i cl).1 = skb := by
  unfold Wfq.dequeueMarking Wfq.wfqQlenMarking
  simp [off]

private theorem wfq_admit_qdisc (off : mirror.value .ecnScheme = 0) (k : Fin 8) :
    ((Wfq.wfqAdmit mirror now i skb q).queues k).qdisc =
      (q.queues k).qdisc ++ if k = i then [skb] else [] := by
  unfold Wfq.wfqAdmit
  simp only [Wfq.wfqActivate_eq, wfq_enqueueMarking_off off]
  by_cases same : k = i
  · subst same
    simp
  · simp [same]

private theorem wfq_admit_prio (k : Fin 8) :
    ((Wfq.wfqAdmit mirror now i skb q).queues k).prio =
      if k = i ∧ (q.queues i).qdisc = [] then mirror.queuePrio i else (q.queues k).prio := by
  unfold Wfq.wfqAdmit
  simp only [Wfq.wfqActivate_eq]
  by_cases same : k = i
  · subst same
    by_cases idle : (q.queues k).qdisc = [] <;> simp [idle]
  · simp [same]

private theorem wfq_transmit_returned (off : mirror.value .ecnScheme = 0) (prio : Fin 8)
    (rest : List Skb) (result : Int) :
    (Wfq.wfqTransmit mirror now prio i skb rest result q).2 = skb :=
  wfq_dequeueMarking_off off _

end

/-- The mirror moves on, or stays. -/
inductive Follows (m : Wfq.Sys) : Option (Event Wfq.Param) → Wfq.Sys → Prop
  | stay : Follows m none m
  | step {event : Event Wfq.Param} {m' : Wfq.Sys} (taken : Wfq.Step byteLimit m event m') :
      Follows m (some event) m'

theorem Follows.reachable {m m' : Wfq.Sys} {answer : Option (Event Wfq.Param)}
    (follows : Follows m answer m') (reachable : Wfq.Reachable byteLimit m) :
    Wfq.Reachable byteLimit m' := by
  cases follows with
  | stay => exact reachable
  | step taken =>
      obtain ⟨start, events, fresh, run⟩ := reachable
      exact ⟨start, _, fresh, run.append (.single taken)⟩

namespace Mirrors

variable {s : Sys} {m : Wfq.Sys}

private theorem off (mirrors : Mirrors s m) : m.params.value .ecnScheme = 0 := by
  rw [mirrors.params]
  rfl

/-! ### Enqueue -/

/-- What the counters allow is far below the buffer of the mirror. -/
theorem fits (mirrors : Mirrors s m) {id : Fin 8} {skb : Skb}
    (room : backlog (PrioWfq.fifo s.q id) + skb.len ≤ maxBufferBytes) :
    Wfq.wfqBufferOverfill m.params (skbSize skb) id m.q = false := by
  have room' : backlog ((Wfq.view m.q).queues id).fifo + skb.len ≤ maxBufferBytes := by
    rw [(forall₂_carries_size (mirrors.fifo id)).2] at room
    exact room
  have total := Library.Accounting.total_le_card_mul
    (mirrors.balanced.enter (prioOf id) room').lenBytes_le
  have sum := (mirrors.balanced.enter (prioOf id) room').sumLenBytes
  have mode : m.params.value .bufferMode = 0 := by
    rw [mirrors.params]
    rfl
  have shared : m.params.value .sharedBuffer = 2 ^ 31 - 1 := by
    rw [mirrors.params]
    rfl
  have small : u32 (m.q.sumLenBytes + skbSize skb) ≤ 8 * Ledger.accountLimit := by
    rw [← sum, Fintype.card_fin] at total
    exact total
  unfold Ledger.accountLimit maxBufferBytes at small
  unfold Wfq.wfqBufferOverfill
  rw [mode, shared, if_neg, if_neg]
  · simp
  · unfold u32OfInt
    omega

/-- The mirror accepts what the module accepts, into the same queue. -/
theorem enqueue (mirrors : Mirrors s m) {id : Fin 8} {skb : Skb}
    (target : qdiscClassify s.params skb = id)
    (room : backlog (PrioWfq.fifo s.q id) + skb.len ≤ maxBufferBytes) :
    Wfq.wfqEnqueue byteLimit m.params m.clock skb m.q =
      (Wfq.wfqAdmit m.params m.clock id skb m.q, .success) := by
  have target' : Wfq.wfqClassify m.params skb = id := by
    rw [mirrors.params, mirror_classify, target]
  have accepts : byteLimit (m.q.queues id).qdisc skb = .success := by
    unfold byteLimit
    rw [← (forall₂_carries_size (mirrors.fifo id)).2, if_pos room]
  unfold Wfq.wfqEnqueue
  simp only [target', mirrors.fits room, accepts, Bool.false_eq_true, if_false]

/-- A packet stored by both keeps the relation, where its times do. -/
theorem store (mirrors : Mirrors s m) {id : Fin 8} {skb stored : Skb} {q' : PrioWfqSchedData}
    {now : Int} (target : qdiscClassify s.params skb = id)
    (room : backlog (PrioWfq.fifo s.q id) + skb.len ≤ maxBufferBytes) (counted : Counted q')
    (carries : Carries skb stored)
    (content : ∀ k, PrioWfq.fifo q' k = PrioWfq.fifo s.q k ++ if k = id then [stored] else [])
    (finish : ∀ i, (q'.wfqQueues i).qdisc ≠ [] →
      ((Wfq.wfqAdmit m.params m.clock id skb m.q).queues (wfqId i)).headFinTime =
        (q'.wfqQueues i).headFinishTime)
    (clock : (Wfq.wfqAdmit m.params m.clock id skb m.q).virtualTime 1 = q'.virtualTime) :
    ∃ m', Wfq.Step byteLimit m (.enqueue m.clock skb .success) m' ∧
      Mirrors ⟨s.params, q', now⟩ m' := by
  have taken : Wfq.Step byteLimit m (.enqueue m.clock skb .success)
      ⟨m.params, Wfq.wfqAdmit m.params m.clock id skb m.q, m.clock⟩ :=
    .enqueue le_rfl (mirrors.enqueue target room)
  refine ⟨_, taken, counted, (Follows.step taken).reachable mirrors.reachable, mirrors.params,
    mirrors.rate, fun k => ?_, fun k busy => ?_, finish, clock⟩
  · rw [wfq_admit_qdisc mirrors.off, content k]
    refine List.rel_append (mirrors.fifo k) ?_
    split
    · exact .cons carries .nil
    · exact .nil
  · rw [wfq_admit_prio]
    split
    next activated => rw [activated.1, mirrors.params, mirror_queuePrio]
    next stays =>
      apply mirrors.prio
      intro empty
      rw [wfq_admit_qdisc mirrors.off, empty, List.nil_append] at busy
      split at busy
      next same => exact stays ⟨same, same ▸ empty⟩
      next => exact busy rfl

/-- A packet for the priority queue moves no time of the others. -/
theorem store_prio (mirrors : Mirrors s m) {k : Fin 1} {now : Int} {skb : Skb}
    (target : qdiscClassify s.params skb = prioId k)
    (room : backlog (s.q.prioQueues k).qdisc + skb.len ≤ maxBufferBytes) :
    ∃ m', Wfq.Step byteLimit m (.enqueue m.clock skb .success) m' ∧
      Mirrors ⟨s.params, prioAdmit s.params now k skb s.q, now⟩ m' := by
  obtain ⟨stored, storing, content⟩ := prioAdmit_storedFrom s.params now skb s.q k
  refine mirrors.store target ?_ (mirrors.counted.prioAdmit room) storing.carries content ?_ ?_
  · rw [fifo_prioId]
    exact room
  · intro i busy
    rw [Wfq.wfqAdmit_headFinTime, if_neg fun activated => wfqId_ne_prioId i k activated.1]
    exact mirrors.finish i busy
  · have other : (1 : Fin 8) ≠ m.params.queuePrio (prioId k) := by
      rw [mirrors.params, mirror_queuePrio, prioOf_prioId]
      decide
    rw [Wfq.wfqAdmit_virtualTime]
    split
    · rw [Function.update_of_ne other]
      exact mirrors.clock
    · exact mirrors.clock

/-- A packet for another queue stamps it, in both, if it was empty. -/
theorem store_wfq (mirrors : Mirrors s m) {i : Fin 7} {now : Int} {skb : Skb}
    (target : qdiscClassify s.params skb = wfqId i)
    (room : backlog (s.q.wfqQueues i).qdisc + skb.len ≤ maxBufferBytes) :
    ∃ m', Wfq.Step byteLimit m (.enqueue m.clock skb .success) m' ∧
      Mirrors ⟨s.params, wfqAdmit s.params now i skb s.q, now⟩ m' := by
  obtain ⟨stored, storing, content⟩ := wfqAdmit_storedFrom s.params now skb s.q i
  have prio : m.params.queuePrio (wfqId i) = 1 := by
    rw [mirrors.params, mirror_queuePrio, prioOf_wfqId]
  have weight : m.params.queueWeight (wfqId i) = s.params.queueWeight i := by
    rw [mirrors.params, mirror_queueWeight]
  refine mirrors.store target ?_ (mirrors.counted.wfqAdmit room) storing.carries content ?_ ?_
  · rw [fifo_wfqId]
    exact room
  · intro k busy
    rw [Wfq.wfqAdmit_headFinTime, prio, weight, mirrors.clock]
    by_cases same : k = i
    · subst same
      by_cases idle : (s.q.wfqQueues k).qdisc = []
      · rw [if_pos ⟨rfl, (mirrors.empty_iff k).mpr idle⟩, Nat.add_comm]
        exact (wfqAdmit_first ((mirrors.counted.lenBytes_eq_zero_iff k).mpr idle)).1.symm
      · rw [if_neg fun activated => idle ((mirrors.empty_iff k).mp activated.2),
          mirrors.finish k idle]
        exact (wfqAdmit_behind (mt (mirrors.counted.lenBytes_eq_zero_iff k).mp idle)).1.symm
    · rw [wfqAdmit_others same] at busy ⊢
      rw [if_neg fun activated => same (wfqId_injective activated.1)]
      exact mirrors.finish k busy
  · rw [Wfq.wfqAdmit_virtualTime, prio, weight, mirrors.clock]
    by_cases idle : (s.q.wfqQueues i).qdisc = []
    · rw [if_pos ((mirrors.empty_iff i).mpr idle), Function.update_self, Nat.add_comm]
      exact (wfqAdmit_first ((mirrors.counted.lenBytes_eq_zero_iff i).mpr idle)).2.symm
    · rw [if_neg (mt (mirrors.empty_iff i).mp idle), mirrors.clock]
      exact (wfqAdmit_behind (mt (mirrors.counted.lenBytes_eq_zero_iff i).mp idle)).2.symm

/-! ### Dequeue -/

/-- The mirror serves priority 0 while the module serves the priority queue. -/
theorem prioLenBytes_zero_iff (mirrors : Mirrors s m) :
    m.q.prioLenBytes 0 = 0 ↔ s.q.sumPrioLenBytes = 0 := by
  rw [mirrors.counted.sumPrioLenBytes_eq_zero_iff]
  apply (mirrors.balanced.prioLenBytes_eq_zero_iff 0).trans
  show (∀ id, (m.q.queues id).prio = 0 → (m.q.queues id).qdisc = []) ↔ _
  constructor
  · intro empty k
    by_contra busy
    have busy' : (m.q.queues (prioId k)).qdisc ≠ [] := mt (mirrors.empty_prio_iff k).mp busy
    exact busy' (empty _ (by rw [mirrors.prio _ busy', prioOf_prioId]))
  · intro empty id prio
    by_contra busy
    rw [mirrors.prio id busy] at prio
    unfold prioOf at prio
    split at prio
    next k target =>
      rw [PrioDwrr.eq_prioId_of_queueOf target, mirrors.empty_prio_iff] at busy
      exact busy (empty k)
    next => exact absurd prio (by decide)

private theorem prioSchedule_of_busy (mirrors : Mirrors s m) (busy : 0 < s.q.sumPrioLenBytes) :
    Wfq.prioSchedule m.q = some 0 := by
  have stored : m.q.prioLenBytes 0 ≠ 0 := mt mirrors.prioLenBytes_zero_iff.mp (by omega)
  cases scheduled : Wfq.prioSchedule m.q with
  | none => exact absurd (Wfq.prioSchedule_eq_none scheduled 0) stored
  | some prio =>
      by_contra other
      have above : 0 < prio := Fin.pos_of_ne_zero fun zero => other (congrArg some zero)
      exact stored ((Wfq.prioSchedule_eq_some scheduled).2 0 above)

private theorem prioSchedule_of_idle (mirrors : Mirrors s m) (idle : s.q.sumPrioLenBytes = 0)
    {i : Fin 8} (candidate : Wfq.Candidate m.q 1 i) : Wfq.prioSchedule m.q = some 1 := by
  have empty : m.q.prioLenBytes 0 = 0 := mirrors.prioLenBytes_zero_iff.mpr idle
  have own := (Wfq.candidate_iff mirrors.balanced).mp candidate
  have stored : m.q.prioLenBytes 1 ≠ 0 := fun none =>
    own.2 ((mirrors.balanced.prioLenBytes_eq_zero_iff 1).mp none i own.1)
  cases scheduled : Wfq.prioSchedule m.q with
  | none => exact absurd (Wfq.prioSchedule_eq_none scheduled 1) stored
  | some prio =>
      obtain ⟨positive, highest⟩ := Wfq.prioSchedule_eq_some scheduled
      rcases lt_trichotomy prio 1 with below | rfl | above
      · obtain rfl : prio = 0 := by omega
        omega
      · rfl
      · exact absurd (highest 1 above) stored

/-- At priority 0 the scan finds the only queue there is. -/
theorem scan_prio (mirrors : Mirrors s m) {k : Fin 1} (busy : (s.q.prioQueues k).qdisc ≠ []) :
    Wfq.scan m.q 0 = some (prioId k) := by
  have busy' : (m.q.queues (prioId k)).qdisc ≠ [] := mt (mirrors.empty_prio_iff k).mp busy
  have candidate : Wfq.Candidate m.q 0 (prioId k) := by
    rw [Wfq.candidate_iff mirrors.balanced, mirrors.prio _ busy', prioOf_prioId]
    exact ⟨rfl, busy'⟩
  obtain ⟨id, found⟩ := Option.isSome_iff_exists.mp (Wfq.scan_isSome candidate)
  obtain ⟨prio, stored⟩ := (Wfq.candidate_iff mirrors.balanced).mp (Wfq.scan_candidate found)
  rw [mirrors.prio id stored] at prio
  unfold prioOf at prio
  split at prio
  next j target =>
    rw [found, PrioDwrr.eq_prioId_of_queueOf target, Subsingleton.elim j k]
  next => exact absurd prio (by decide)

/-- After a wait the tokens of the mirror cover every packet. -/
theorem affordable (mirrors : Mirrors s m) {id : Fin 8} {skb : Skb}
    (stored : skb ∈ (m.q.queues id).qdisc) :
    0 ≤ Wfq.tbfSchedule m.params (skbSize skb) m.q (m.clock + 2 ^ 31) := by
  have size := (mirrors.balanced.stored_size stored).2
  obtain ⟨past, tokens⟩ := Wfq.tokens_nonneg mirrors.reachable
  have bucket : m.params.value .bucket = 2 ^ 31 - 1 := by
    rw [mirrors.params]
    rfl
  have cost : ∀ len, len < 2 ^ 32 → l2tNs (changeRate 0) len = len := by
    intro len small
    show u64 (u32 len * 1) >>> 0 = len
    unfold u64 u32
    omega
  have capacity : u32OfInt (2 ^ 31 - 1) = 2 ^ 31 - 1 := by decide
  unfold Wfq.tbfSchedule Kernel.tbfSchedule bucketNs
  rw [mirrors.rate, bucket, capacity, cost _ (by decide), cost _ (by omega)]
  omega

/-- The two heads, and what waits behind them. -/
theorem head (mirrors : Mirrors s m) {id : Fin 8} {skb : Skb} {rest : List Skb}
    (front : PrioWfq.fifo s.q id = skb :: rest) :
    ∃ skb' rest', (m.q.queues id).qdisc = skb' :: rest' ∧ Carries skb' skb ∧
      List.Forall₂ Carries rest' rest := by
  have same := mirrors.fifo id
  rw [front, List.forall₂_cons_right_iff] at same
  obtain ⟨skb', rest', carries, behind, content⟩ := same
  exact ⟨skb', rest', content, carries, behind⟩

/-- A packet returned by both keeps the relation, where its times do. -/
theorem take (mirrors : Mirrors s m) {id prio : Fin 8} {skb' : Skb} {rest rest' : List Skb}
    {q' : PrioWfqSchedData} {now : Int} (front : (m.q.queues id).qdisc = skb' :: rest')
    (behind : List.Forall₂ Carries rest' rest) (scheduled : Wfq.prioSchedule m.q = some prio)
    (found : Wfq.scan m.q prio = some id) (counted : Counted q')
    (content : ∀ k, PrioWfq.fifo q' k = if k = id then rest else PrioWfq.fifo s.q k)
    (finish : ∀ sent, (∃ later result,
        sent = (Wfq.wfqTransmit m.params later prio id skb' rest' result m.q).1) →
      ∀ i, (q'.wfqQueues i).qdisc ≠ [] →
        (sent.queues (wfqId i)).headFinTime = (q'.wfqQueues i).headFinishTime)
    (clock : ∀ sent, (∃ later result,
        sent = (Wfq.wfqTransmit m.params later prio id skb' rest' result m.q).1) →
      sent.virtualTime 1 = q'.virtualTime) :
    ∃ m', Wfq.Step byteLimit m (.dequeue (m.clock + 2 ^ 31) (.packet id skb')) m' ∧
      Mirrors ⟨s.params, q', now⟩ m' := by
  have inside : skb' ∈ (m.q.queues id).qdisc := by simp [front]
  have enough := mirrors.affordable inside
  have taken : Wfq.Step byteLimit m (.dequeue (m.clock + 2 ^ 31) (.packet id skb'))
      ⟨m.params, (Wfq.wfqTransmit m.params (m.clock + 2 ^ 31) prio id skb' rest'
        (Wfq.tbfSchedule m.params (skbSize skb') m.q (m.clock + 2 ^ 31)) m.q).1,
        m.clock + 2 ^ 31⟩ := by
    apply Wfq.Step.dequeue (by omega)
    simp only [Wfq.wfqDequeue, scheduled, found, front, if_neg (not_lt.mpr enough),
      wfq_transmit_returned mirrors.off]
  have fields := fun k => Wfq.transmit_fields m.params (m.clock + 2 ^ 31) prio id skb' rest'
    (Wfq.tbfSchedule m.params (skbSize skb') m.q (m.clock + 2 ^ 31)) m.q k
  refine ⟨_, taken, counted, (Follows.step taken).reachable mirrors.reachable, mirrors.params,
    mirrors.rate, fun k => ?_, fun k busy => ?_, finish _ ⟨_, _, rfl⟩, clock _ ⟨_, _, rfl⟩⟩
  · rw [(fields k).2, content k]
    split
    · exact behind
    · exact mirrors.fifo k
  · rw [(fields k).2] at busy
    rw [(fields k).1]
    apply mirrors.prio
    split at busy
    next same => simp [same, front]
    next => exact busy

/-- The last packet of a priority queue and one with a successor leave the times alone. -/
theorem take_prio (mirrors : Mirrors s m) {params : Params} {k : Fin 1} {skb : Skb}
    {rest : List Skb} {now toks : Int} (busy : 0 < s.q.sumPrioLenBytes)
    (front : (s.q.prioQueues k).qdisc = skb :: rest) :
    ∃ skb' m', Carries skb' skb ∧
      Wfq.Step byteLimit m (.dequeue (m.clock + 2 ^ 31) (.packet (prioId k) skb')) m' ∧
      Mirrors ⟨s.params, prioSent params now toks k skb rest s.q, now⟩ m' := by
  obtain ⟨skb', rest', front', carries, behind⟩ := mirrors.head ((fifo_prioId s.q k).trans front)
  have queues : (prioSent params now toks k skb rest s.q).prioQueues =
      Function.update s.q.prioQueues k
        { qdisc := rest, lenBytes := u32Sub (s.q.prioQueues k).lenBytes (skbSize skb) } := rfl
  have scanned := mirrors.scan_prio (by rw [front]; exact List.cons_ne_nil _ _)
  refine ⟨skb', ?_⟩
  obtain ⟨m', taken, kept⟩ : ∃ m', Wfq.Step byteLimit m _ m' ∧
      Mirrors ⟨s.params, prioSent params now toks k skb rest s.q, now⟩ m' := by
    refine mirrors.take front' behind (mirrors.prioSchedule_of_busy busy) scanned
      (mirrors.counted.prioSent front) (fifo_update_prio queues rfl) ?_ ?_
    · rintro sent ⟨later, result, rfl⟩ i stays
      rw [Wfq.wfqTransmit_headFinTime_of_ne _ _ _ _ _ _ _ (wfqId_ne_prioId i k)]
      exact mirrors.finish i stays
    · rintro sent ⟨later, result, rfl⟩
      rw [Wfq.wfqTransmit_virtualTime_of_ne _ _ _ _ _ _ _ (by decide)]
      exact mirrors.clock
  exact ⟨m', carries, taken, kept⟩

/-- A packet of another queue leaves the stamp of the next head, in both, if there is one. -/
theorem take_wfq (mirrors : Mirrors s m) {i : Fin 7} {skb : Skb} {rest : List Skb}
    {now toks : Int} (idle : s.q.sumPrioLenBytes = 0) (found : PrioWfq.scan s.q = some i)
    (front : (s.q.wfqQueues i).qdisc = skb :: rest) :
    ∃ skb' m', Carries skb' skb ∧
      Wfq.Step byteLimit m (.dequeue (m.clock + 2 ^ 31) (.packet (wfqId i) skb')) m' ∧
      Mirrors ⟨s.params, (transmit s.params now i skb rest toks s.q).1, now⟩ m' := by
  obtain ⟨skb', rest', front', carries, behind⟩ := mirrors.head ((fifo_wfqId s.q i).trans front)
  obtain ⟨headFinishTime, queues⟩ := transmit_wfqQueues s.params now toks i skb rest s.q
  have scanned : Wfq.scan m.q 1 = some (wfqId i) := by
    rw [mirrors.scan, found]
    rfl
  have scheduled := mirrors.prioSchedule_of_idle idle (Wfq.scan_candidate scanned)
  have weight : m.params.queueWeight (wfqId i) = s.params.queueWeight i := by
    rw [mirrors.params, mirror_queueWeight]
  have own : (m.q.queues (wfqId i)).headFinTime = (s.q.wfqQueues i).headFinishTime :=
    mirrors.finish i (by simp [front])
  -- both stamp the next head, or neither does
  have next : ∀ ahead more, rest = ahead :: more → ∃ ahead' more', rest' = ahead' :: more' ∧
      skbSize ahead' = skbSize ahead ∧
      0 < u32Sub (m.q.queues (wfqId i)).lenBytes (skbSize skb') ∧
      0 < u32Sub (s.q.wfqQueues i).lenBytes (skbSize skb) := by
    rintro ahead more rfl
    obtain ⟨ahead', more', carried, _, rfl⟩ := List.forall₂_cons_right_iff.mp behind
    have positive := Wfq.stored_after_head mirrors.balanced front'
    refine ⟨ahead', more', rfl, (skbSize_eq_of_len_eq carried.len).symm, positive, ?_⟩
    rwa [mirrors.lenBytes, ← skbSize_eq_of_len_eq carries.len] at positive
  obtain ⟨m', taken, kept⟩ : ∃ m', Wfq.Step byteLimit m _ m' ∧
      Mirrors ⟨s.params, (transmit s.params now i skb rest toks s.q).1, now⟩ m' := by
    refine mirrors.take front' behind scheduled scanned (mirrors.counted.transmit front)
      (fifo_update_wfq queues (transmit_counters s.params now toks i skb rest s.q).1) ?_ ?_
    · rintro sent ⟨later, result, rfl⟩ k stays
      by_cases same : k = i
      · subst same
        rw [queues, Function.update_self] at stays
        obtain ⟨ahead, more, rfl⟩ := List.exists_cons_of_ne_nil stays
        obtain ⟨ahead', more', rfl, size, positive', positive⟩ := next ahead more rfl
        rw [(Wfq.wfqTransmit_next _ _ _ _ _ _ _ _ _ positive').1, (transmit_next positive).1, own,
          weight, size]
      · rw [transmit_others same] at stays ⊢
        rw [Wfq.wfqTransmit_headFinTime_of_ne _ _ _ _ _ _ _ (wfqId_injective.ne same)]
        exact mirrors.finish k stays
    · rintro sent ⟨later, result, rfl⟩
      cases rest with
      | nil =>
          obtain rfl := List.forall₂_nil_right_iff.mp behind
          rw [(Wfq.wfqTransmit_last _ _ _ _ _ _ _).2, transmit_last.2]
          exact mirrors.clock
      | cons ahead more =>
          obtain ⟨ahead', more', rfl, size, positive', positive⟩ := next ahead more rfl
          rw [(Wfq.wfqTransmit_next _ _ _ _ _ _ _ _ _ positive').2, (transmit_next positive).2,
            own, weight, size, mirrors.clock]
          rfl
  exact ⟨skb', m', carries, taken, kept⟩

/-! ### One event -/

/-- The clock of the module does not matter. -/
theorem later (mirrors : Mirrors s m) (now : Int) : Mirrors ⟨s.params, s.q, now⟩ m :=
  ⟨mirrors.counted, mirrors.reachable, mirrors.params, mirrors.rate, mirrors.fifo, mirrors.prio,
    mirrors.finish, mirrors.clock⟩

private theorem sysctl (mirrors : Mirrors s m) (param : Param) (value : Int) :
    ∃ answer m', Follows m answer m' ∧ answer.bind Event.seen = none ∧
      Mirrors ⟨s.params.write param value, s.q, s.clock⟩ m' := by
  have write : ∀ other, (mirrorParams s.params).write other value =
      mirrorParams (s.params.write param value) →
      ∃ answer m', Follows m answer m' ∧ answer.bind Event.seen = none ∧
        Mirrors ⟨s.params.write param value, s.q, s.clock⟩ m' := by
    intro other same
    have taken : Wfq.Step byteLimit m (.sysctl other value)
        ⟨m.params.write other value, m.q, m.clock⟩ := .sysctl other value
    rw [mirrors.params, same] at taken
    exact ⟨_, _, .step taken, rfl, mirrors.counted,
      (Follows.step taken).reachable mirrors.reachable, rfl, mirrors.rate, mirrors.fifo,
      mirrors.prio, mirrors.finish, mirrors.clock⟩
  have stay : mirrorParams (s.params.write param value) = mirrorParams s.params →
      ∃ answer m', Follows m answer m' ∧ answer.bind Event.seen = none ∧
        Mirrors ⟨s.params.write param value, s.q, s.clock⟩ m' := fun same =>
    ⟨none, m, .stay, rfl, mirrors.counted, mirrors.reachable, mirrors.params.trans same.symm,
      mirrors.rate, mirrors.fifo, mirrors.prio, mirrors.finish, mirrors.clock⟩
  cases param with
  | queueDscp queue => exact write _ (mirror_write_dscp s.params queue value).symm
  | queueWeight i => exact write _ (mirror_write_weight s.params i value).symm
  | _ => exact stay (mirror_write_other s.params (by simp) (by simp) value)

/-- The mirror answers every event of the module by at most one of its own. -/
theorem answer {bfifo : Bfifo} (bounded : bfifo.Bounded) {s' : Sys} {event : Event Param}
    (mirrors : Mirrors s m) (step : Step bfifo s event s') :
    ∃ answer m', Follows m answer m' ∧ Mirrors s' m' ∧
      Option.Rel SeenAs (answer.bind Event.seen) event.seen := by
  cases step with
  | @enqueue now skb q' ret later returns =>
      cases qdiscEnqueue_cases returns with
      | refused refuses =>
          refine ⟨none, m, .stay, mirrors.later now, ?_⟩
          cases ret with
          | success => exact absurd rfl refuses
          | drop | cn => exact .none
      | prio target accepted =>
          obtain ⟨m', taken, kept⟩ := mirrors.store_prio target (bounded _ _ accepted)
          exact ⟨_, m', .step taken, kept, .some (.stored skb)⟩
      | wfq target accepted =>
          obtain ⟨m', taken, kept⟩ := mirrors.store_wfq target (bounded _ _ accepted)
          exact ⟨_, m', .step taken, kept, .some (.stored skb)⟩
  | @dequeue now q' outcome later returns =>
      cases outcome with
      | packet id returned =>
          cases qdiscDequeue_sends returns with
          | prio busy front enough =>
              obtain ⟨skb', m', carries, taken, kept⟩ := mirrors.take_prio busy front
              exact ⟨_, m', .step taken, kept,
                .some (.returned _ (carries.trans (dequeueMarking_markedFrom _ _ _ _).carries))⟩
          | wfq idle found front enough =>
              obtain ⟨skb', m', carries, taken, kept⟩ := mirrors.take_wfq idle found front
              exact ⟨_, m', .step taken, kept,
                .some (.returned _ (carries.trans (dequeueMarking_markedFrom _ _ _ _).carries))⟩
      | null | throttled | fault =>
          rw [qdiscDequeue_stays returns (by simp)]
          exact ⟨none, m, .stay, mirrors.later now, .none⟩
  | sysctl param value =>
      obtain ⟨answer, m', follows, silent, kept⟩ := mirrors.sysctl param value
      refine ⟨answer, m', follows, kept, ?_⟩
      rw [silent]
      exact .none
  | change rate =>
      exact ⟨none, m, .stay, ⟨mirrors.counted, mirrors.reachable, mirrors.params, mirrors.rate,
        mirrors.fifo, mirrors.prio, mirrors.finish, mirrors.clock⟩, .none⟩

end Mirrors

/-! ### A run -/

section

variable {bfifo : Bfifo} {good : Sys → Prop} {good' : Wfq.Sys → Prop} {start last : Sys}
  {m : Wfq.Sys} {events : List (Event Param)}

/-- A run of the module between good states is one of the mirror, between states that are good
wherever they mirror good ones. -/
theorem Mirrors.run (bounded : bfifo.Bounded)
    (transfer : ∀ {s m}, Mirrors s m → good s → good' m) (mirrors : Mirrors start m)
    (run : RunWithin good (Step bfifo) start events last) :
    ∃ answers m', RunWithin good' (Wfq.Step byteLimit) m answers m' ∧ Mirrors last m' ∧
      SeenAlike answers events := by
  obtain ⟨answers, m', mirrored, kept, alike⟩ := Run.simulate
    (Within good' (Wfq.Step byteLimit)) Mirrors (fun _ events _ answers => SeenAlike answers events)
    (fun _ => .nil) SeenAlike.append run.2 mirrors fun {first last event start} taken mirrors => by
      obtain ⟨before, step, after⟩ := taken
      obtain ⟨answer, m', follows, kept, alike⟩ := mirrors.answer bounded step
      refine ⟨answer.toList, m', ?_, kept, .single alike⟩
      cases follows with
      | stay => exact .nil _
      | step taken => exact .single ⟨transfer mirrors before, taken, transfer kept after⟩
  exact ⟨answers, m', ⟨transfer mirrors run.1, mirrored⟩, kept, alike⟩

end

/-- The mirror of a qdisc just created. -/
def mirrorOf (s : Sys) : Wfq.Sys := ⟨mirrorParams s.params, Wfq.wfqInit s.clock 0, s.clock⟩

theorem mirrorOf_initial (s : Sys) : Wfq.Initial (mirrorOf s) := ⟨0, rfl⟩

theorem mirrors_initial {s : Sys} (fresh : Initial s) : Mirrors s (mirrorOf s) := by
  have counted := counted_initial fresh
  obtain ⟨rate, initial⟩ := fresh
  have empty : ∀ id, fifo s.q id = [] := by
    intro id
    unfold fifo PrioDwrr.account
    rw [initial]
    split <;> rfl
  refine ⟨counted, ⟨_, [], mirrorOf_initial s, .nil _⟩, rfl, rfl, fun id => ?_, fun id busy => ?_,
    fun i busy => ?_, ?_⟩
  · rw [empty id]
    exact .nil
  · exact absurd rfl busy
  · rw [← fifo_wfqId, empty] at busy
    exact absurd rfl busy
  · rw [initial]
    rfl

/-- **Simulation.** `sch_wfq`, with its first queue at priority 0 and the other seven at
priority 1, the weights of the module and nothing else in force, can follow every run of the
module from initialization on: it accepts the same packets and returns them from the same
queues in the same order, and where it ends, the finish times and the virtual time are those of
the module. -/
theorem prioWfq_simulated_by_wfq {bfifo : Bfifo} (bounded : bfifo.Bounded) {start last : Sys}
    {events : List (Event Param)} (fresh : Initial start)
    (run : Run (Step bfifo) start events last) :
    ∃ start' answers last', Wfq.Initial start' ∧ start'.params = mirrorParams start.params ∧
      Run (Wfq.Step byteLimit) start' answers last' ∧ SeenAlike answers events ∧
      Mirrors last last' := by
  have within : RunWithin (fun _ => True) (Step bfifo) start events last :=
    ⟨trivial, run.mono fun step => ⟨trivial, step, trivial⟩⟩
  obtain ⟨answers, last', mirrored, kept, alike⟩ :=
    @Mirrors.run _ _ (fun _ => True) _ _ _ _ bounded (fun _ _ => trivial) (mirrors_initial fresh)
      within
  exact ⟨mirrorOf start, answers, last', mirrorOf_initial start, rfl, mirrored.run, alike, kept⟩

theorem mixed_simulated : ∃ start' answers last', Wfq.Initial start' ∧
    start'.params = mirrorParams idle.params ∧ Run (Wfq.Step byteLimit) start' answers last' ∧
    SeenAlike answers mixedHistory ∧ Mirrors mixed last' :=
  prioWfq_simulated_by_wfq byteLimit_bounded ⟨_, rfl⟩
    (RunWithin.of_replay_isSome Sys.next_sound mixed_isSome).run

end MqEcn.Kernel.PrioWfq
