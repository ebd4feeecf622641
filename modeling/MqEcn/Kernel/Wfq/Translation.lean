import MqEcn.Kernel.Wfq.Invariant

/-!
Contract: `sch_wfq` does not depend on where the virtual times start.

Owns: the relation between two qdiscs whose virtual times differ by a constant modulo
`2 ^ 64`, its preservation by every operation, and the equality of what the two return.

Does not own: the bound on the compared differences, without which the wrap-aware
comparison is not invariant under translation.
-/

set_option autoImplicit false

namespace MqEcn.Kernel.Wfq

open MqEcn.Kernel
open MqEcn.Library
open MqEcn.Library.Word

/-! ### Operations in sequence -/

/-- One operation. -/
inductive Op where
  | enqueue (now : Int) (skb : Skb)
  | dequeue (now : Int)
  | sysctl (param : Param) (value : Int)
  | change (rate : Nat)

/-- The operation carried out, and what it returned. -/
def perform (bfifo : Bfifo) (s : Sys) : Op → Sys × Event Param
  | .enqueue now skb =>
      let result := wfqEnqueue bfifo s.params now skb s.q
      (⟨s.params, result.1, now⟩, .enqueue now skb result.2)
  | .dequeue now =>
      let result := wfqDequeue s.params now s.q
      (⟨s.params, result.1, now⟩, .dequeue now result.2)
  | .sysctl param value =>
      (⟨s.params.write param value, s.q, s.clock⟩, .sysctl param value)
  | .change rate => (⟨s.params, wfqChange rate s.q, s.clock⟩, .change rate)

/-- A sequence of operations, with everything they returned. -/
def performAll (bfifo : Bfifo) (s : Sys) : List Op → Sys × List (Event Param)
  | [] => (s, [])
  | op :: ops =>
      let first := perform bfifo s op
      let rest := performAll bfifo first.1 ops
      (rest.1, first.2 :: rest.2)

/-! ### Translated states -/

/-- `c` added to every virtual time. -/
def translate (c : Nat) (q : WfqSchedData) : WfqSchedData :=
  { q with virtualTime := fun prio => u64 (q.virtualTime prio + c) }

/-- The qdisc without its times. -/
def timeless (q : WfqSchedData) : WfqSchedData :=
  { q with
    virtualTime := fun _ => 0
    queues := fun i => { q.queues i with headFinTime := 0 } }

/-- The two qdiscs differ exactly by `c` in every virtual time and in the finish time of
every queue that holds packets. -/
structure Shifted (c : Nat) (q q' : WfqSchedData) : Prop where
  virtualTime : ∀ prio, q'.virtualTime prio = u64 (q.virtualTime prio + c)
  headFinTime : ∀ i, (q.queues i).qdisc ≠ [] →
    (q'.queues i).headFinTime = u64 ((q.queues i).headFinTime + c)
  others : timeless q' = timeless q

/-- Comparisons of times less than half the range apart survive the translation. -/
theorem wfqTimeBefore_shift {x y : Int} (near : |x - y| < 2 ^ 63) (c : Nat) :
    wfqTimeBefore (u64 (u64OfInt x + c)) (u64 (u64OfInt y + c)) =
      wfqTimeBefore (u64OfInt x) (u64OfInt y) := by
  have same : x + c - (y + c) = x - y := by omega
  rw [u64_u64OfInt_add, u64_u64OfInt_add, Bool.eq_iff_iff, wfqTimeBefore_iff near,
    wfqTimeBefore_iff (by rw [same]; exact near)]
  omega

namespace Shifted

variable {c : Nat} {q q' : WfqSchedData}

theorem queue (shifted : Shifted c q q') (i : Fin 8) :
    (q'.queues i).prio = (q.queues i).prio ∧ (q'.queues i).lenBytes = (q.queues i).lenBytes ∧
      (q'.queues i).qdisc = (q.queues i).qdisc := by
  have same := congrArg (fun q => q.queues i) shifted.others
  simp only [timeless, WfqClass.mk.injEq] at same
  exact ⟨same.1, same.2.1, same.2.2.1⟩

/-- What the code reads besides times and queues. -/
theorem fields (shifted : Shifted c q q') :
    q'.rate = q.rate ∧ q'.tokens = q.tokens ∧ q'.timeNs = q.timeNs ∧
      q'.sumLenBytes = q.sumLenBytes ∧ q'.prioLenBytes = q.prioLenBytes := by
  have same := shifted.others
  simp only [timeless, WfqSchedData.mk.injEq] at same
  exact ⟨same.2.1, same.2.2.1, same.2.2.2.1, same.2.2.2.2.1, same.2.2.2.2.2.1⟩

private theorem translate (q : WfqSchedData) (empty : ∀ i, (q.queues i).qdisc = []) :
    Shifted c q (translate c q) :=
  ⟨fun _ => rfl, fun i busy => absurd (empty i) busy, rfl⟩

end Shifted

/-! ### Enqueue -/

/-- `q` with other times. -/
def retime (virtualTime headFinTime : Fin 8 → Nat) (q : WfqSchedData) : WfqSchedData :=
  { q with
    virtualTime
    queues := fun i => { q.queues i with headFinTime := headFinTime i } }

private theorem eq_retime {q q' : WfqSchedData} (same : timeless q' = timeless q) :
    q' = retime q'.virtualTime (fun i => (q'.queues i).headFinTime) q := by
  obtain ⟨queues, rate, tokens, timeNs, sumLenBytes, prioLenBytes, virtualTime, qlen⟩ := q
  obtain ⟨queues', rate', tokens', timeNs', sumLenBytes', prioLenBytes', virtualTime', qlen'⟩ := q'
  simp only [timeless, WfqSchedData.mk.injEq] at same
  obtain ⟨sameQueues, rfl, rfl, rfl, rfl, rfl, _, rfl⟩ := same
  simp only [retime, WfqSchedData.mk.injEq, and_true]
  funext i
  have own := congrFun sameQueues i
  simp only [WfqClass.mk.injEq] at own
  obtain ⟨prio, lenBytes, qdisc, _, codel⟩ := own
  rw [← prio, ← lenBytes, ← qdisc, ← codel]

private theorem enqueueMarking_congr (params : Params) (now : Int) (skb : Skb) (i : Fin 8)
    {q q' : WfqSchedData} {cl cl' : WfqClass} (sum : q'.sumLenBytes = q.sumLenBytes)
    (len : cl'.lenBytes = cl.lenBytes) :
    enqueueMarking params now skb q' i cl' = enqueueMarking params now skb q i cl := by
  unfold enqueueMarking wfqQlenMarking
  rw [sum, len]

private theorem timeless_admit (params : Params) (now : Int) (i : Fin 8) (skb : Skb)
    (virtualTime headFinTime : Fin 8 → Nat) (q : WfqSchedData) :
    timeless (wfqAdmit params now i skb (retime virtualTime headFinTime q)) =
      timeless (wfqAdmit params now i skb q) := by
  unfold wfqAdmit
  simp only [wfqActivate_eq]
  by_cases idle : (q.queues i).qdisc = []
  · simp only [timeless, retime, idle, if_true, WfqSchedData.mk.injEq, and_true]
    funext k
    by_cases same : k = i
    · subst same
      simp only [Function.update_self, WfqClass.mk.injEq, true_and, and_true]
      exact congrArg (fun marked => [] ++ [marked]) (enqueueMarking_congr _ _ _ _ rfl rfl)
    · simp only [Function.update_of_ne same]
  · simp only [timeless, retime, idle, if_false, WfqSchedData.mk.injEq, and_true]
    funext k
    by_cases same : k = i
    · subst same
      simp only [Function.update_self, WfqClass.mk.injEq, true_and, and_true]
      exact congrArg (fun marked => (q.queues k).qdisc ++ [marked])
        (enqueueMarking_congr _ _ _ _ rfl rfl)
    · simp only [Function.update_of_ne same]

private theorem Shifted.store {c : Nat} {q q' : WfqSchedData} (shifted : Shifted c q q')
    (params : Params) (now : Int) (i : Fin 8) (skb : Skb) :
    Shifted c (wfqAdmit params now i skb q) (wfqAdmit params now i skb q') := by
  refine ⟨fun prio => ?_, fun k busy => ?_, ?_⟩
  · rw [wfqAdmit_virtualTime, wfqAdmit_virtualTime, (shifted.queue i).2.2]
    split
    · by_cases here : prio = params.queuePrio i
      · subst here
        rw [Function.update_self, Function.update_self, shifted.virtualTime, u64_add_shift]
      · rw [Function.update_of_ne here, Function.update_of_ne here]
        exact shifted.virtualTime prio
    · exact shifted.virtualTime prio
  · rw [wfqAdmit_headFinTime, wfqAdmit_headFinTime, (shifted.queue i).2.2]
    by_cases activated : k = i ∧ (q.queues i).qdisc = []
    · rw [if_pos activated, if_pos activated, shifted.virtualTime, u64_add_shift]
    · rw [if_neg activated, if_neg activated]
      apply shifted.headFinTime k
      intro empty
      by_cases same : k = i
      · subst same
        exact activated ⟨rfl, empty⟩
      · apply busy
        simpa [wfqAdmit, Function.update_of_ne same] using empty
  · rw [eq_retime shifted.others]
    exact timeless_admit _ _ _ _ _ _ _

private theorem Shifted.enqueue {c : Nat} {q q' : WfqSchedData} (shifted : Shifted c q q')
    (bfifo : Bfifo) (params : Params) (now : Int) (skb : Skb) :
    (wfqEnqueue bfifo params now skb q').2 = (wfqEnqueue bfifo params now skb q).2 ∧
      Shifted c (wfqEnqueue bfifo params now skb q).1 (wfqEnqueue bfifo params now skb q').1 := by
  have overfill : ∀ len i,
        wfqBufferOverfill params len i q' = wfqBufferOverfill params len i q := by
    intro len i
    unfold wfqBufferOverfill
    rw [shifted.fields.2.2.2.1, (shifted.queue i).2.1]
  unfold wfqEnqueue
  simp only [overfill, (shifted.queue _).2.2]
  split
  · exact ⟨rfl, shifted⟩
  · split
    · exact ⟨rfl, shifted.store params now _ skb⟩
    · exact ⟨rfl, shifted⟩
    · exact ⟨rfl, shifted⟩

/-! ### Dequeue -/

private theorem dequeueMarking_congr (params : Params) (now : Int) (skb : Skb) (i : Fin 8)
    {q q' : WfqSchedData} {cl cl' : WfqClass} (sum : q'.sumLenBytes = q.sumLenBytes)
    (len : cl'.lenBytes = cl.lenBytes) (codel : cl'.codel = cl.codel) :
    dequeueMarking params now skb q' i cl' = dequeueMarking params now skb q i cl := by
  unfold dequeueMarking wfqQlenMarking
  rw [sum, len, codel]

private theorem timeless_transmit (params : Params) (now : Int) (prio i : Fin 8) (skb : Skb)
    (rest : List Skb) (result : Int) (virtualTime headFinTime : Fin 8 → Nat) (q : WfqSchedData) :
    (wfqTransmit params now prio i skb rest result (retime virtualTime headFinTime q)).2 =
        (wfqTransmit params now prio i skb rest result q).2 ∧
      timeless (wfqTransmit params now prio i skb rest result
          (retime virtualTime headFinTime q)).1 =
        timeless (wfqTransmit params now prio i skb rest result q).1 := by
  constructor
  · exact congrArg Prod.fst (dequeueMarking_congr _ _ _ _ rfl rfl rfl)
  · simp only [wfqTransmit, timeless, retime, WfqSchedData.mk.injEq, and_true]
    funext k
    by_cases same : k = i
    · subst same
      simp only [Function.update_self, WfqClass.mk.injEq, true_and]
      exact congrArg Prod.snd (dequeueMarking_congr _ _ _ _ rfl rfl rfl)
    · simp only [Function.update_of_ne same]

/-- The scan depends on the finish times through their comparisons only. -/
theorem scan_congr {q q' : WfqSchedData} {prio : Fin 8}
    (queues : ∀ i, (q'.queues i).prio = (q.queues i).prio ∧
      (q'.queues i).lenBytes = (q.queues i).lenBytes)
    (before : ∀ i j, Candidate q prio i → Candidate q prio j →
      wfqTimeBefore (q'.queues i).headFinTime (q'.queues j).headFinTime =
        wfqTimeBefore (q.queues i).headFinTime (q.queues j).headFinTime) :
    scan q' prio = scan q prio := by
  rw [scan_eq_foldl, scan_eq_foldl]
  apply Selection.scan_congr
  · intro i _
    unfold Candidate
    rw [(queues i).1, (queues i).2]
  · intro i _ j _ iKept jKept
    have iCandidate : Candidate q prio i := ⟨(queues i).1 ▸ iKept.1, (queues i).2 ▸ iKept.2⟩
    have jCandidate : Candidate q prio j := ⟨(queues j).1 ▸ jKept.1, (queues j).2 ▸ jKept.2⟩
    unfold Earlier
    rw [before i j iCandidate jCandidate]

section

variable {c limit : Nat} {width : Fin 8 → Int} {q q' : WfqSchedData} {params : Params}
  {now : Int} {prio i : Fin 8} {skb : Skb} {rest : List Skb}

private theorem Shifted.scan_eq (shifted : Shifted c q q') (narrow : Narrow width)
    (timed : Timed limit width q) (prio : Fin 8) : scan q' prio = scan q prio := by
  obtain ⟨tags, tracks, chained⟩ := timed.times prio
  apply scan_congr fun i => ⟨(shifted.queue i).1, (shifted.queue i).2.1⟩
  intro i j iCandidate jCandidate
  have iBusy := (candidate_iff timed.balanced).mp iCandidate
  have jBusy := (candidate_iff timed.balanced).mp jCandidate
  have iMember := (tracks.backlogged i).mpr iBusy
  have jMember := (tracks.backlogged j).mpr jBusy
  rw [shifted.headFinTime i iBusy.2, shifted.headFinTime j jBusy.2, tracks.finish i iMember,
    tracks.finish j jMember]
  exact wfqTimeBefore_shift (narrow.near chained iMember jMember) c

private theorem Shifted.transmit (shifted : Shifted c q q') (narrow : Narrow width)
    (covers : Covers limit params width) (timed : Timed limit width q) (result : Int)
    (found : scan q prio = some i) (front : (q.queues i).qdisc = skb :: rest) :
    (wfqTransmit params now prio i skb rest result q').2 =
        (wfqTransmit params now prio i skb rest result q).2 ∧
      Shifted c (wfqTransmit params now prio i skb rest result q).1
        (wfqTransmit params now prio i skb rest result q').1 := by
  have same := timeless_transmit params now prio i skb rest result q'.virtualTime
    (fun k => (q'.queues k).headFinTime) q
  rw [← eq_retime shifted.others] at same
  refine ⟨same.1, fun other => ?_, fun k busy => ?_, same.2⟩
  · by_cases here : other = prio
    · subst here
      cases rest with
      | nil =>
          rw [(wfqTransmit_last params now other i skb result q).2,
            (wfqTransmit_last params now other i skb result q').2]
          exact shifted.virtualTime other
      | cons next more =>
          obtain ⟨tags, tracks, chained⟩ := timed.times other
          have least := tracks.least timed.balanced narrow chained found
          have inside : next ∈ (q.queues i).qdisc := by simp [front]
          have size := (timed.balanced.stored_size inside).1
          have range := increment_range covers size (timed.stored i next inside) i
          have near := narrow.near_stamp chained least.1 range.1.le range.2
          have positive := stored_after_head timed.balanced front
          have positive' := positive
          rw [← (shifted.queue i).2.1] at positive'
          rw [(wfqTransmit_next params now other i skb next more result q positive).2,
            (wfqTransmit_next params now other i skb next more result q' positive').2,
            shifted.virtualTime, shifted.headFinTime i (by simp [front]), u64_shift_add,
            tracks.clock, tracks.finish i least.1, u64_u64OfInt_add (tags.finish i),
            wfqTimeBefore_shift near]
          split <;> rfl
    · rw [wfqTransmit_virtualTime_of_ne _ _ _ _ _ _ _ here,
        wfqTransmit_virtualTime_of_ne _ _ _ _ _ _ _ here]
      exact shifted.virtualTime other
  · rw [(transmit_fields params now prio i skb rest result q k).2] at busy
    by_cases served : k = i
    · subst served
      rw [if_pos rfl] at busy
      obtain ⟨next, more, rfl⟩ := List.exists_cons_of_ne_nil busy
      have positive := stored_after_head timed.balanced front
      have positive' := positive
      rw [← (shifted.queue k).2.1] at positive'
      rw [(wfqTransmit_next params now prio k skb next more result q positive).1,
        (wfqTransmit_next params now prio k skb next more result q' positive').1,
        shifted.headFinTime k (by simp [front]), u64_shift_add]
    · rw [if_neg served] at busy
      rw [wfqTransmit_headFinTime_of_ne _ _ _ _ _ _ _ served,
        wfqTransmit_headFinTime_of_ne _ _ _ _ _ _ _ served]
      exact shifted.headFinTime k busy

private theorem Shifted.dequeue (shifted : Shifted c q q') (narrow : Narrow width)
    (covers : Covers limit params width) (timed : Timed limit width q) (now : Int) :
    (wfqDequeue params now q').2 = (wfqDequeue params now q).2 ∧
      Shifted c (wfqDequeue params now q).1 (wfqDequeue params now q').1 := by
  obtain ⟨rate, tokens, timeNs, _, prioLenBytes⟩ := shifted.fields
  have tbf : ∀ len, tbfSchedule params len q' now = tbfSchedule params len q now := fun len => by
    unfold tbfSchedule
    rw [rate, tokens, timeNs]
  have selects : prioSchedule q' = prioSchedule q := by
    unfold prioSchedule
    rw [prioLenBytes]
  unfold wfqDequeue
  rw [selects]
  split
  · exact ⟨rfl, shifted⟩
  next prio selected =>
    rw [shifted.scan_eq narrow timed prio]
    split
    · exact ⟨rfl, shifted⟩
    next i found =>
      rw [(shifted.queue i).2.2]
      split
      · exact ⟨rfl, shifted⟩
      next skb rest front =>
        simp only [tbf]
        split
        · exact ⟨rfl, shifted⟩
        · obtain ⟨packet, after⟩ :=
            shifted.transmit narrow covers timed (tbfSchedule params (skbSize skb) q now) found
              front
          exact ⟨by rw [packet], after⟩

end

/-! ### Runs -/

/-- The relation the two runs keep. -/
structure Alike (c : Nat) (s s' : Sys) : Prop where
  params : s'.params = s.params
  clock : s'.clock = s.clock
  shifted : Shifted c s.q s'.q
  timed : Timed 2000024 (fun _ => ((2000024 : Nat) : Int)) s.q

private theorem Alike.perform {bfifo : Bfifo} (bounded : bfifo.Bounded) {c : Nat} {s s' : Sys}
    (alike : Alike c s s') (op : Op) :
    (perform bfifo s' op).2 = (perform bfifo s op).2 ∧
      Alike c (perform bfifo s op).1 (perform bfifo s' op).1 := by
  obtain ⟨params, q', clock⟩ := s'
  obtain ⟨rfl, rfl, shifted, timed⟩ := alike
  have narrow := narrow_const (le_refl 2000024)
  have covers := covers_const 2000024 s.params
  cases op with
  | enqueue now skb =>
      obtain ⟨same, after⟩ := shifted.enqueue bfifo s.params now skb
      refine ⟨?_, rfl, rfl, after,
        timed.enqueue bounded narrow covers rfl (skbSize_le_of_taken bounded rfl)⟩
      exact congrArg (Event.enqueue now skb) same
  | dequeue now =>
      obtain ⟨same, after⟩ := shifted.dequeue narrow covers timed now
      refine ⟨?_, rfl, rfl, after, timed.dequeue narrow covers rfl⟩
      exact congrArg (Event.dequeue now) same
  | sysctl param value => exact ⟨rfl, rfl, rfl, shifted, timed⟩
  | change rate =>
      refine ⟨rfl, rfl, rfl, ⟨shifted.virtualTime, shifted.headFinTime, ?_⟩, ?_⟩
      · exact congrArg (fun q => { q with rate := changeRate rate }) shifted.others
      · exact timed.change rate

/-- **Translation.** From the initial state and from the same state with `c` added to
every virtual time, every sequence of operations returns the same, and leaves two states
that differ exactly by `c` in the virtual times and in the finish times in use. -/
theorem performAll_translate {bfifo : Bfifo} (bounded : bfifo.Bounded) (c : Nat) (params : Params)
    (now : Int) (rate : Nat) (ops : List Op) :
    let plain := performAll bfifo ⟨params, wfqInit now rate, now⟩ ops
    let translated := performAll bfifo ⟨params, translate c (wfqInit now rate), now⟩ ops
    translated.2 = plain.2 ∧ translated.1.params = plain.1.params ∧
      Shifted c plain.1.q translated.1.q := by
  suffices alike : ∀ (ops : List Op) (s s' : Sys), Alike c s s' →
      (performAll bfifo s' ops).2 = (performAll bfifo s ops).2 ∧
        Alike c (performAll bfifo s ops).1 (performAll bfifo s' ops).1 by
    have result := alike ops ⟨params, wfqInit now rate, now⟩
      ⟨params, translate c (wfqInit now rate), now⟩
      ⟨rfl, rfl, .translate _ fun _ => rfl, timed_wfqInit _ _ _ _⟩
    exact ⟨result.1, result.2.params, result.2.shifted⟩
  intro ops
  induction ops with
  | nil => exact fun _ _ alike => ⟨rfl, alike⟩
  | cons op ops inductionHypothesis =>
      intro s s' alike
      obtain ⟨same, after⟩ := alike.perform bounded op
      obtain ⟨rest, final⟩ := inductionHypothesis _ _ after
      exact ⟨congrArg₂ List.cons same rest, final⟩

/-- Two frames of different queues across the wrap of the virtual time. -/
theorem performAll_translate_wrap :
    (performAll byteLimit ⟨paramsInit, translate (2 ^ 64 - 1) (wfqInit 0 125000000), 0⟩
      [.enqueue 1 (fullFrame 0), .enqueue 2 (fullFrame 4), .dequeue 100000, .dequeue 200000]).2 =
    (performAll byteLimit ⟨paramsInit, wfqInit 0 125000000, 0⟩
      [.enqueue 1 (fullFrame 0), .enqueue 2 (fullFrame 4), .dequeue 100000, .dequeue 200000]).2 :=
  (performAll_translate byteLimit_bounded (2 ^ 64 - 1) paramsInit 0 125000000
    [.enqueue 1 (fullFrame 0), .enqueue 2 (fullFrame 4), .dequeue 100000, .dequeue 200000]).1

end MqEcn.Kernel.Wfq
