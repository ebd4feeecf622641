import MqEcn.Kernel.Dwrr.Shaping

/-!
Contract: the priorities of `sch_dwrr` do not observe each other's packets.

Owns: the relation between a qdisc and one that serves a single priority of it, its
preservation by every operation, the equality of what the two send from that priority,
and the token bucket as the one exception.

Does not own: the order in which one priority is served.
-/

set_option autoImplicit false

namespace MqEcn.Kernel.Dwrr

open Finset
open MqEcn.Kernel
open MqEcn.Library.Transition
open MqEcn.Library.Word
open Relation (ReflTransGen)

/-! ### Packets -/

/-- The same packet, up to the mark and the time stamp the qdisc puts on it. -/
def Twin (skb skb' : Skb) : Prop := skb'.len = skb.len ∧ skb'.tos = skb.tos

private theorem Twin.trans {first second third : Skb} (left : Twin first second)
    (right : Twin second third) : Twin first third :=
  ⟨right.1.trans left.1, right.2.trans left.2⟩

private theorem Twin.symm {skb skb' : Skb} (twin : Twin skb skb') : Twin skb' skb :=
  ⟨twin.1.symm, twin.2.symm⟩

theorem Twin.size {skb skb' : Skb} (twin : Twin skb skb') : skbSize skb' = skbSize skb :=
  skbSize_eq_of_len_eq twin.1

private theorem twin_of_markedFrom {skb marked : Skb} (marker : MarkedFrom skb marked) :
    Twin skb marked := by
  rcases marker with rfl | rfl
  · exact ⟨rfl, rfl⟩
  · exact ⟨rfl, rfl⟩

private theorem enqueueMarking_twin (params : Params) (now : Int) (skb : Skb) (q : DwrrSchedData)
    (i : Fin 8) (cl : DwrrClass) : Twin skb (enqueueMarking params now skb q i cl) := by
  unfold enqueueMarking
  split
  · exact ⟨rfl, rfl⟩
  · split
    · exact twin_of_markedFrom (dwrrQlenMarking_markedFrom _ _ _ _ _)
    · exact ⟨rfl, rfl⟩

/-- What a FIFO holds after an admission is a twin of the packet admitted. -/
theorem dwrrAdmit_twin (params : Params) (now : Int) (i prio : Fin 8) (skb : Skb)
    (q : DwrrSchedData) : ∃ marked, Twin skb marked ∧ ∀ k,
      ((dwrrAdmit params now i prio skb q).queues k).qdisc =
        (q.queues k).qdisc ++ if k = i then [marked] else [] := by
  unfold dwrrAdmit
  simp only
  generalize stored : enqueueMarking params now skb _ i _ = marked
  refine ⟨marked, stored ▸ enqueueMarking_twin _ _ _ _ _ _, fun k => ?_⟩
  by_cases same : k = i
  · subst same
    simp
  · simp [same]

private theorem storedBytes_eq_of_twins {fifo fifo' : List Skb}
    (twins : List.Forall₂ Twin fifo fifo') :
    storedBytes fifo' = storedBytes fifo := by
  induction twins with
  | nil => rfl
  | cons twin _ inductionHypothesis =>
      rw [storedBytes_cons, storedBytes_cons, twin.size, inductionHypothesis]

private theorem lens_eq_of_twins {fifo fifo' : List Skb} (twins : List.Forall₂ Twin fifo fifo') :
    fifo'.map Skb.len = fifo.map Skb.len := by
  induction twins with
  | nil => rfl
  | cons twin _ inductionHypothesis =>
      rw [List.map_cons, List.map_cons, twin.1, inductionHypothesis]

/-! ### One qdisc -/

/-- The bookkeeping of a qdisc whose queue priorities are `prioOf`. -/
structure Settled (prioOf : Fin 8 → Fin 8) (q : DwrrSchedData) : Prop where
  linked : Linked q
  balanced : (view q).Balanced
  cached : ∀ i, (q.queues i).qdisc ≠ [] → (q.queues i).prio = prioOf i

/-- The configured queue priorities are `prioOf`. -/
def PrioFixed (prioOf : Fin 8 → Fin 8) (s : Sys) : Prop :=
  ∀ i, s.params.queuePrio i = prioOf i

section

variable {prioOf : Fin 8 → Fin 8} {q : DwrrSchedData} {params : Params}

theorem Settled.mem_iff (settled : Settled prioOf q) {prio i : Fin 8} :
    i ∈ q.active prio ↔ prioOf i = prio ∧ (q.queues i).qdisc ≠ [] := by
  rw [settled.linked.mem_iff]
  constructor
  · rintro ⟨own, busy⟩
    exact ⟨(settled.cached i busy).symm.trans own, busy⟩
  · rintro ⟨own, busy⟩
    exact ⟨(settled.cached i busy).trans own, busy⟩

theorem Settled.rotations (settled : Settled prioOf q) {prio : Fin 8} {middle : DwrrSchedData}
    (rotations : ReflTransGen (Rotates params prio) q middle) : Settled prioOf middle := by
  have same := view_of_rotations rotations
  refine ⟨settled.linked.rotations rotations, by rw [same]; exact settled.balanced, ?_⟩
  intro i busy
  rw [prio_of_view same]
  rw [qdisc_of_view same] at busy
  exact settled.cached i busy

private theorem Settled.step {bfifo : Bfifo} (bounded : bfifo.Bounded) {s s' : Sys}
    {event : Event Param} (step : Step bfifo s event s') (fixed : PrioFixed prioOf s)
    (settled : Settled prioOf s.q) :
    Settled prioOf s'.q := by
  refine ⟨settled.linked.step step, balanced_step bounded step settled.linked settled.balanced, ?_⟩
  cases step with
  | enqueue later returns =>
      rcases dwrrEnqueue_cases returns with ⟨roundTime, ⟨_, rfl⟩ | ⟨_, _, rfl⟩⟩
      · exact settled.cached
      · intro k busy
        rw [dwrrAdmit_prio]
        split
        next activated => rw [activated.1, fixed]
        next kept =>
          rcases dwrrAdmit_busy.mp busy with rfl | already
          · apply settled.cached
            intro idle
            exact kept ⟨rfl, idle⟩
          · exact settled.cached k already
  | dequeue later returns =>
      rcases dwrrDequeue_cases returns with ⟨_, rfl, _⟩ | ⟨prio, middle, _, rotations, exit⟩
      · exact settled.cached
      · have rotated := settled.rotations rotations
        cases exit with
        | fault | null | throttled => exact rotated.cached
        | packet head front affordable enough =>
            intro k busy
            rw [dwrrTransmit_prio]
            apply rotated.cached
            rw [dwrrTransmit_qdisc] at busy
            split at busy
            next same =>
              rw [same, front]
              exact List.cons_ne_nil _ _
            next => exact busy
  | sysctl => exact settled.cached
  | change => exact settled.cached

private theorem settled_initial (prioOf : Fin 8 → Fin 8) {start : Sys} (fresh : Initial start) :
    Settled prioOf start.q := by
  rcases fresh with ⟨rate, initial⟩
  rw [initial]
  exact ⟨linked_dwrrInit _ _, balanced_dwrrInit _ _, fun i busy => absurd rfl busy⟩

end

/-! ### Two qdiscs -/

/-- The second qdisc holds what the first holds in the queues of one priority, in the same
order of service and with the same deficits, and nothing else. -/
structure Alike (prioOf : Fin 8 → Fin 8) (p : Fin 8) (q q' : DwrrSchedData) : Prop where
  active : q'.active p = q.active p
  fifo : ∀ i, prioOf i = p → List.Forall₂ Twin (q.queues i).qdisc (q'.queues i).qdisc
  deficit : ∀ i ∈ q.active p, (q'.queues i).deficit = (q.queues i).deficit
  alone : ∀ i, prioOf i ≠ p → (q'.queues i).qdisc = []

section

variable {prioOf : Fin 8 → Fin 8} {p : Fin 8} {q q' : DwrrSchedData} {params : Params}

/-- The heads of one list in both. -/
theorem Alike.head (alike : Alike prioOf p q q') (settled : Settled prioOf q) {i : Fin 8}
    {ring : List (Fin 8)} (head : q.active p = i :: ring) {skb : Skb} {rest : List Skb}
    (front : (q.queues i).qdisc = skb :: rest) :
    prioOf i = p ∧ (q'.queues i).deficit = (q.queues i).deficit ∧
      ∃ skb' rest', (q'.queues i).qdisc = skb' :: rest' ∧ Twin skb skb' ∧
        List.Forall₂ Twin rest rest' := by
  have member : i ∈ q.active p := by simp [head]
  have own := (settled.mem_iff.mp member).1
  have twins := alike.fifo i own
  rw [front] at twins
  rcases List.forall₂_cons_left_iff.mp twins with ⟨skb', rest', twin, twins, stored⟩
  exact ⟨own, alike.deficit i member, skb', rest', stored, twin, twins⟩

/-- Both rotate the same queue. -/
theorem Alike.rotate (alike : Alike prioOf p q q') {i : Fin 8} {ring : List (Fin 8)}
    (head : q.active p = i :: ring) :
    Alike prioOf p (dwrrRotate params p i q) (dwrrRotate params p i q') := by
  have same := view_rotate params p i q
  have same' := view_rotate params p i q'
  constructor
  · simp only [dwrrRotate_active, Function.update_self, alike.active]
  · intro k own
    rw [qdisc_of_view same, qdisc_of_view same']
    exact alike.fifo k own
  · intro k member
    have before : k ∈ q.active p := by
      rw [dwrrRotate_active, Function.update_self, head, List.erase_cons_head, List.mem_append,
        List.mem_singleton] at member
      rw [head, List.mem_cons]
      exact member.symm
    by_cases here : k = i
    · subst here
      rw [dwrrRotate_deficit, dwrrRotate_deficit, alike.deficit k before]
    · rw [dwrrRotate_deficit_of_ne _ _ _ here, dwrrRotate_deficit_of_ne _ _ _ here]
      exact alike.deficit k before
  · intro k other
    rw [qdisc_of_view same']
    exact alike.alone k other

/-- A rotation of another priority goes unnoticed. -/
theorem Alike.rotate_other (alike : Alike prioOf p q q') (settled : Settled prioOf q)
    {prio i : Fin 8} {ring : List (Fin 8)} (head : q.active prio = i :: ring)
    (other : prio ≠ p) : Alike prioOf p (dwrrRotate params prio i q) q' := by
  have same := view_rotate params prio i q
  have active : (dwrrRotate params prio i q).active p = q.active p := by
    rw [dwrrRotate_active, Function.update_of_ne (Ne.symm other)]
  have absent : i ∉ q.active p := by
    intro member
    have own := (settled.mem_iff.mp (by simp [head] : i ∈ q.active prio)).1
    exact other (own.symm.trans (settled.mem_iff.mp member).1)
  refine ⟨by rw [active]; exact alike.active, fun k own => ?_, fun k member => ?_, alike.alone⟩
  · rw [qdisc_of_view same]
    exact alike.fifo k own
  · rw [active] at member
    rw [dwrrRotate_deficit_of_ne _ _ _ (ne_of_mem_of_not_mem member absent)]
    exact alike.deficit k member

private theorem Alike.rotations_other (alike : Alike prioOf p q q') (settled : Settled prioOf q)
    {prio : Fin 8} {middle : DwrrSchedData} (other : prio ≠ p)
    (rotations : ReflTransGen (Rotates params prio) q middle) : Alike prioOf p middle q' := by
  induction rotations with
  | refl => exact alike
  | tail earlier last inductionHypothesis =>
      cases last with
      | intro head front blocked =>
          exact inductionHypothesis.rotate_other (settled.rotations earlier) head other

/-- Two loops that have come to an affordable head packet each have made the same
rotations. -/
theorem Alike.rotations (alike : Alike prioOf p q q') (settled : Settled prioOf q)
    {middle middle' : DwrrSchedData} (rotations : ReflTransGen (Rotates params p) q middle)
    {i i' : Fin 8} {ring ring' : List (Fin 8)} {skb skb' : Skb} {rest rest' : List Skb}
    (head : middle.active p = i :: ring) (front : (middle.queues i).qdisc = skb :: rest)
    (affordable : skbSize skb ≤ (middle.queues i).deficit)
    (rotations' : ReflTransGen (Rotates params p) q' middle')
    (head' : middle'.active p = i' :: ring') (front' : (middle'.queues i').qdisc = skb' :: rest')
    (affordable' : skbSize skb' ≤ (middle'.queues i').deficit) :
    Alike prioOf p middle middle' := by
  induction rotations using ReflTransGen.head_induction_on generalizing q' with
  | refl =>
      rcases alike.head settled head front with ⟨_, deficit, first, others, stored, twin, _⟩
      have affords : skbSize first ≤ (q'.queues i).deficit := by
        rw [twin.size, deficit]
        exact affordable
      rw [eq_of_rotations (alike.active.trans head) stored affords rotations']
      exact alike
  | @head before after step later inductionHypothesis =>
      cases step with
      | @intro k ring skb rest headNow frontNow blocked =>
          obtain ⟨_, deficit, first, others, stored, twin, _⟩ := alike.head settled headNow frontNow
          have headNow' : q'.active p = k :: ring := alike.active.trans headNow
          rcases ReflTransGen.cases_head rotations' with rfl | ⟨next, first', later'⟩
          · rw [headNow'] at head'
            rcases List.cons.inj head' with ⟨rfl, _⟩
            rw [stored] at front'
            rcases List.cons.inj front' with ⟨rfl, _⟩
            rw [twin.size, deficit] at affordable'
            omega
          · cases first' with
            | intro head'' front'' blocked'' =>
                rw [headNow'] at head''
                rcases List.cons.inj head'' with ⟨rfl, _⟩
                have settledAfter : Settled prioOf (dwrrRotate params p k before) :=
                  settled.rotations (.single (.intro headNow frontNow blocked))
                exact inductionHypothesis (alike.rotate headNow) settledAfter later'

/-- A queue of the priority served is linked at every pass. -/
theorem Settled.stays (settled : Settled prioOf q) {prio i : Fin 8} {middle : DwrrSchedData}
    (rotations : ReflTransGen (Rotates params prio) q middle) (member : i ∈ q.active prio) :
    i ∈ middle.active prio := by
  rw [(settled.rotations rotations).mem_iff, qdisc_of_view (view_of_rotations rotations)]
  exact settled.mem_iff.mp member

/-- Both send the head packet of the same queue. -/
theorem Alike.transmit (alike : Alike prioOf p q q') (settled : Settled prioOf q) {i : Fin 8}
    {ring : List (Fin 8)} (head : q.active p = i :: ring) {skb skb' : Skb} {rest rest' : List Skb}
    (front : (q.queues i).qdisc = skb :: rest) (front' : (q'.queues i).qdisc = skb' :: rest')
    (now now' result result' : Int) :
    Alike prioOf p (dwrrTransmit params now p i skb rest result q).1
      (dwrrTransmit params now' p i skb' rest' result' q').1 := by
  rcases alike.head settled head front with ⟨own, deficit, first, others, stored, twin, twins⟩
  rw [front'] at stored
  rcases List.cons.inj stored with ⟨rfl, rfl⟩
  have ends : rest' = [] ↔ rest = [] := by
    rw [← List.length_eq_zero_iff, ← List.length_eq_zero_iff, twins.length_eq]
  constructor
  · rw [dwrrTransmit_active, dwrrTransmit_active, alike.active]
    by_cases last : rest = []
    · rw [if_pos last, if_pos (ends.mpr last), Function.update_self, Function.update_self]
    · rw [if_neg last, if_neg (mt ends.mp last), alike.active]
  · intro k ownK
    rw [dwrrTransmit_qdisc, dwrrTransmit_qdisc]
    by_cases same : k = i
    · rw [if_pos same, if_pos same]
      exact twins
    · rw [if_neg same, if_neg same]
      exact alike.fifo k ownK
  · intro k member
    have before : k ∈ q.active p := by
      rw [dwrrTransmit_active] at member
      split at member
      · rw [Function.update_self] at member
        exact List.mem_of_mem_erase member
      · exact member
    by_cases same : k = i
    · subst same
      rw [dwrrTransmit_deficit, dwrrTransmit_deficit, deficit, twin.size]
    · rw [dwrrTransmit_deficit_of_ne _ _ _ _ _ _ _ same,
        dwrrTransmit_deficit_of_ne _ _ _ _ _ _ _ same]
      exact alike.deficit k before
  · intro k other
    rw [dwrrTransmit_qdisc, if_neg (ne_of_apply_ne prioOf (by rw [own]; exact other))]
    exact alike.alone k other

/-- A packet sent from another priority goes unnoticed. -/
theorem Alike.transmit_other (alike : Alike prioOf p q q') (settled : Settled prioOf q)
    {prio i : Fin 8} {ring : List (Fin 8)} (head : q.active prio = i :: ring)
    (other : prio ≠ p) (now result : Int) (skb : Skb) (rest : List Skb) :
    Alike prioOf p (dwrrTransmit params now prio i skb rest result q).1 q' := by
  have own : prioOf i = prio := (settled.mem_iff.mp (by simp [head] : i ∈ q.active prio)).1
  have apart : ∀ k, prioOf k = p → k ≠ i := fun k ownK =>
    ne_of_apply_ne prioOf (by rw [own, ownK]; exact other.symm)
  have active : (dwrrTransmit params now prio i skb rest result q).1.active p = q.active p := by
    rw [dwrrTransmit_active]
    split
    · rw [Function.update_of_ne other.symm]
    · rfl
  refine ⟨by rw [active]; exact alike.active, fun k ownK => ?_, fun k member => ?_, alike.alone⟩
  · rw [dwrrTransmit_qdisc, if_neg (apart k ownK)]
    exact alike.fifo k ownK
  · rw [active] at member
    rw [dwrrTransmit_deficit_of_ne _ _ _ _ _ _ _ (apart k (settled.mem_iff.mp member).1)]
    exact alike.deficit k member

/-- Both store the packet in the same queue. -/
theorem Alike.store (alike : Alike prioOf p q q') {i : Fin 8} (own : prioOf i = p)
    (now now' : Int) (skb : Skb) :
    Alike prioOf p (dwrrAdmit params now i p skb q) (dwrrAdmit params now' i p skb q') := by
  rcases dwrrAdmit_twin params now i p skb q with ⟨marked, twin, fifo⟩
  rcases dwrrAdmit_twin params now' i p skb q' with ⟨marked', twin', fifo'⟩
  have idle : (q'.queues i).qdisc = [] ↔ (q.queues i).qdisc = [] := by
    rw [← List.length_eq_zero_iff, ← List.length_eq_zero_iff, (alike.fifo i own).length_eq]
  constructor
  · rw [dwrrAdmit_active, dwrrAdmit_active, alike.active]
    by_cases first : (q.queues i).qdisc = []
    · rw [if_pos first, if_pos (idle.mpr first), Function.update_self, Function.update_self]
    · rw [if_neg first, if_neg (mt idle.mp first), alike.active]
  · intro k ownK
    rw [fifo k, fifo' k]
    apply List.rel_append (alike.fifo k ownK)
    by_cases same : k = i
    · rw [if_pos same, if_pos same]
      exact .cons (twin.symm.trans twin') .nil
    · rw [if_neg same, if_neg same]
      exact .nil
  · intro k member
    rw [dwrrAdmit_deficit, dwrrAdmit_deficit]
    by_cases first : k = i ∧ (q.queues i).qdisc = []
    · rw [if_pos first, if_pos ⟨first.1, idle.mpr first.2⟩]
    · rw [if_neg first, if_neg fun both => first ⟨both.1, idle.mp both.2⟩]
      apply alike.deficit k
      rw [dwrrAdmit_active] at member
      split at member
      next empty =>
        rw [Function.update_self, List.mem_append, List.mem_singleton] at member
        exact member.resolve_right fun same => first ⟨same, empty⟩
      next => exact member
  · intro k other
    rw [fifo' k, alike.alone k other, List.nil_append,
      if_neg (ne_of_apply_ne prioOf (by rw [own]; exact other))]

/-- A packet stored in a queue of another priority goes unnoticed. -/
theorem Alike.store_other (alike : Alike prioOf p q q') (settled : Settled prioOf q) {i : Fin 8}
    (other : prioOf i ≠ p) (now : Int) (skb : Skb) :
    Alike prioOf p (dwrrAdmit params now i (prioOf i) skb q) q' := by
  rcases dwrrAdmit_twin params now i (prioOf i) skb q with ⟨marked, _, fifo⟩
  have apart : ∀ k, prioOf k = p → k ≠ i := fun k ownK =>
    ne_of_apply_ne prioOf (by rw [ownK]; exact other.symm)
  have active : (dwrrAdmit params now i (prioOf i) skb q).active p = q.active p := by
    rw [dwrrAdmit_active]
    split
    · rw [Function.update_of_ne other.symm]
    · rfl
  refine ⟨by rw [active]; exact alike.active, fun k ownK => ?_, fun k member => ?_, alike.alone⟩
  · rw [fifo k, if_neg (apart k ownK), List.append_nil]
    exact alike.fifo k ownK
  · rw [active] at member
    rw [dwrrAdmit_deficit, if_neg fun both => apart k (settled.mem_iff.mp member).1 both.1]
    exact alike.deficit k member

/-- The second qdisc holds no more bytes than the first. -/
theorem Alike.sumLenBytes_le (alike : Alike prioOf p q q') (settled : Settled prioOf q)
    (settled' : Settled prioOf q') : q'.sumLenBytes ≤ q.sumLenBytes := by
  have sum : q.sumLenBytes = _ := settled.balanced.sumLenBytes
  have sum' : q'.sumLenBytes = _ := settled'.balanced.sumLenBytes
  rw [sum, sum']
  apply sum_le_sum
  intro i _
  rw [settled.balanced.lenBytes i, settled'.balanced.lenBytes i]
  show storedBytes (q'.queues i).qdisc ≤ storedBytes (q.queues i).qdisc
  by_cases own : prioOf i = p
  · exact (storedBytes_eq_of_twins (alike.fifo i own)).le
  · rw [alike.alone i own]
    exact Nat.zero_le _

/-- A packet the buffer of the first has room for fits in that of the second. -/
theorem Alike.fits (alike : Alike prioOf p q q') (settled : Settled prioOf q)
    (settled' : Settled prioOf q') {i : Fin 8} (own : prioOf i = p) {skb : Skb}
    (room : backlog (q.queues i).qdisc + skb.len ≤ maxBufferBytes)
    (fits : dwrrBufferOverfill params (skbSize skb) i q = false) :
    dwrrBufferOverfill params (skbSize skb) i q' = false := by
  have exact : Ledger.Balanced.Entered (view q) i p skb := settled.balanced.enter_exact p room
  have sum : u32 (q.sumLenBytes + skbSize skb) = q.sumLenBytes + skbSize skb := exact.sumLenBytes
  have bound : u32 (q'.sumLenBytes + skbSize skb) ≤ u32 (q.sumLenBytes + skbSize skb) := by
    have below := alike.sumLenBytes_le settled settled'
    rw [sum]
    exact (Nat.mod_le _ _).trans (by omega)
  have same : (q'.queues i).lenBytes = (q.queues i).lenBytes :=
    (settled'.balanced.lenBytes i).trans
      ((storedBytes_eq_of_twins (alike.fifo i own)).trans (settled.balanced.lenBytes i).symm)
  unfold dwrrBufferOverfill at fits ⊢
  rw [same]
  split at fits
  · cases fits
  next shared =>
    rw [if_neg fun both => shared ⟨both.1, both.2.trans_le bound⟩]
    exact fits

/-- Nothing is linked in a priority the second qdisc does not serve. -/
theorem Alike.prioSchedule (alike : Alike prioOf p q q') (settled' : Settled prioOf q')
    {prio : Fin 8} (selected : Dwrr.prioSchedule q' = some prio) :
    prio = p := by
  by_contra other
  rcases List.exists_mem_of_ne_nil _ (prioSchedule_eq_some selected).1 with ⟨i, member⟩
  rcases settled'.mem_iff.mp member with ⟨own, stored⟩
  exact stored (alike.alone i (by rw [own]; exact other))

end

/-! ### Two runs -/

/-- An event in which no packet is lost and the bucket is not in the way. -/
def Proceeds : Event Param → Prop
  | .enqueue _ _ ret => ret = .success
  | .dequeue _ outcome => ∀ expires, outcome ≠ .throttled expires
  | _ => True

/-- A step with constant queue priorities that proceeds. -/
def Smooth (bfifo : Bfifo) (prioOf : Fin 8 → Fin 8) (s : Sys) (event : Event Param) (s' : Sys) :
    Prop :=
  Step bfifo s event s' ∧ PrioFixed prioOf s ∧ PrioFixed prioOf s' ∧ Proceeds event

/-- A step that is no throttled dequeue. -/
def Unthrottled (bfifo : Bfifo) (s : Sys) (event : Event Param) (s' : Sys) : Prop :=
  Step bfifo s event s' ∧ ∀ now expires, event ≠ .dequeue now (.throttled expires)

/-- The events the re-run of priority `p` repeats: the enqueues of its packets, the dequeues
that served it, and all configuration. -/
def Concerns (prioOf : Fin 8 → Fin 8) (p : Fin 8) (s : Sys) : Event Param → Prop
  | .enqueue _ skb _ => prioOf (dwrrClassify s.params skb) = p
  | .dequeue _ (.packet i _) => prioOf i = p
  | .dequeue _ _ => False
  | _ => True

/-- The same operation, at any time and with any answer. -/
def Repeats : Event Param → Event Param → Prop
  | .enqueue _ skb _, .enqueue _ skb' _ => skb' = skb
  | .dequeue _ _, .dequeue _ _ => True
  | .sysctl param value, .sysctl param' value' => param' = param ∧ value' = value
  | .change rate, .change rate' => rate' = rate
  | _, _ => False

/-- The packet an event dequeued, with its queue. -/
def sentPacket : Event Param → Option (Fin 8 × Skb)
  | .dequeue _ (.packet i skb) => some (i, skb)
  | _ => none

/-- The packet an event dequeued from a queue of priority `p`. -/
def sentAt (prioOf : Fin 8 → Fin 8) (p : Fin 8) (event : Event Param) : Option (Fin 8 × Skb) :=
  (sentPacket event).filter fun sent => prioOf sent.1 = p

/-- The same packet of the same queue. -/
def SameService (sent sent' : Fin 8 × Skb) : Prop := sent'.1 = sent.1 ∧ Twin sent.2 sent'.2

/-- What relates the states of the run to those of the re-run. -/
structure Mirrors (prioOf : Fin 8 → Fin 8) (p : Fin 8) (s s' : Sys) : Prop where
  settled : Settled prioOf s.q
  settled' : Settled prioOf s'.q
  alike : Alike prioOf p s.q s'.q
  params : s'.params = s.params

section

variable {prioOf : Fin 8 → Fin 8} {p : Fin 8} {bfifo : Bfifo} {s s' t t' : Sys}

/-- A dequeue that returns a packet returns one of the first busy priority, after rotations of
that priority. -/
theorem Settled.dequeue {params : Params} {now : Int} {fuel : Nat} {q q' : DwrrSchedData}
    {i : Fin 8} {returned : Skb} (settled : Settled prioOf q)
    (returns : dwrrDequeue params now fuel q = some (q', .packet i returned)) :
    ∃ middle ring skb rest result, prioSchedule q = some (prioOf i) ∧
      ReflTransGen (Rotates params (prioOf i)) q middle ∧ middle.active (prioOf i) = i :: ring ∧
      (middle.queues i).qdisc = skb :: rest ∧ skbSize skb ≤ (middle.queues i).deficit ∧
      q' = (dwrrTransmit params now (prioOf i) i skb rest result middle).1 ∧
      MarkedFrom skb returned := by
  rcases dwrrDequeue_cases returns with ⟨_, _, impossible⟩ |
    ⟨prio, middle, selected, rotations, exit⟩
  · cases impossible
  · cases exit with
    | @packet i ring skb rest head front affordable enough =>
        have own := ((settled.rotations rotations).mem_iff.mp
          (by simp [head] : i ∈ middle.active prio)).1
        subst own
        exact ⟨middle, ring, skb, rest, _, selected, rotations, head, front, affordable, rfl,
          dwrrTransmit_markedFrom _ _ _ _ _ _ _ _⟩

/-- Where a queue is linked, a dequeue that is not throttled returns a packet. -/
theorem Settled.answers {params : Params} {now : Int} {fuel : Nat} {q q' : DwrrSchedData}
    {outcome : Dequeued} (settled : Settled prioOf q)
    (returns : dwrrDequeue params now fuel q = some (q', outcome))
    (busy : ∃ i, (q.queues i).qdisc ≠ []) (unthrottled : ∀ expires, outcome ≠ .throttled expires) :
    ∃ i returned, outcome = .packet i returned := by
  have conserving := workConserving settled.linked returns
  cases outcome with
  | fault => exact conserving.elim
  | null =>
      rcases busy with ⟨i, stored⟩
      exact absurd (conserving i) stored
  | throttled expires => exact absurd rfl (unthrottled expires)
  | packet i returned => exact ⟨i, returned, rfl⟩

/-- Both enqueue the packet in the same queue. -/
theorem Mirrors.enqueue (mirrors : Mirrors prioOf p s t) (bounded : bfifo.Bounded)
    (lengths : bfifo.CountsLengths) (fixed : PrioFixed prioOf s) {now now' : Int} {skb : Skb}
    {q q' : DwrrSchedData} {ret' : NetXmit}
    (returns : dwrrEnqueue bfifo s.params now skb s.q = (q, .success))
    (returns' : dwrrEnqueue bfifo t.params now' skb t.q = (q', ret'))
    (own : prioOf (dwrrClassify s.params skb) = p) :
    ret' = .success ∧ Alike prioOf p q q' := by
  rw [mirrors.params] at returns'
  have accepted := dwrrEnqueue_ret returns
  have ret := dwrrEnqueue_ret returns'
  split at accepted
  · cases accepted
  next fits =>
    have room := bounded _ _ accepted.symm
    rw [mirrors.alike.fits mirrors.settled mirrors.settled' own room (by simpa using fits),
      if_neg (by decide), lengths _ _ _ (lens_eq_of_twins (mirrors.alike.fifo _ own)),
      ← accepted] at ret
    refine ⟨ret, ?_⟩
    rcases dwrrEnqueue_cases returns with ⟨roundTime, ⟨refused, _⟩ | ⟨_, _, rfl⟩⟩
    · exact absurd rfl refused
    · rcases dwrrEnqueue_cases returns' with ⟨roundTime', ⟨refused, _⟩ | ⟨_, _, rfl⟩⟩
      · exact absurd ret refused
      · have reset : Alike prioOf p { s.q with roundTime } { t.q with roundTime := roundTime' } :=
          ⟨mirrors.alike.active, mirrors.alike.fifo, mirrors.alike.deficit, mirrors.alike.alone⟩
        rw [fixed, own]
        exact reset.store own now now' skb

/-- Both dequeue the same packet. -/
theorem Mirrors.dequeue (mirrors : Mirrors prioOf p s t) {now now' : Int} {fuel fuel' : Nat}
    {q q' : DwrrSchedData} {i : Fin 8} {skb : Skb} {outcome' : Dequeued}
    (returns : dwrrDequeue s.params now fuel s.q = some (q, .packet i skb))
    (returns' : dwrrDequeue t.params now' fuel' t.q = some (q', outcome'))
    (own : prioOf i = p) (unthrottled : ∀ expires, outcome' ≠ .throttled expires) :
    Alike prioOf p q q' ∧ ∃ skb', outcome' = .packet i skb' ∧ Twin skb skb' := by
  rw [mirrors.params] at returns'
  obtain ⟨middle, ring, head, rest, result, _, rotations, isHead, front, affordable, rfl, marked⟩ :=
    mirrors.settled.dequeue returns
  subst own
  have rotated := mirrors.settled.rotations rotations
  have stored : (s.q.queues i).qdisc = head :: rest := by
    rw [← qdisc_of_view (view_of_rotations rotations), front]
  have busy : ∃ k, (t.q.queues k).qdisc ≠ [] := by
    have twins := mirrors.alike.fifo i rfl
    rw [stored] at twins
    rcases List.forall₂_cons_left_iff.mp twins with ⟨first, others, _, _, stored'⟩
    exact ⟨i, by simp [stored']⟩
  rcases mirrors.settled'.answers returns' busy unthrottled with ⟨i', skb', rfl⟩
  obtain ⟨middle', ring', head', rest', result', selected', rotations', isHead', front',
    affordable', rfl, marked'⟩ := mirrors.settled'.dequeue returns'
  rw [mirrors.alike.prioSchedule mirrors.settled' selected'] at rotations' isHead' ⊢
  have alike := mirrors.alike.rotations mirrors.settled rotations isHead front affordable rotations'
    isHead' front' affordable'
  rw [alike.active, isHead] at isHead'
  rcases List.cons.inj isHead' with ⟨rfl, _⟩
  rcases alike.head rotated isHead front with ⟨_, _, first, others, stored', twin, _⟩
  rw [front'] at stored'
  rcases List.cons.inj stored' with ⟨rfl, _⟩
  refine ⟨alike.transmit rotated isHead front front' now now' result result', skb', rfl, ?_⟩
  exact ((twin_of_markedFrom marked).symm.trans twin).trans (twin_of_markedFrom marked')

/-- A pair of repeated steps keeps the two alike and serves the same packet. -/
theorem Mirrors.repeated (bounded : bfifo.Bounded) (lengths : bfifo.CountsLengths)
    {event event' : Event Param} (step : Smooth bfifo prioOf s event s')
    (step' : Unthrottled bfifo t event' t') (kept : Concerns prioOf p s event)
    (again : Repeats event event') (mirrors : Mirrors prioOf p s t) :
    Mirrors prioOf p s' t' ∧
      Option.Rel SameService (sentAt prioOf p event) (sentPacket event') ∧ Proceeds event' := by
  rcases step with ⟨step, fixed, _, proceeds⟩
  rcases step' with ⟨step', unthrottled⟩
  have fixed' : PrioFixed prioOf t := by
    intro i
    rw [mirrors.params]
    exact fixed i
  have settled := mirrors.settled.step bounded step fixed
  have settled' := mirrors.settled'.step bounded step' fixed'
  cases step with
  | enqueue later returns =>
      cases step' with
      | enqueue later' returns' =>
          cases proceeds
          cases again
          obtain ⟨success, alike⟩ :=
            mirrors.enqueue bounded lengths fixed returns returns' kept
          exact ⟨⟨settled, settled', alike, mirrors.params⟩, .none, success⟩
      | dequeue | sysctl | change => exact again.elim
  | @dequeue now fuel q outcome later returns =>
      cases step' with
      | @dequeue now' fuel' q' outcome' later' returns' =>
          cases outcome with
          | null | throttled | fault => exact kept.elim
          | packet i skb =>
              have open' : ∀ expires, outcome' ≠ .throttled expires := fun expires same =>
                unthrottled now' expires (by rw [same])
              rcases mirrors.dequeue returns returns' kept open' with ⟨alike, skb', rfl, twin⟩
              refine ⟨⟨settled, settled', alike, mirrors.params⟩, ?_, open'⟩
              have emitted : sentAt prioOf p (.dequeue now (.packet i skb)) = some (i, skb) := by
                have own : prioOf i = p := kept
                simp [sentAt, sentPacket, own]
              rw [emitted]
              exact .some ⟨rfl, twin⟩
      | enqueue | sysctl | change => exact again.elim
  | sysctl param value =>
      cases step' with
      | sysctl param' value' =>
          rcases again with ⟨rfl, rfl⟩
          exact ⟨⟨settled, settled', mirrors.alike, by rw [mirrors.params]⟩, .none, trivial⟩
      | enqueue | dequeue | change => exact again.elim
  | change rate =>
      cases step' with
      | change rate' =>
          have alike := mirrors.alike
          exact ⟨⟨settled, settled', ⟨alike.active, alike.fifo, alike.deficit, alike.alone⟩,
            mirrors.params⟩, .none, trivial⟩
      | enqueue | dequeue | sysctl => exact again.elim

/-- A step that concerns another priority leaves the two alike and serves no packet of `p`. -/
theorem Mirrors.skipped (bounded : bfifo.Bounded) {event : Event Param}
    (step : Smooth bfifo prioOf s event s') (left : ¬Concerns prioOf p s event)
    (mirrors : Mirrors prioOf p s t) :
    Mirrors prioOf p s' t ∧ sentAt prioOf p event = none := by
  rcases step with ⟨step, fixed, _, proceeds⟩
  have settled := mirrors.settled.step bounded step fixed
  have alike := mirrors.alike
  cases step with
  | @enqueue now skb q ret later returns =>
      rcases dwrrEnqueue_cases returns with ⟨roundTime, ⟨_, rfl⟩ | ⟨_, _, rfl⟩⟩
      · exact ⟨⟨settled, mirrors.settled', ⟨alike.active, alike.fifo, alike.deficit, alike.alone⟩,
          mirrors.params⟩, rfl⟩
      · have reset : Alike prioOf p { s.q with roundTime } t.q :=
          ⟨alike.active, alike.fifo, alike.deficit, alike.alone⟩
        have settledReset : Settled prioOf { s.q with roundTime } :=
          ⟨mirrors.settled.linked, mirrors.settled.balanced, mirrors.settled.cached⟩
        refine ⟨⟨settled, mirrors.settled', ?_, mirrors.params⟩, rfl⟩
        show Alike prioOf p (dwrrAdmit _ _ _ (s.params.queuePrio _) _ _) t.q
        rw [fixed]
        exact reset.store_other settledReset left now skb
  | @dequeue now fuel q outcome later returns =>
      rcases dwrrDequeue_cases returns with ⟨_, rfl, rfl⟩ |
        ⟨prio, middle, selected, rotations, exit⟩
      · exact ⟨⟨settled, mirrors.settled', alike, mirrors.params⟩, rfl⟩
      · have rotated := mirrors.settled.rotations rotations
        cases exit with
        | fault empty =>
            rcases List.exists_mem_of_ne_nil _ (prioSchedule_eq_some selected).1 with ⟨i, member⟩
            have stays := mirrors.settled.stays rotations member
            rw [empty] at stays
            exact absurd stays List.not_mem_nil
        | null head empty => exact absurd empty (rotated.linked.head head).2
        | throttled => exact absurd rfl (proceeds _)
        | @packet i ring skb rest head front affordable enough =>
            have own := (rotated.mem_iff.mp (by simp [head] : i ∈ middle.active prio)).1
            have other : prio ≠ p := by
              intro same
              exact left (own.trans same)
            have unseen : Alike prioOf p
                (dwrrTransmit s.params now prio i skb rest
                  (tbfSchedule s.params (skbSize skb) middle now) middle).1 t.q :=
              (alike.rotations_other mirrors.settled other rotations).transmit_other rotated head
                other now _ skb rest
            refine ⟨⟨settled, mirrors.settled', unseen, mirrors.params⟩, ?_⟩
            have apart : prioOf i ≠ p := left
            simp [sentAt, sentPacket, apart]
  | sysctl => exact absurd trivial left
  | change => exact absurd trivial left

private theorem mirrors_initial {start start' : Sys} (fresh : Initial start)
    (fresh' : Initial start') (params : start'.params = start.params) :
    Mirrors prioOf p start start' := by
  refine ⟨settled_initial prioOf fresh, settled_initial prioOf fresh', ?_, params⟩
  rcases fresh with ⟨_, initial⟩
  rcases fresh' with ⟨_, initial'⟩
  rw [initial, initial']
  exact ⟨rfl, fun _ _ => .nil, fun _ _ => rfl, fun _ _ => rfl⟩

end

/-- **Isolation.** Take a run with constant queue priorities in which no packet is dropped and
no dequeue is throttled, and re-run from a fresh qdisc, at any times, the enqueues of the
packets of priority `p`, the dequeues that served it and the configuration. If no dequeue of
the re-run is throttled either, it drops no packet and sends the packets the run sends from
the queues of priority `p`, in the same order. -/
theorem priority_isolated {bfifo : Bfifo} (bounded : bfifo.Bounded)
    (lengths : bfifo.CountsLengths) {prioOf : Fin 8 → Fin 8} {p : Fin 8}
    {start start' last last' : Sys} {events events' : List (Event Param)} (fresh : Initial start)
    (fresh' : Initial start') (params : start'.params = start.params)
    (rerun : Rerun (Smooth bfifo prioOf) (Unthrottled bfifo) (Concerns prioOf p) Repeats start
      start' events events' last last') :
    List.Forall₂ SameService (events.filterMap (sentAt prioOf p)) (events'.filterMap sentPacket) ∧
      ∀ now skb ret, .enqueue now skb ret ∈ events' → ret = .success := by
  have related := rerun.related (Mirrors prioOf p) (sentAt prioOf p) sentPacket SameService Proceeds
    (mirrors_initial fresh fresh' params)
    (fun step step' kept again mirrors => mirrors.repeated bounded lengths step step' kept again)
    (fun step left mirrors => mirrors.skipped bounded step left)
  exact ⟨related.2.1, fun now skb ret member => related.2.2 _ member⟩

/-! ### The token bucket -/

/-- Queue 1 has priority 1, the others priority 0. -/
def twoLevels : Fin 8 → Fin 8 := fun i => if i = 1 then 1 else 0

/-- A fresh qdisc at 1 Gbit/s with these priorities. -/
def levels : Sys := ⟨paramsInit.write (.queuePrio 1) 1, dwrrInit 0 125000000, 0⟩

private theorem levels_fixed {s : Sys} (same : s.params = levels.params) :
    PrioFixed twoLevels s := by
  intro i
  rw [same]
  revert i
  decide

/-- The state after a dequeue at `now`. -/
def Sys.dequeue (s : Sys) (now : Int) : Sys :=
  ⟨s.params, ((dwrrDequeue s.params now 8 s.q).map Prod.fst).getD s.q, now⟩

theorem Sys.dequeue_step {s : Sys} {now : Int} {outcome : Dequeued} (later : s.clock ≤ now)
    (returns : (dwrrDequeue s.params now 8 s.q).map Prod.snd = some outcome) :
    Step byteLimit s (.dequeue now outcome) (s.dequeue now) := by
  rcases Option.map_eq_some_iff.mp returns with ⟨⟨q', _⟩, answer, rfl⟩
  have step : Step byteLimit s _ ⟨s.params, q', now⟩ := .dequeue later answer
  unfold Sys.dequeue
  rw [answer]
  exact step

/-- A packet in queue 1 that takes longer to send than the bucket is deep. -/
def largePacket : Skb := ⟨3000, some 4, 0, .ect0, by decide, by decide⟩

/-- A frame of priority 0 and a packet of priority 1, sent one after the other. -/
def bothLevels (skb : Skb) : List (Event Param) :=
  [.enqueue 0 shortFrame .success, .enqueue 0 skb .success,
    .dequeue 100000 (.packet 0 shortFrame), .dequeue 200000 (.packet 1 skb)]

/-- What concerns priority 1 of it. -/
def lowerLevel (skb : Skb) (outcome : Dequeued) : List (Event Param) :=
  [.enqueue 0 skb .success, .dequeue 200000 outcome]

/-- The second list repeats the part of the first that concerns priority 1, where the qdisc
answers as they say. -/
theorem bothLevels_rerun {step' : Sys → Event Param → Sys → Prop} {skb : Skb} {outcome : Dequeued}
    (own : dwrrClassify levels.params skb = 1)
    (stored : (dwrrEnqueue byteLimit levels.params 0 skb (levels.enqueue 0 shortFrame).q).2 =
      .success)
    (small : (dwrrDequeue levels.params 100000 8
      ((levels.enqueue 0 shortFrame).enqueue 0 skb).q).map Prod.snd =
        some (.packet 0 shortFrame))
    (sent : (dwrrDequeue levels.params 200000 8
      (((levels.enqueue 0 shortFrame).enqueue 0 skb).dequeue 100000).q).map Prod.snd =
        some (.packet 1 skb))
    (stored' : step' levels (.enqueue 0 skb .success) (levels.enqueue 0 skb))
    (answer' : step' (levels.enqueue 0 skb) (.dequeue 200000 outcome)
      ((levels.enqueue 0 skb).dequeue 200000)) :
    ∃ last last', Rerun (Smooth byteLimit twoLevels) step' (Concerns twoLevels 1) Repeats levels
      levels (bothLevels skb) (lowerLevel skb outcome) last last' := by
  have smooth : ∀ {s s' : Sys} {event : Event Param}, s.params = levels.params →
      s'.params = levels.params → Step byteLimit s event s' → Proceeds event →
      Smooth byteLimit twoLevels s event s' :=
    fun same same' step proceeds => ⟨step, levels_fixed same, levels_fixed same', proceeds⟩
  have first : Smooth byteLimit twoLevels levels (.enqueue 0 shortFrame .success)
      (levels.enqueue 0 shortFrame) :=
    smooth rfl rfl (Sys.enqueue_step le_rfl (by decide)) rfl
  have second : Smooth byteLimit twoLevels (levels.enqueue 0 shortFrame) (.enqueue 0 skb .success)
      ((levels.enqueue 0 shortFrame).enqueue 0 skb) :=
    smooth rfl rfl (Sys.enqueue_step (le_refl (0 : Int)) stored) rfl
  have third : Smooth byteLimit twoLevels ((levels.enqueue 0 shortFrame).enqueue 0 skb)
      (.dequeue 100000 (.packet 0 shortFrame))
      (((levels.enqueue 0 shortFrame).enqueue 0 skb).dequeue 100000) :=
    smooth rfl rfl (Sys.dequeue_step (by decide : (0 : Int) ≤ 100000) small) nofun
  have fourth : Smooth byteLimit twoLevels
      (((levels.enqueue 0 shortFrame).enqueue 0 skb).dequeue 100000)
      (.dequeue 200000 (.packet 1 skb))
      ((((levels.enqueue 0 shortFrame).enqueue 0 skb).dequeue 100000).dequeue 200000) :=
    smooth rfl rfl (Sys.dequeue_step (by decide : (100000 : Int) ≤ 200000) sent) nofun
  have other : ¬Concerns twoLevels 1 levels (.enqueue 0 shortFrame .success) := by
    show ¬twoLevels (dwrrClassify levels.params shortFrame) = 1
    decide
  have kept : Concerns twoLevels 1 (levels.enqueue 0 shortFrame) (.enqueue 0 skb .success) := by
    show twoLevels (dwrrClassify levels.params skb) = 1
    rw [own]
    rfl
  have otherSent : ¬twoLevels 0 = 1 := by decide
  have keptSent : twoLevels 1 = 1 := rfl
  exact ⟨_, _, .skip first other (.both second stored' kept rfl
    (.skip third otherSent (.both fourth answer' keptSent trivial (.nil _ _))))⟩

/-- Alone, the large packet is never sent. -/
theorem largePacket_not_sendable : ¬Sendable (levels.enqueue 0 largePacket) := by
  have active : (levels.enqueue 0 largePacket).q.active 1 = [1] := by decide
  have stored : ((levels.enqueue 0 largePacket).q.queues 1).qdisc = [largePacket] := by decide
  have rotation : Rotates (levels.enqueue 0 largePacket).params 1 (levels.enqueue 0 largePacket).q
      (dwrrRotate (levels.enqueue 0 largePacket).params 1 1 (levels.enqueue 0 largePacket).q) :=
    .intro active stored (by decide)
  have selected : Selected (levels.enqueue 0 largePacket).params (levels.enqueue 0 largePacket).q 1
      largePacket :=
    ⟨1, _, [], [], by decide, .single rotation, by decide, stored, by decide⟩
  rw [selected.sendable_iff]
  decide

/-- The priorities share the bucket: priority 1 sends a packet with the tokens that a packet
of priority 0 left over, and alone waits for them for ever. -/
theorem spareTokens_observed :
    (∃ last last', Rerun (Smooth byteLimit twoLevels) (Step byteLimit) (Concerns twoLevels 1)
      Repeats levels levels (bothLevels largePacket)
      (lowerLevel largePacket (.throttled 204192)) last last') ∧
      Initial levels ∧
      (bothLevels largePacket).filterMap (sentAt twoLevels 1) = [(1, largePacket)] ∧
      (lowerLevel largePacket (.throttled 204192)).filterMap sentPacket = [] ∧
      ¬Sendable (levels.enqueue 0 largePacket) :=
  ⟨bothLevels_rerun (by decide) (by decide) (by decide) (by decide)
    (Sys.enqueue_step le_rfl (by decide)) (Sys.dequeue_step (by decide) (by decide)),
    ⟨_, rfl⟩, by decide, rfl, largePacket_not_sendable⟩

/-- Frames the bucket covers are sent alone as well. -/
theorem fullFrames_isolated :
    List.Forall₂ SameService ((bothLevels (fullFrame 4)).filterMap (sentAt twoLevels 1))
      ((lowerLevel (fullFrame 4) (.packet 1 (fullFrame 4))).filterMap sentPacket) := by
  have rerun : ∃ last last', Rerun (Smooth byteLimit twoLevels) (Unthrottled byteLimit)
      (Concerns twoLevels 1) Repeats levels levels (bothLevels (fullFrame 4))
      (lowerLevel (fullFrame 4) (.packet 1 (fullFrame 4))) last last' :=
    bothLevels_rerun (by decide) (by decide) (by decide) (by decide)
      ⟨Sys.enqueue_step le_rfl (by decide), fun _ _ same => by cases same⟩
      ⟨Sys.dequeue_step (by decide) (by decide), fun _ _ same => by cases same⟩
  rcases rerun with ⟨last, last', rerun⟩
  exact (priority_isolated byteLimit_bounded byteLimit_countsLengths ⟨_, rfl⟩ ⟨_, rfl⟩ rfl rerun).1

end MqEcn.Kernel.Dwrr
