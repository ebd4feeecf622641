import MqEcn.Kernel.Qdisc
import MqEcn.Library.Accounting

/-!
Contract: the occupancy counters both schedulers keep.

Owns: the view of a qdisc that its counters account for (a priority, a byte count
and a FIFO a queue; a byte count a priority; a total; a packet count), what
storing and removing a packet does to it, the invariant that every counter is the
sum it stands for, and the exactness of every 32-bit update under that invariant.

Does not own: when a packet is stored or removed. Each scheduler shows that its
operations are these on its own view.
-/

set_option autoImplicit false

namespace MqEcn.Kernel

open Finset
open MqEcn.Library
open MqEcn.Library.Word

/-- What one queue contributes to the counters. -/
structure Account where
  prio : Fin 8
  lenBytes : Nat
  fifo : List Skb

/-- Bytes the queue contributes to priority `prio`. -/
def Account.heldAt (prio : Fin 8) (account : Account) : Nat :=
  if account.prio = prio then account.lenBytes else 0

/-- The queues and the counters over them. -/
structure Ledger where
  queues : Fin 8 → Account
  prioLenBytes : Fin 8 → Nat
  sumLenBytes : Nat
  qlen : Nat

namespace Ledger

/-- The priority a packet is counted under: the configured one where the queue was
empty, else the one the queue has. -/
def entryPrio (ledger : Ledger) (i configured : Fin 8) : Fin 8 :=
  if (ledger.queues i).fifo = [] then configured else (ledger.queues i).prio

/-- Storing a packet at the tail of queue `i`. -/
def enter (ledger : Ledger) (i configured : Fin 8) (skb : Skb) : Ledger :=
  let len := skbSize skb
  let account := ledger.queues i
  let prio := ledger.entryPrio i configured
  { queues :=
      Function.update ledger.queues i
        ⟨prio, u32 (account.lenBytes + len), account.fifo ++ [skb]⟩
    prioLenBytes :=
      Function.update ledger.prioLenBytes prio (u32 (ledger.prioLenBytes prio + len))
    sumLenBytes := u32 (ledger.sumLenBytes + len)
    qlen := u32 (ledger.qlen + 1) }

/-- Removing the head `skb` of queue `i`, which leaves `rest`. -/
def depart (ledger : Ledger) (prio i : Fin 8) (skb : Skb) (rest : List Skb) : Ledger :=
  let len := skbSize skb
  let account := ledger.queues i
  { queues :=
      Function.update ledger.queues i
        { account with lenBytes := u32Sub account.lenBytes len, fifo := rest }
    prioLenBytes :=
      Function.update ledger.prioLenBytes prio (u32Sub (ledger.prioLenBytes prio) len)
    sumLenBytes := u32Sub ledger.sumLenBytes len
    qlen := u32Sub ledger.qlen 1 }

/-- Storing a packet appends it to one FIFO. -/
theorem enter_fifo (ledger : Ledger) (i configured : Fin 8) (skb : Skb) (k : Fin 8) :
    ((ledger.enter i configured skb).queues k).fifo =
      (ledger.queues k).fifo ++ if k = i then [skb] else [] := by
  by_cases same : k = i
  · subst same
    simp [enter]
  · simp [enter, same]

/-- Removing a head takes it from one FIFO. -/
theorem depart_fifo (ledger : Ledger) (prio i : Fin 8) (skb : Skb) (rest : List Skb) (k : Fin 8) :
    ((ledger.depart prio i skb rest).queues k).fifo =
      if k = i then rest else (ledger.queues k).fifo := by
  by_cases same : k = i
  · subst same
    simp [depart]
  · simp [depart, same]

/-- Every counter is the sum it stands for, and no FIFO is above its limit. -/
structure Balanced (ledger : Ledger) : Prop where
  within : ∀ i, backlog (ledger.queues i).fifo ≤ maxBufferBytes
  lenBytes : ∀ i, (ledger.queues i).lenBytes = storedBytes (ledger.queues i).fifo
  prioLenBytes : ∀ prio, ledger.prioLenBytes prio = ∑ i, (ledger.queues i).heldAt prio
  sumLenBytes : ledger.sumLenBytes = ∑ i, (ledger.queues i).lenBytes
  qlen : ledger.qlen = ∑ i, (ledger.queues i).fifo.length

/-- A ledger with nothing stored and every counter zero is balanced. -/
theorem balanced_of_empty {ledger : Ledger} (fifo : ∀ i, (ledger.queues i).fifo = [])
    (lenBytes : ∀ i, (ledger.queues i).lenBytes = 0)
    (prioLenBytes : ∀ prio, ledger.prioLenBytes prio = 0)
    (sumLenBytes : ledger.sumLenBytes = 0) (qlen : ledger.qlen = 0) : Balanced ledger where
  within := fun i => by simp [fifo i, backlog]
  lenBytes := fun i => by simp [fifo i, lenBytes i]
  prioLenBytes := fun prio => by
    rw [prioLenBytes prio, eq_comm]
    apply sum_eq_zero
    intro i _
    unfold Account.heldAt
    rw [lenBytes i, ite_self]
  sumLenBytes := by simp [sumLenBytes, lenBytes]
  qlen := by simp [qlen, fifo]

/-! ### Bounds -/

/-- The most bytes one queue can be accounted with. -/
def accountLimit : Nat := 84 * maxBufferBytes

private theorem storedBytes_le_accountLimit {fifo : List Skb}
    (within : backlog fifo ≤ maxBufferBytes) :
    storedBytes fifo ≤ accountLimit := by
  have bytes := storedBytes_le_backlog within
  unfold accountLimit
  omega

private theorem heldAt_le (prio : Fin 8) (account : Account) :
    account.heldAt prio ≤ account.lenBytes := by
  unfold Account.heldAt
  split <;> omega

/-- A total over the eight queues stays far below `2 ^ 32`. -/
theorem total_lt (measure : Account → Nat) {queues : Fin 8 → Account}
    (each : ∀ i, measure (queues i) ≤ accountLimit) :
    ∑ i, measure (queues i) < 2 ^ 32 := by
  have total := Accounting.total_le_card_mul each
  simp only [Fintype.card_fin, accountLimit, maxBufferBytes] at total
  omega

namespace Balanced

variable {ledger : Ledger}

theorem lenBytes_le (balanced : Balanced ledger) (i : Fin 8) :
    (ledger.queues i).lenBytes ≤ accountLimit := by
  rw [balanced.lenBytes i]
  exact storedBytes_le_accountLimit (balanced.within i)

theorem prioLenBytes_lt (balanced : Balanced ledger) (prio : Fin 8) :
    ledger.prioLenBytes prio < 2 ^ 32 := by
  rw [balanced.prioLenBytes prio]
  exact total_lt _ fun i => (heldAt_le prio _).trans (balanced.lenBytes_le i)

theorem sumLenBytes_lt (balanced : Balanced ledger) : ledger.sumLenBytes < 2 ^ 32 := by
  rw [balanced.sumLenBytes]
  exact total_lt _ fun i => balanced.lenBytes_le i

theorem lenBytes_lt (balanced : Balanced ledger) (i : Fin 8) :
    (ledger.queues i).lenBytes < 2 ^ 32 := by
  have bound := balanced.lenBytes_le i
  unfold accountLimit maxBufferBytes at bound
  omega

/-- Packets are not empty, so their number is bounded like their bytes. -/
theorem qlen_le (balanced : Balanced ledger) : ledger.qlen ≤ 8 * maxBufferBytes := by
  rw [balanced.qlen]
  exact Accounting.total_le_card_mul fun i =>
    (length_le_backlog (ledger.queues i).fifo).trans (balanced.within i)

theorem qlen_lt (balanced : Balanced ledger) : ledger.qlen < 2 ^ 32 := by
  have bound := balanced.qlen_le
  unfold maxBufferBytes at bound
  omega

/-- Every stored packet is within the limit of its FIFO. -/
theorem stored_size (balanced : Balanced ledger) {i : Fin 8} {skb : Skb}
    (member : skb ∈ (ledger.queues i).fifo) : 84 ≤ skbSize skb ∧ skbSize skb ≤ 2000024 := by
  have part : skb.len ≤ backlog (ledger.queues i).fifo :=
    List.le_sum_of_mem (List.mem_map_of_mem member)
  have range := skbSize_range (part.trans (balanced.within i))
  exact ⟨range.1, range.2.1⟩

/-- The bytes of a queue are counted under its priority. -/
theorem lenBytes_le_prioLenBytes (balanced : Balanced ledger) (i : Fin 8) :
    (ledger.queues i).lenBytes ≤ ledger.prioLenBytes (ledger.queues i).prio := by
  rw [balanced.prioLenBytes]
  have part := Accounting.measure_le_total (Account.heldAt (ledger.queues i).prio) ledger.queues i
  simpa [Account.heldAt] using part

/-- A queue holds packets exactly when its byte count is positive. -/
theorem lenBytes_eq_zero_iff (balanced : Balanced ledger) (i : Fin 8) :
    (ledger.queues i).lenBytes = 0 ↔ (ledger.queues i).fifo = [] := by
  rw [balanced.lenBytes i]
  have within := balanced.within i
  cases content : (ledger.queues i).fifo with
  | nil => simp
  | cons skb rest =>
      rw [content] at within
      simp only [backlog_cons] at within
      have headSmall : skb.len ≤ maxBufferBytes := by omega
      have size := skbSize_range headSmall
      simp only [storedBytes_cons, reduceCtorEq, iff_false]
      omega

/-- A priority's counter is zero exactly when none of its queues holds a packet. -/
theorem prioLenBytes_eq_zero_iff (balanced : Balanced ledger) (prio : Fin 8) :
    ledger.prioLenBytes prio = 0 ↔
      ∀ i, (ledger.queues i).prio = prio → (ledger.queues i).fifo = [] := by
  rw [balanced.prioLenBytes prio, sum_eq_zero_iff]
  apply forall_congr'
  intro i
  simp only [mem_univ, forall_const, Account.heldAt, ite_eq_right_iff,
    balanced.lenBytes_eq_zero_iff i]

/-- The port holds bytes exactly when it holds packets. -/
theorem sumLenBytes_eq_zero_iff (balanced : Balanced ledger) :
    ledger.sumLenBytes = 0 ↔ ledger.qlen = 0 := by
  rw [balanced.sumLenBytes, balanced.qlen, sum_eq_zero_iff, sum_eq_zero_iff]
  apply forall_congr'
  intro i
  rw [balanced.lenBytes_eq_zero_iff i, List.length_eq_zero_iff]

/-! ### Storing and removing -/

/-- Each counter covers the head of a queue, so removing it wraps nowhere. -/
theorem covers (balanced : Balanced ledger) {i : Fin 8} {skb : Skb} {rest : List Skb}
    (content : (ledger.queues i).fifo = skb :: rest) :
    skbSize skb ≤ (ledger.queues i).lenBytes ∧
      skbSize skb ≤ ledger.prioLenBytes (ledger.queues i).prio ∧
      skbSize skb ≤ ledger.sumLenBytes ∧ 1 ≤ ledger.qlen := by
  have own : skbSize skb ≤ (ledger.queues i).lenBytes := by
    rw [balanced.lenBytes i, content]
    simp
  have prio := balanced.lenBytes_le_prioLenBytes i
  have sum := Accounting.measure_le_total Account.lenBytes ledger.queues i
  have count := Accounting.measure_le_total (fun account => account.fifo.length) ledger.queues i
  simp only [content, List.length_cons] at count
  rw [← balanced.sumLenBytes] at sum
  rw [← balanced.qlen] at count
  exact ⟨own, own.trans prio, own.trans sum, by omega⟩

/-- What a packet adds to the counters, none of which wraps. -/
structure Entered (ledger : Ledger) (i configured : Fin 8) (skb : Skb) : Prop where
  lenBytes : u32 ((ledger.queues i).lenBytes + skbSize skb) =
    (ledger.queues i).lenBytes + skbSize skb
  prioLenBytes : u32 (ledger.prioLenBytes (ledger.entryPrio i configured) + skbSize skb) =
    ledger.prioLenBytes (ledger.entryPrio i configured) + skbSize skb
  sumLenBytes : u32 (ledger.sumLenBytes + skbSize skb) = ledger.sumLenBytes + skbSize skb
  qlen : u32 (ledger.qlen + 1) = ledger.qlen + 1

/-- The account of queue `i` once `skb` is stored, with its exact byte count. -/
def entered (ledger : Ledger) (i configured : Fin 8) (skb : Skb) : Account :=
  ⟨ledger.entryPrio i configured, (ledger.queues i).lenBytes + skbSize skb,
    (ledger.queues i).fifo ++ [skb]⟩

/-- Only the priority the packet is counted under changes, by its size. -/
theorem held_entered (balanced : Balanced ledger) (i configured : Fin 8) (skb : Skb)
    (prio : Fin 8) :
    ∑ other, (Function.update ledger.queues i (entered ledger i configured skb) other).heldAt prio =
      ledger.prioLenBytes prio +
        if ledger.entryPrio i configured = prio then skbSize skb else 0 := by
  have exchange := Accounting.total_update (Account.heldAt prio) ledger.queues i
    (entered ledger i configured skb)
  rw [← balanced.prioLenBytes prio] at exchange
  unfold Account.heldAt at exchange ⊢
  simp only [entered, entryPrio] at exchange ⊢
  by_cases idle : (ledger.queues i).fifo = []
  · have empty := (balanced.lenBytes_eq_zero_iff i).mpr idle
    simp only [idle, if_true, empty] at exchange ⊢
    split_ifs at exchange ⊢ <;> omega
  · simp only [idle, if_false] at exchange ⊢
    split_ifs at exchange ⊢ <;> omega

private theorem sum_entered (balanced : Balanced ledger) (i configured : Fin 8) (skb : Skb) :
    ∑ other, (Function.update ledger.queues i (entered ledger i configured skb) other).lenBytes =
      ledger.sumLenBytes + skbSize skb := by
  have exchange := Accounting.total_update Account.lenBytes ledger.queues i
    (entered ledger i configured skb)
  rw [← balanced.sumLenBytes] at exchange
  simp only [entered] at exchange ⊢
  omega

private theorem qlen_entered (balanced : Balanced ledger) (i configured : Fin 8) (skb : Skb) :
    ∑ other, (Function.update ledger.queues i (entered ledger i configured skb) other).fifo.length =
      ledger.qlen + 1 := by
  have exchange := Accounting.total_update (fun account => account.fifo.length) ledger.queues i
    (entered ledger i configured skb)
  simp only [entered, List.length_append, List.length_singleton] at exchange ⊢
  rw [← balanced.qlen] at exchange
  omega

variable {i configured : Fin 8} {skb : Skb}

private theorem entered_within (configured : Fin 8) (balanced : Balanced ledger)
    (fits : backlog (ledger.queues i).fifo + skb.len ≤ maxBufferBytes) (other : Fin 8) :
    backlog (Function.update ledger.queues i (entered ledger i configured skb) other).fifo ≤
      maxBufferBytes := by
  by_cases same : other = i
  · subst same
    simpa [entered, backlog] using fits
  · simpa [Function.update_of_ne same] using balanced.within other

private theorem entered_lenBytes (balanced : Balanced ledger) (other : Fin 8) :
    (Function.update ledger.queues i (entered ledger i configured skb) other).lenBytes =
      storedBytes
        (Function.update ledger.queues i (entered ledger i configured skb) other).fifo := by
  by_cases same : other = i
  · subst same
    simp [entered, balanced.lenBytes other]
  · simpa [Function.update_of_ne same] using balanced.lenBytes other

/-- Storing a packet the FIFO has room for wraps no counter. -/
theorem enter_exact (balanced : Balanced ledger) (configured : Fin 8)
    (fits : backlog (ledger.queues i).fifo + skb.len ≤ maxBufferBytes) :
    Entered ledger i configured skb := by
  have small : ∀ other,
      (Function.update ledger.queues i (entered ledger i configured skb) other).lenBytes ≤
        accountLimit := fun other => by
    rw [entered_lenBytes balanced other]
    exact storedBytes_le_accountLimit (entered_within configured balanced fits other)
  refine ⟨u32_of_lt ?_, u32_of_lt ?_, u32_of_lt ?_, u32_of_lt ?_⟩
  · have own := small i
    simp only [Function.update_self, entered, accountLimit, maxBufferBytes] at own
    omega
  · have total := total_lt (Account.heldAt (ledger.entryPrio i configured))
      fun other => (heldAt_le _ _).trans (small other)
    rwa [held_entered balanced, if_pos rfl] at total
  · have total := total_lt Account.lenBytes small
    rwa [sum_entered balanced] at total
  · have total := total_lt (fun account => account.fifo.length) fun other =>
      ((length_le_backlog _).trans (entered_within configured balanced fits other)).trans
        (by unfold accountLimit; omega : maxBufferBytes ≤ accountLimit)
    rwa [qlen_entered balanced] at total

theorem enter (balanced : Balanced ledger) (configured : Fin 8)
    (fits : backlog (ledger.queues i).fifo + skb.len ≤ maxBufferBytes) :
    Balanced (ledger.enter i configured skb) := by
  have exact := balanced.enter_exact configured fits
  have queues : (ledger.enter i configured skb).queues =
      Function.update ledger.queues i (entered ledger i configured skb) := by
    simp only [Ledger.enter, exact.lenBytes, entered]
  refine ⟨fun other => ?_, fun other => ?_, fun prio => ?_, ?_, ?_⟩
  · rw [queues]
    exact entered_within configured balanced fits other
  · rw [queues]
    exact entered_lenBytes balanced other
  · rw [queues, held_entered balanced]
    simp only [Ledger.enter, exact.prioLenBytes]
    by_cases same : prio = ledger.entryPrio i configured
    · subst same
      simp
    · simp [Function.update_of_ne same, Ne.symm same]
  · rw [queues, sum_entered balanced]
    exact exact.sumLenBytes
  · rw [queues, qlen_entered balanced]
    exact exact.qlen

/-- Removing the head of a queue keeps every counter exact. -/
theorem depart (balanced : Balanced ledger) {rest : List Skb} {prio : Fin 8}
    (content : (ledger.queues i).fifo = skb :: rest) (own : (ledger.queues i).prio = prio) :
    Balanced (ledger.depart prio i skb rest) := by
  subst own
  obtain ⟨ownCovers, prioCovers, sumCovers, countCovers⟩ := balanced.covers content
  have lenExact := u32Sub_of_le (balanced.lenBytes_lt i) ownCovers
  have stored : (ledger.queues i).lenBytes = skbSize skb + storedBytes rest := by
    rw [balanced.lenBytes i, content, storedBytes_cons]
  refine ⟨fun other => ?_, fun other => ?_, fun prio => ?_, ?_, ?_⟩
  · by_cases same : other = i
    · subst same
      have before := balanced.within other
      rw [content, backlog_cons] at before
      simp only [Ledger.depart, Function.update_self]
      omega
    · simpa [Ledger.depart, Function.update_of_ne same] using balanced.within other
  · by_cases same : other = i
    · subst same
      simp only [Ledger.depart, Function.update_self, lenExact]
      omega
    · simpa [Ledger.depart, Function.update_of_ne same] using balanced.lenBytes other
  · have exchange := Accounting.total_update (Account.heldAt prio) ledger.queues i
      { ledger.queues i with lenBytes := (ledger.queues i).lenBytes - skbSize skb, fifo := rest }
    rw [← balanced.prioLenBytes prio] at exchange
    simp only [Ledger.depart, lenExact]
    by_cases same : prio = (ledger.queues i).prio
    · subst same
      rw [Function.update_self, u32Sub_of_le (balanced.prioLenBytes_lt _) prioCovers]
      simp only [Account.heldAt, if_true] at exchange ⊢
      omega
    · rw [Function.update_of_ne same]
      simp only [Account.heldAt, Ne.symm same, if_false] at exchange ⊢
      omega
  · have exchange := Accounting.total_update Account.lenBytes ledger.queues i
      { ledger.queues i with lenBytes := (ledger.queues i).lenBytes - skbSize skb, fifo := rest }
    rw [← balanced.sumLenBytes] at exchange
    simp only [Ledger.depart, lenExact, u32Sub_of_le balanced.sumLenBytes_lt sumCovers]
      at exchange ⊢
    omega
  · have exchange := Accounting.total_update (fun account => account.fifo.length) ledger.queues i
      { ledger.queues i with lenBytes := (ledger.queues i).lenBytes - skbSize skb, fifo := rest }
    simp only [content, List.length_cons] at exchange
    rw [← balanced.qlen] at exchange
    simp only [Ledger.depart, lenExact, u32Sub_of_le balanced.qlen_lt countCovers] at exchange ⊢
    omega

end Balanced

end Ledger

end MqEcn.Kernel
