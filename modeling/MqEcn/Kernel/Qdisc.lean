import Mathlib.Tactic.Common
import Mathlib.Algebra.Order.Ring.Int
import Mathlib.Algebra.BigOperators.Group.List.Basic
import Mathlib.Data.List.FinRange
import MqEcn.Library.Selection
import MqEcn.Library.TokenBucket
import MqEcn.Library.Word

/-!
Contract: what `sch_dwrr/main.c` and `sch_wfq/main.c` share word for word.

Owns: the socket buffer and the size it is accounted with, the inner `bfifo`, the
rate configuration and the conversion of lengths to time, the token bucket test,
the outcome of a dequeue, the events a qdisc is driven by and its step as a function of them,
and what a run whose operations pay from a bucket returns over a time window.

The inner `bfifo` is not part of the repository. It is the parameter `Bfifo`: a
FIFO whose enqueue appends the packet or refuses it. `Bfifo.Bounded` is the limit
both modules create it with.

Times are nanoseconds as unbounded integers; a clock reading is one value a call.

Does not own: the two schedulers, their sysctl tables, and CoDel.
-/

set_option autoImplicit false

namespace MqEcn.Kernel

open MqEcn.Library
open MqEcn.Library.Word

/-- There are queues and priorities: eight of either. -/
instance neZero_eight : NeZero 8 := ⟨by decide⟩

/-- Behind a queue with priority there are seven. -/
instance neZero_seven : NeZero 7 := ⟨by decide⟩

/-! ### Scans -/

/-- A scan over the indices stops at the first one that passes the test. -/
theorem find?_finRange_eq_some {n : Nat} {test : Fin n → Bool} {i : Fin n}
    (found : (List.finRange n).find? test = some i) :
    test i = true ∧ ∀ j < i, test j = false := by
  obtain ⟨_, passes, earlier⟩ :=
    (Selection.find?_eq_some_iff_of_sorted (List.pairwise_lt_finRange n)).mp found
  exact ⟨passes, fun j => earlier j (List.mem_finRange j)⟩

/-- A scan for an answer ends with that of the first index that has one. -/
theorem findSome?_finRange_eq_some_iff {n : Nat} {Answer : Type} {ask : Fin n → Option Answer}
    {answer : Answer} :
    (List.finRange n).findSome? ask = some answer ↔
      ∃ i, ask i = some answer ∧ ∀ j < i, ask j = none := by
  rw [Selection.findSome?_eq_some_iff_of_sorted (List.pairwise_lt_finRange n)]
  simp only [List.mem_finRange, true_and, forall_const]

theorem find?_finRange_eq_none {n : Nat} {test : Fin n → Bool}
    (nothing : (List.finRange n).find? test = none) (i : Fin n) : test i = false := by
  have fails := List.find?_eq_none.mp nothing i (List.mem_finRange i)
  simpa using fails

/-! ### Packets -/

/-- The ECN field of an IP header: `INET_ECN_NOT_ECT`, `INET_ECN_ECT_1`, `INET_ECN_ECT_0` and
`INET_ECN_CE`. -/
inductive Ecn where
  | notEct
  | ect1
  | ect0
  | ce
deriving DecidableEq

/-- What the helpers of the kernel leave of an ECN field: one that is not ECN-capable stays. -/
def Ecn.setCe : Ecn → Ecn
  | .notEct => .notEct
  | _ => .ce

theorem Ecn.setCe_setCe (ecn : Ecn) : ecn.setCe.setCe = ecn.setCe := by
  cases ecn with
  | notEct | ect1 | ect0 | ce => rfl

private theorem Ecn.setCe_eq_ce_iff (ecn : Ecn) : ecn.setCe = .ce ↔ ecn ≠ .notEct := by
  cases ecn with
  | notEct | ect1 | ect0 | ce => decide

/-- `struct sk_buff`, as far as the schedulers read it. A buffer handed to a qdisc
is not empty, and its length is a 32-bit value. `tos` is `none` where `ip_hdr`
returns NULL; the classifiers read its upper six bits. `ecn` is the ECN field that
`INET_ECN_set_ce` and `IP_ECN_set_ce` find, `notEct` where there is none. -/
structure Skb where
  len : Nat
  tos : Option Nat
  tstamp : Int
  ecn : Ecn
  len_pos : 1 ≤ len
  len_lt : len < 2 ^ 32
deriving DecidableEq

/-- The packet carries CE. -/
def Skb.ce (skb : Skb) : Bool := decide (skb.ecn = .ce)

/-- The packet is ECN-capable. -/
def Skb.ect (skb : Skb) : Bool := decide (skb.ecn ≠ .notEct)

/-- `INET_ECN_set_ce`, and `IP_ECN_set_ce` on the header. -/
def inetEcnSetCe (skb : Skb) : Skb := { skb with ecn := skb.ecn.setCe }

/-- CE is put on ECN-capable packets. -/
theorem inetEcnSetCe_ce_iff (skb : Skb) : (inetEcnSetCe skb).ce = true ↔ skb.ect = true := by
  unfold inetEcnSetCe Skb.ce Skb.ect
  rw [decide_eq_true_iff, decide_eq_true_iff]
  exact skb.ecn.setCe_eq_ce_iff

/-- CE is carried by ECN-capable packets. -/
theorem ect_of_ce {skb : Skb} (marked : skb.ce = true) : skb.ect = true := by
  unfold Skb.ce Skb.ect at *
  rw [of_decide_eq_true marked]
  rfl

/-- `dwrr_min_pkt_bytes`, `wfq_min_pkt_bytes`. -/
def minPktBytes : Nat := 64

/-- `dwrr_max_pkt_bytes`, `wfq_max_pkt_bytes`. -/
def maxPktBytes : Nat := 1538

/-- `dwrr_max_buffer_bytes`, `wfq_max_buffer_bytes`. -/
def maxBufferBytes : Nat := 2000000

/-- `skb_size`: the bytes the packet takes on the wire. -/
def skbSize (skb : Skb) : Nat := u32 (max (u32 (skb.len + 4)) minPktBytes + 20)

theorem skbSize_eq_of_len_eq {left right : Skb} (same : left.len = right.len) :
    skbSize left = skbSize right := by
  unfold skbSize
  rw [same]

/-- What a marker can make of a packet: nothing, or the same packet with CE set if it is
ECN-capable. -/
def MarkedFrom (skb marked : Skb) : Prop := marked = skb ∨ marked = inetEcnSetCe skb

theorem MarkedFrom.len_eq {skb marked : Skb} (marker : MarkedFrom skb marked) :
    marked.len = skb.len := by
  rcases marker with rfl | rfl <;> rfl

theorem markedFrom_ite {skb : Skb} {condition : Prop} [Decidable condition] :
    MarkedFrom skb (if condition then inetEcnSetCe skb else skb) := by
  unfold MarkedFrom
  split
  · exact Or.inr rfl
  · exact Or.inl rfl

/-- Bytes of the packets of a FIFO, as they are accounted. -/
def storedBytes (fifo : List Skb) : Nat := (fifo.map skbSize).sum

/-- `skb->len` of the packets of a FIFO. -/
def backlog (fifo : List Skb) : Nat := (fifo.map Skb.len).sum

@[simp] theorem storedBytes_nil : storedBytes [] = 0 := rfl

@[simp] theorem storedBytes_cons (skb : Skb) (fifo : List Skb) :
    storedBytes (skb :: fifo) = skbSize skb + storedBytes fifo := rfl

@[simp] theorem storedBytes_append (left right : List Skb) :
    storedBytes (left ++ right) = storedBytes left + storedBytes right := by
  simp [storedBytes]

@[simp] theorem backlog_cons (skb : Skb) (fifo : List Skb) :
    backlog (skb :: fifo) = skb.len + backlog fifo := rfl

@[simp] theorem backlog_append (left right : List Skb) :
    backlog (left ++ right) = backlog left + backlog right := by
  simp [backlog]

/-- A full-sized ECN-capable Ethernet frame with the given type of service. -/
def fullFrame (tos : Nat) : Skb := ⟨1514, some tos, 0, .ect0, by decide, by decide⟩

/-- The shortest Ethernet frame, ECN-capable, with its type of service zero. -/
def shortFrame : Skb := ⟨60, some 0, 0, .ect0, by decide, by decide⟩

/-- A frame of 4000 bytes. -/
def jumboFrame (tos : Nat) : Skb := ⟨4000, some tos, 0, .ect0, by decide, by decide⟩

/-! ### The inner FIFO -/

/-- Return codes of `qdisc_enqueue`. -/
inductive NetXmit where
  | success
  | drop
  | cn
deriving DecidableEq

/-- The inner `bfifo`: the code its enqueue returns for its contents and a packet.
The packet is appended exactly on `success`. -/
abbrev Bfifo : Type := List Skb → Skb → NetXmit

/-- The limit of a `bfifo` created with `fifo_create_dflt(.., 2000000)`. -/
def Bfifo.Bounded (bfifo : Bfifo) : Prop :=
  ∀ fifo skb, bfifo fifo skb = .success → backlog fifo + skb.len ≤ maxBufferBytes

/-- A `bfifo` that counts `skb->len` against its limit. -/
def byteLimit : Bfifo := fun fifo skb =>
  if backlog fifo + skb.len ≤ maxBufferBytes then .success else .drop

theorem byteLimit_bounded : byteLimit.Bounded := by
  intro fifo skb accepted
  unfold byteLimit at accepted
  split at accepted
  · assumption
  · cases accepted

/-- A `bfifo` that answers by the lengths of what it holds and of the packet. -/
def Bfifo.CountsLengths (bfifo : Bfifo) : Prop :=
  ∀ fifo fifo' skb, fifo'.map Skb.len = fifo.map Skb.len → bfifo fifo' skb = bfifo fifo skb

theorem byteLimit_countsLengths : byteLimit.CountsLengths := by
  intro fifo fifo' skb same
  unfold byteLimit backlog
  rw [same]

/-- A packet within the limit is accounted with its length, its frame check
sequence, padding, preamble and gap. -/
theorem skbSize_of_len_le {skb : Skb} (small : skb.len ≤ maxBufferBytes) :
    skbSize skb = max (skb.len + 4) minPktBytes + 20 := by
  unfold maxBufferBytes at small
  unfold skbSize minPktBytes u32
  omega

theorem skbSize_range {skb : Skb} (small : skb.len ≤ maxBufferBytes) :
    84 ≤ skbSize skb ∧ skbSize skb ≤ 2000024 ∧ skbSize skb ≤ 84 * skb.len := by
  rw [skbSize_of_len_le small]
  have positive := skb.len_pos
  unfold maxBufferBytes at small
  unfold minPktBytes
  omega

/-- The accounted bytes of a FIFO within the limit are far below `2 ^ 32`. -/
theorem storedBytes_le_backlog {fifo : List Skb} (small : backlog fifo ≤ maxBufferBytes) :
    storedBytes fifo ≤ 84 * backlog fifo := by
  induction fifo with
  | nil => simp [storedBytes]
  | cons skb rest inductionHypothesis =>
      simp only [backlog_cons] at small
      have headSmall : skb.len ≤ maxBufferBytes := by omega
      have head := skbSize_range headSmall
      have tail := inductionHypothesis (by omega)
      simp only [storedBytes_cons, backlog_cons]
      omega

theorem length_le_backlog (fifo : List Skb) : fifo.length ≤ backlog fifo := by
  induction fifo with
  | nil => simp
  | cons skb rest inductionHypothesis =>
      have positive := skb.len_pos
      simp only [List.length_cons, backlog_cons]
      omega

/-! ### Rate and token bucket -/

/-- `struct dwrr_rate_cfg`, `struct wfq_rate_cfg`. -/
structure RateCfg where
  rateBps : Nat
  mult : Nat
  shift : Nat
deriving DecidableEq

/-- `precompute_ratedata` for a rate in bits per second. -/
def precomputeRatedata (rateBps : Nat) : RateCfg :=
  if 0 < rateBps then
    { rateBps, mult := u32 (8 * 1000000000 * 2 ^ 15 / rateBps), shift := 15 }
  else
    { rateBps, mult := 1, shift := 0 }

/-- `dwrr_change`, `wfq_change` after a successful parse: `rate` is the 32-bit rate
in bytes per second. -/
def changeRate (rate : Nat) : RateCfg := precomputeRatedata (u64 (u32 rate * 8))

/-- `l2t_ns`: length in bytes to time in nanoseconds. -/
def l2tNs (rate : RateCfg) (lenBytes : Nat) : Nat :=
  u64 (u32 lenBytes * rate.mult) >>> rate.shift

/-- `bucket_ns`: the configured bucket as a time. -/
def bucketNs (rate : RateCfg) (bucketBytes : Int) : Nat := l2tNs rate (u32OfInt bucketBytes)

/-- `tbf_schedule`: tokens left if a packet of `len` bytes left at `now`. -/
def tbfSchedule (rate : RateCfg) (bucketBytes timeNs tokens : Int) (len : Nat) (now : Int) : Int :=
  min (now - timeNs) (bucketNs rate bucketBytes) + tokens - l2tNs rate len

/-- `tbf_schedule` is what a token bucket with capacity `bucket_ns` has remaining. -/
theorem tbfSchedule_eq_remaining (rate : RateCfg) (bucketBytes timeNs tokens : Int) (len : Nat)
    (now : Int) :
    tbfSchedule rate bucketBytes timeNs tokens len now =
      TokenBucket.remaining (bucketNs rate bucketBytes) ⟨tokens, timeNs⟩ now (l2tNs rate len) :=
  rfl

section

variable {rate : RateCfg} {bucketBytes timeNs tokens now : Int} {len : Nat}

/-- The time a packet is due, where one bucket covers it. -/
def dueTime (rate : RateCfg) (timeNs tokens : Int) (len : Nat) : Int :=
  TokenBucket.due ⟨tokens, timeNs⟩ (l2tNs rate len)

theorem tbfSchedule_lt_zero_iff (nonneg : 0 ≤ tokens)
    (covered : l2tNs rate len ≤ bucketNs rate bucketBytes) :
    tbfSchedule rate bucketBytes timeNs tokens len now < 0 ↔
      now < dueTime rate timeNs tokens len := by
  have enough := @TokenBucket.remaining_nonneg_iff (bucketNs rate bucketBytes) ⟨tokens, timeNs⟩
    now (l2tNs rate len) nonneg (Int.ofNat_le.mpr covered)
  rw [tbfSchedule_eq_remaining, dueTime, ← not_le, ← not_le, enough]

theorem sub_tbfSchedule_eq_dueTime (nonneg : 0 ≤ tokens)
    (covered : l2tNs rate len ≤ bucketNs rate bucketBytes)
    (short : tbfSchedule rate bucketBytes timeNs tokens len now < 0) :
    now - tbfSchedule rate bucketBytes timeNs tokens len now = dueTime rate timeNs tokens len := by
  rw [tbfSchedule_eq_remaining] at short ⊢
  exact TokenBucket.sub_remaining_eq_due nonneg (Int.ofNat_le.mpr covered) short

end

/-! ### Outcomes and events -/

/-- What a dequeue does besides changing the state. `fault` is the use of a class
pointer that no queue stands behind. -/
inductive Dequeued where
  /-- NULL is returned and no timer is armed. -/
  | null
  /-- NULL is returned after `qdisc_watchdog_schedule_ns` with this expiry. -/
  | throttled (expires : Int)
  /-- The packet is returned; it was the head of this queue. -/
  | packet (queue : Fin 8) (skb : Skb)
  | fault
deriving DecidableEq

/-- One event of a qdisc, with what it returned. `Param` names the sysctl
parameters of the module. -/
inductive Event (Param : Type) where
  | enqueue (now : Int) (skb : Skb) (ret : NetXmit)
  | dequeue (now : Int) (outcome : Dequeued)
  | sysctl (param : Param) (value : Int)
  | change (rate : Nat)

variable {Param : Type}

/-- Accounted size of the packet an event accepted, `0` for any other event. -/
def Event.acceptedSize : Event Param → Nat
  | .enqueue _ skb .success => skbSize skb
  | _ => 0

/-- `Lmax`: the largest accounted size accepted over a list of events. -/
def largestSize (events : List (Event Param)) : Nat :=
  (events.map Event.acceptedSize).foldr max 0

theorem acceptedSize_le_largestSize {events : List (Event Param)} {event : Event Param}
    (member : event ∈ events) : event.acceptedSize ≤ largestSize events := by
  induction events with
  | nil => simp at member
  | cons head tail inductionHypothesis =>
      simp only [largestSize, List.map_cons, List.foldr_cons] at inductionHypothesis ⊢
      rcases List.mem_cons.mp member with rfl | inside
      · exact le_max_left _ _
      · exact (inductionHypothesis inside).trans (le_max_right _ _)

theorem largestSize_le {events : List (Event Param)} {bound : Nat}
    (each : ∀ event ∈ events, event.acceptedSize ≤ bound) : largestSize events ≤ bound := by
  induction events with
  | nil => exact Nat.zero_le _
  | cons head tail inductionHypothesis =>
      have rest :=
          inductionHypothesis fun event member => each event (List.mem_cons_of_mem _ member)
      exact max_le (each head List.mem_cons_self) rest

/-- Accounted bytes of the packet an event took from a queue. -/
def Event.sentFrom (queue : Fin 8) : Event Param → Nat
  | .dequeue _ (.packet served skb) => if served = queue then skbSize skb else 0
  | _ => 0

/-- `S_i`: accounted bytes dequeued from a queue over a list of events. -/
def sentBytes (queue : Fin 8) (events : List (Event Param)) : Nat :=
  (events.map (Event.sentFrom queue)).sum

@[simp] theorem sentBytes_nil (queue : Fin 8) : sentBytes queue ([] : List (Event Param)) = 0 := rfl

@[simp] theorem sentBytes_cons (queue : Fin 8) (event : Event Param)
    (events : List (Event Param)) :
    sentBytes queue (event :: events) = event.sentFrom queue + sentBytes queue events := rfl

/-- Whole units of `weight` bytes in the packets dequeued from a queue. -/
def sentUnits (weight : Nat) (queue : Fin 8) (events : List (Event Param)) : Nat :=
  (events.map fun event => event.sentFrom queue / weight).sum

/-- What each packet dequeued from a queue leaves over a multiple of `weight` bytes. -/
def sentResidue (weight : Nat) (queue : Fin 8) (events : List (Event Param)) : Nat :=
  (events.map fun event => event.sentFrom queue % weight).sum

theorem sentBytes_eq_units_add_residue (weight : Nat) (queue : Fin 8)
    (events : List (Event Param)) :
    sentBytes queue events =
      weight * sentUnits weight queue events + sentResidue weight queue events := by
  induction events with
  | nil => simp [sentUnits, sentResidue]
  | cons head tail inductionHypothesis =>
      have split := Nat.div_add_mod (head.sentFrom queue) weight
      simp only [sentBytes_cons, sentUnits, sentResidue, List.map_cons, List.sum_cons,
        Nat.mul_add] at inductionHypothesis ⊢
      omega

/-- The transmission time of a returned packet, spent when it is returned. -/
def Event.spending (rate : RateCfg) : Event Param → Option (Int × Int)
  | .dequeue now (.packet _ skb) => some (now, l2tNs rate (skbSize skb))
  | _ => none

/-- Total transmission time of the packets returned at times in the closed window. -/
def airtimeWithin (rate : RateCfg) (opens closes : Int) (events : List (Event Param)) : Int :=
  TokenBucket.spentWithin opens closes (events.filterMap (Event.spending rate))

/-! ### The step as a function -/

/-- The module parameters, the private data of a qdisc and the time of its last operation. -/
structure Qdisc (Params Data : Type) where
  params : Params
  q : Data
  clock : Int

/-- The operations of a module. -/
structure Operations (Params Data Param : Type) where
  enqueue : Params → Int → Skb → Data → Data × NetXmit
  dequeue : Params → Int → Data → Option (Data × Dequeued)
  write : Params → Param → Int → Params
  change : Nat → Data → Data

namespace Operations

variable {Params Data : Type}

/-- The state an event leads to, where the qdisc answers as the event says. -/
def next (operations : Operations Params Data Param) (s : Qdisc Params Data) :
    Event Param → Option (Qdisc Params Data)
  | .enqueue now skb ret =>
      let answer := operations.enqueue s.params now skb s.q
      if s.clock ≤ now ∧ answer.2 = ret then some ⟨s.params, answer.1, now⟩ else none
  | .dequeue now outcome =>
      (operations.dequeue s.params now s.q).bind fun answer =>
        if s.clock ≤ now ∧ answer.2 = outcome then some ⟨s.params, answer.1, now⟩ else none
  | .sysctl param value => some ⟨operations.write s.params param value, s.q, s.clock⟩
  | .change rate => some ⟨s.params, operations.change rate s.q, s.clock⟩

/-- Every operation is a step. -/
structure Follow (operations : Operations Params Data Param)
    (step : Qdisc Params Data → Event Param → Qdisc Params Data → Prop) : Prop where
  enqueue : ∀ {s now skb q' ret}, s.clock ≤ now →
    operations.enqueue s.params now skb s.q = (q', ret) →
    step s (.enqueue now skb ret) ⟨s.params, q', now⟩
  dequeue : ∀ {s now q' outcome}, s.clock ≤ now →
    operations.dequeue s.params now s.q = some (q', outcome) →
    step s (.dequeue now outcome) ⟨s.params, q', now⟩
  sysctl : ∀ {s} (param value), step s (.sysctl param value)
    ⟨operations.write s.params param value, s.q, s.clock⟩
  change : ∀ {s} (rate), step s (.change rate) ⟨s.params, operations.change rate s.q, s.clock⟩

theorem Follow.next_sound {operations : Operations Params Data Param}
    {step : Qdisc Params Data → Event Param → Qdisc Params Data → Prop}
    (follow : operations.Follow step) {s s' : Qdisc Params Data} {event : Event Param}
    (answers : operations.next s event = some s') : step s event s' := by
  cases event with
  | enqueue now skb ret =>
      simp only [next, Option.ite_none_right_eq_some, Option.some.injEq] at answers
      obtain ⟨⟨later, rfl⟩, rfl⟩ := answers
      exact follow.enqueue later rfl
  | dequeue now outcome =>
      simp only [next, Option.bind_eq_some_iff, Option.ite_none_right_eq_some,
        Option.some.injEq] at answers
      obtain ⟨answer, returns, ⟨later, rfl⟩, rfl⟩ := answers
      exact follow.dequeue later returns
  | sysctl param value =>
      cases answers
      exact follow.sysctl param value
  | change rate =>
      cases answers
      exact follow.change rate

end Operations

/-! ### Runs that pay -/

section

open MqEcn.Library.Transition

variable {Params Data : Type} {good : Qdisc Params Data → Prop}
  {step : Qdisc Params Data → Event Param → Qdisc Params Data → Prop}
  {start last : Qdisc Params Data} {events : List (Event Param)} {rate : RateCfg}
  {capacity : Int}

/-- Where each operation pays for what it returns from a bucket that starts empty, the packets
returned take at most two buckets and the window, over every window. -/
theorem airtimeWithin_le_of_pays (bucket : Data → TokenBucket.Bucket)
    (run : RunWithin good step start events last)
    (pays : ∀ {s s' event}, step s event s' → good s → (bucket s.q).time ≤ s.clock →
      TokenBucket.Pays capacity (bucket s.q) (event.spending rate) (bucket s'.q) ∧
        (bucket s'.q).time ≤ s'.clock)
    (empty : (bucket start.q).time ≤ start.clock ∧ (bucket start.q).tokens = 0)
    (nonneg : 0 ≤ capacity) {opens closes : Int} (ordered : opens ≤ closes) :
    airtimeWithin rate opens closes events ≤ 2 * capacity + (closes - opens) := by
  apply TokenBucket.spentWithin_le_of_run (fun s => bucket s.q) run.2
    (fun s => (bucket s.q).time ≤ s.clock) _ empty.1 empty.2 ordered nonneg
  intro first last event inside past
  exact pays inside.2.1 inside.1 past

/-- It never spends more than it holds. -/
theorem tokens_nonneg_of_pays (bucket : Data → TokenBucket.Bucket)
    (run : RunWithin good step start events last)
    (pays : ∀ {s s' event}, step s event s' → good s → (bucket s.q).time ≤ s.clock →
      TokenBucket.Pays capacity (bucket s.q) (event.spending rate) (bucket s'.q) ∧
        (bucket s'.q).time ≤ s'.clock)
    (empty : (bucket start.q).time ≤ start.clock ∧ (bucket start.q).tokens = 0)
    (nonneg : 0 ≤ capacity) : 0 ≤ (bucket last.q).tokens := by
  have carried : (bucket last.q).time ≤ last.clock ∧ 0 ≤ (bucket last.q).tokens := by
    apply run.2.preserves fun s => (bucket s.q).time ≤ s.clock ∧ 0 ≤ (bucket s.q).tokens
    · intro first last event inside both
      obtain ⟨paid, later⟩ := pays inside.2.1 inside.1 both.1
      exact ⟨later, paid.tokens_nonneg nonneg both.2⟩
    · exact ⟨empty.1, empty.2.ge⟩
  exact carried.2

end

end MqEcn.Kernel
