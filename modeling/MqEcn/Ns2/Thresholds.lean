import MqEcn.Ns2.PrioDwrr.Threshold
import MqEcn.Ns2.PrioWfq.Threshold

/-!
Contract: the threshold of `MQ_MARKING_GENER` in the four NS2 disciplines that have it.

Owns: the lengths between which their queues start to mark in every run that leaves the shares of
busy queues alone.

Does not own: what a single discipline does to its estimate.
-/

set_option autoImplicit false

namespace MqEcn.Ns2

open MqEcn.Library.Transition

/-- **Shared threshold.** Once the estimate is at most `limit`, and as long as the weights, or
quanta, of the queues in use add up to at most `limit` from then on, a queue under
`MQ_MARKING_GENER` stores a packet as it came while the packet leaves it within the part of the
port threshold that its own share has in `limit`, and marks every ECN-capable packet that leaves
it beyond the port threshold. -/
theorem gener_marks_between {pow : ℚ → ℚ → ℚ} (weakening : Weakening pow) (limit : ℚ) :
    (∀ s now p q', Wfq.WithinLimit pow limit s → Wfq.Sharing s.config → s.clock ≤ now →
      Wfq.enque pow s.config now p s.q = some (q', true) →
      SharesOut limit (s.q.queues (Wfq.classify s.config p)).weight s.config.portThresh
        s.config.meanPktsize (s.q.queues (Wfq.classify s.config p)).packets
        (q'.queues (Wfq.classify s.config p)).packets p) ∧
    (∀ s now p q', Dwrr.WithinLimit pow limit s → Dwrr.Sharing s.config.toTuning →
      s.config.dequeMarking = false → s.clock ≤ now →
      Dwrr.enque pow s.config now p s.q = some (q', true) →
      SharesOut limit (s.q.queues (Dwrr.classify s.config p)).quantum s.config.portThresh
        s.config.meanPktsize (s.q.queues (Dwrr.classify s.config p)).packets
        (q'.queues (Dwrr.classify s.config p)).packets p) ∧
    (∀ s now p q' i, PrioWfq.WithinLimit pow limit s → Wfq.Sharing s.config.toConfig →
      s.clock ≤ now → PrioWfq.queueOf s.config (PrioWfq.queueIndex s.config p) = some (.inr i) →
      PrioWfq.enque pow s.config now p s.q = some (q', true) →
      SharesOut limit (s.q.wfq.queues i).weight s.config.portThresh s.config.meanPktsize
        (s.q.wfq.queues i).packets (q'.wfq.queues i).packets p) ∧
    ∀ s now p q' i, PrioDwrr.WithinLimit pow limit s → Dwrr.Sharing s.config.toTuning →
      s.clock ≤ now → PrioDwrr.queueOf s.config (PrioDwrr.queueIndex s.config p) = some (.inr i) →
      PrioDwrr.enque pow s.config now p s.q = some (q', true) →
      SharesOut limit (s.q.dwrr.queues i).quantum s.config.portThresh s.config.meanPktsize
        (s.q.dwrr.queues i).packets (q'.dwrr.queues i).packets p := by
  refine ⟨?_, ?_, ?_, ?_⟩
  · intro s now p q' within sharing later returns
    exact Wfq.sharesOut_of_withinLimit weakening within sharing later returns
  · intro s now p q' within sharing arriving later returns
    exact Dwrr.sharesOut_of_withinLimit weakening within sharing arriving later returns
  · intro s now p q' i within sharing later target returns
    exact PrioWfq.sharesOut_of_withinLimit weakening within sharing later target returns
  · intro s now p q' i within sharing later target returns
    exact PrioDwrr.sharesOut_of_withinLimit weakening within sharing later target returns

/-! ### Ports that share out their threshold -/

/-- The operations without the commands. -/
def Operations.uncommanded {Config Queues Command Queue : Type}
    (operations : Operations Config Queues Command Queue) :
    Operations Config Queues Command Queue :=
  { operations with command := fun _ _ _ => none }

/-- A packet that is not ECN-capable. -/
def filler (prio : Int) : Packet := ⟨prio, 1500, false, false, 0, fullSize_pos⟩

/-- An ECN-capable packet. -/
def offered (prio : Int) : Packet := ⟨prio, 1500, true, false, 0, fullSize_pos⟩

/-- The same packet, marked. -/
def markedOffer (prio : Int) : Packet := { offered prio with ce := true }

/-- Three packets come to either of two queues, and one of the first leaves. -/
def filling {Command Queue : Type} (low high : Int) (queue : Queue) :
    List (Event Command Queue) :=
  [.enque 0 (filler low) true, .enque 0 (filler low) true, .enque 0 (filler low) true,
    .enque 0 (filler high) true, .enque 0 (filler high) true, .enque 0 (filler high) true,
    .deque 1 (some (queue, filler low))]

/-- A port with two queues under `MQ_MARKING_GENER` and a threshold of two packets, on a link that
sends 1500 bytes in a second. -/
def Wfq.twoQueues : Wfq.Config :=
  { Wfq.defaultConfig with
    queueNum := 2
    queueNum_range := by decide
    markingScheme := Wfq.mqMarkingGener
    portThresh := 2
    linkCapacity := 12000 }

def Dwrr.twoQueues : Dwrr.Config :=
  { Dwrr.defaultConfig with
    queueNum := 2
    queueNum_range := by decide
    markingScheme := Dwrr.mqMarkingGener
    portThresh := 2
    linkCapacity := 12000 }

def PrioWfq.twoQueues : PrioWfq.Config :=
  { PrioWfq.defaultConfig with toConfig := Wfq.twoQueues }

def PrioDwrr.twoQueues : PrioDwrr.Config :=
  { PrioDwrr.defaultConfig with
    toTuning := Dwrr.twoQueues.toTuning
    dwrrQueueNum := 2
    dwrrQueueNum_range := by decide }

/-- The states after the filling and after another deque, within a limit. -/
def shared {Config Queues Command Queue : Type} [DecidableEq Queue]
    (operations : Operations Config Queues Command Queue)
    (within : Discipline Config Queues → Prop) [DecidablePred within]
    (start : Discipline Config Queues) (low high : Int) (queue : Queue)
    (served : Queue × Packet) : Option (Discipline Config Queues × Discipline Config Queues) :=
  (replay operations.uncommanded.next (fun _ => True) start (filling low high queue)).bind
    fun first => (replay operations.uncommanded.next within first [.deque 2 (some served)]).map
    fun last => (first, last)

section

variable {Config Queues Command Queue : Type} [DecidableEq Queue]
  {operations : Operations Config Queues Command Queue}
  {step : Discipline Config Queues → Event Command Queue → Discipline Config Queues → Prop}
  {within : Discipline Config Queues → Prop} [DecidablePred within]
  {start : Discipline Config Queues} {low high : Int} {queue : Queue} {served : Queue × Packet}

private theorem runs_of_shared (follow : operations.uncommanded.Follow step)
    {run : Discipline Config Queues × Discipline Config Queues}
    (leads : run ∈ shared operations within start low high queue served) :
    Run step start (filling low high queue) run.1 ∧
      RunWithin within step run.1 [.deque 2 (some served)] run.2 := by
  obtain ⟨first, fills, shares⟩ := Option.bind_eq_some_iff.mp leads
  obtain ⟨last, during, rfl⟩ := Option.map_eq_some_iff.mp shares
  exact ⟨(RunWithin.of_replay follow.next_sound fills).run,
    RunWithin.of_replay follow.next_sound during⟩

end

/-- A queue of two packets marks the one that comes. -/
theorem marked_of_sharesOut {limit share : ℚ} {before after : List Packet} {prio : Int}
    (shares : SharesOut limit share 2 1500 before after (offered prio))
    (long : 3000 ≤ byteLength before) : after = before ++ [markedOffer prio] := by
  obtain ⟨marked, stored, between⟩ := shares
  have positive := marked.size_pos
  have beyond : 3000 < byteLength after := by
    rw [stored, byteLength_append, byteLength_cons, byteLength_nil]
    omega
  have limit : (2 : ℚ) * (1500 : Int) < byteLength after := by
    norm_num
    exact_mod_cast beyond
  rw [stored, between.beyond limit]
  rfl

private theorem Wfq.keeping_follow (pow : ℚ → ℚ → ℚ) :
    (Wfq.operations pow).uncommanded.Follow (Wfq.Keeping pow) where
  enque := fun later returns => ⟨.enque later returns, trivial⟩
  deque := fun later returns => ⟨.deque later returns, trivial⟩
  command := by
    intro s request q' impossible
    cases impossible
  timeout := fun later pending => ⟨.timeout later pending, trivial⟩

private theorem Dwrr.keeping_follow (pow : ℚ → ℚ → ℚ) (fuel : Nat) :
    (Dwrr.operations pow fuel).uncommanded.Follow (Dwrr.Keeping pow) where
  enque := fun later returns => ⟨.enque later returns, trivial⟩
  deque := fun later returns => ⟨.deque later returns, trivial⟩
  command := by
    intro s request q' impossible
    cases impossible
  timeout := fun later pending => ⟨.timeout later pending, trivial⟩

private theorem PrioWfq.keeping_follow (pow : ℚ → ℚ → ℚ) :
    (PrioWfq.operations pow).uncommanded.Follow (PrioWfq.Keeping pow) where
  enque := fun later returns => ⟨.enque later returns, trivial⟩
  deque := fun later returns => ⟨.deque later returns, trivial⟩
  command := by
    intro s request q' impossible
    cases impossible
  timeout := fun later pending => ⟨.timeout later pending, trivial⟩

private theorem PrioDwrr.keeping_follow (pow : ℚ → ℚ → ℚ) (fuel : Nat) :
    (PrioDwrr.operations pow fuel).uncommanded.Follow (PrioDwrr.Keeping pow) where
  enque := fun later returns => ⟨.enque later returns, trivial⟩
  deque := fun later returns => ⟨.deque later returns, trivial⟩
  command := by
    intro s request q' impossible
    cases impossible
  timeout := fun later pending => ⟨.timeout later pending, trivial⟩

/-- An arrival, at three seconds, finds an estimate and two packets in its queue. -/
theorem Wfq.shared_fills :
    ∃ run ∈ shared (Wfq.operations wholePow)
        (fun s => Wfq.totalWeight s.config s.q ≤ 20000) ⟨Wfq.twoQueues, Wfq.construct, 0⟩ 0 1 0
        (0, filler 0),
      run.1.q.weightSumEstimate ≤ 20000 ∧ 0 < run.2.q.weightSumEstimate ∧ run.2.clock ≤ 3 ∧
        3000 ≤ byteLength (run.2.q.queues 1).packets ∧
        (Wfq.enque wholePow Wfq.twoQueues 3 (offered 1) run.2.q).map Prod.snd = some true := by
  decide +kernel

private theorem Dwrr.shared_fills :
    ∃ run ∈ shared (Dwrr.operations wholePow 3)
        (fun s => (Dwrr.totalQuantum s.config.queueNum s.q : ℚ) ≤ 3000)
        ⟨Dwrr.twoQueues, Dwrr.construct, 0⟩ 0 1 0 (1, filler 1),
      run.1.q.quantumSumEstimate ≤ 3000 ∧ 0 < run.2.q.quantumSumEstimate ∧ run.2.clock ≤ 3 ∧
        3000 ≤ byteLength (run.2.q.queues 1).packets ∧
        (Dwrr.enque wholePow Dwrr.twoQueues 3 (offered 1) run.2.q).map Prod.snd = some true := by
  decide +kernel

private theorem PrioWfq.shared_fills :
    ∃ run ∈ shared (PrioWfq.operations wholePow)
        (fun s => Wfq.totalWeight s.config.toConfig s.q.wfq ≤ 20000)
        ⟨PrioWfq.twoQueues, PrioWfq.construct, 0⟩ 1 2 (.inr 0) (.inr 0, filler 1),
      run.1.q.wfq.weightSumEstimate ≤ 20000 ∧ 0 < run.2.q.wfq.weightSumEstimate ∧
        run.2.clock ≤ 3 ∧ 3000 ≤ byteLength (run.2.q.wfq.queues 1).packets ∧
        (PrioWfq.enque wholePow PrioWfq.twoQueues 3 (offered 2) run.2.q).map Prod.snd =
          some true := by
  decide +kernel

private theorem PrioDwrr.shared_fills :
    ∃ run ∈ shared (PrioDwrr.operations wholePow 3)
        (fun s => (Dwrr.totalQuantum s.config.dwrrQueueNum s.q.dwrr : ℚ) ≤ 3000)
        ⟨PrioDwrr.twoQueues, PrioDwrr.construct, 0⟩ 1 2 (.inr 0) (.inr 1, filler 2),
      run.1.q.dwrr.quantumSumEstimate ≤ 3000 ∧ 0 < run.2.q.dwrr.quantumSumEstimate ∧
        run.2.clock ≤ 3 ∧ 3000 ≤ byteLength (run.2.q.dwrr.queues 1).packets ∧
        (PrioDwrr.enque wholePow PrioDwrr.twoQueues 3 (offered 2) run.2.q).map Prod.snd =
          some true := by
  decide +kernel

/-- Where an operation answers that it took a packet, it leaves a state behind. -/
theorem exists_taken {Queues : Type} {answer : Option (Queues × Bool)}
    (takes : answer.map Prod.snd = some true) : ∃ q', answer = some (q', true) := by
  obtain ⟨⟨q', taken⟩, isAnswer, rfl⟩ := Option.map_eq_some_iff.mp takes
  exact ⟨q', isAnswer⟩

/-- Once the estimate has been sampled, each of the four marks the packet that comes. -/
theorem sharing_marks_between :
    (∃ s q', Wfq.WithinLimit wholePow 20000 s ∧ 0 < s.q.weightSumEstimate ∧
      Wfq.enque wholePow s.config 3 (offered 1) s.q = some (q', true) ∧
      (q'.queues 1).packets = (s.q.queues 1).packets ++ [markedOffer 1]) ∧
    (∃ s q', Dwrr.WithinLimit wholePow 3000 s ∧ 0 < s.q.quantumSumEstimate ∧
      Dwrr.enque wholePow s.config 3 (offered 1) s.q = some (q', true) ∧
      (q'.queues 1).packets = (s.q.queues 1).packets ++ [markedOffer 1]) ∧
    (∃ s q', PrioWfq.WithinLimit wholePow 20000 s ∧ 0 < s.q.wfq.weightSumEstimate ∧
      PrioWfq.enque wholePow s.config 3 (offered 2) s.q = some (q', true) ∧
      (q'.wfq.queues 1).packets = (s.q.wfq.queues 1).packets ++ [markedOffer 2]) ∧
    ∃ s q', PrioDwrr.WithinLimit wholePow 3000 s ∧ 0 < s.q.dwrr.quantumSumEstimate ∧
      PrioDwrr.enque wholePow s.config 3 (offered 2) s.q = some (q', true) ∧
      (q'.dwrr.queues 1).packets = (s.q.dwrr.queues 1).packets ++ [markedOffer 2] := by
  have alpha : (3 / 4 : ℚ) ∈ Set.Icc (0 : ℚ) 1 := by norm_num
  have wfq := (gener_marks_between weakening_wholePow 20000).1
  have dwrr := (gener_marks_between weakening_wholePow 3000).2.1
  have prioWfq := (gener_marks_between weakening_wholePow 20000).2.2.1
  have prioDwrr := (gener_marks_between weakening_wholePow 3000).2.2.2
  refine ⟨?_, ?_, ?_, ?_⟩
  · obtain ⟨⟨first, s⟩, leads, below, positive, later, long, takes⟩ := Wfq.shared_fills
    obtain ⟨fills, during⟩ := runs_of_shared (Wfq.keeping_follow wholePow) leads
    have within : Wfq.WithinLimit wholePow 20000 s :=
      ⟨first, _, ⟨⟨Wfq.twoQueues, Wfq.construct, 0⟩, _, ⟨rfl, le_rfl⟩, fills⟩, below,
        during⟩
    have config : s.config = Wfq.twoQueues :=
      (Wfq.config_of_run during.run).trans (Wfq.config_of_run fills)
    obtain ⟨q', taken⟩ := exists_taken takes
    rw [← config] at taken
    have shares := wfq s 3 (offered 1) q' within
      (by rw [config]; exact ⟨rfl, alpha, by decide, by decide⟩) later taken
    rw [config] at shares
    exact ⟨s, q', within, positive, taken, marked_of_sharesOut shares long⟩
  · obtain ⟨⟨first, s⟩, leads, below, positive, later, long, takes⟩ := Dwrr.shared_fills
    obtain ⟨fills, during⟩ := runs_of_shared (Dwrr.keeping_follow wholePow 3) leads
    have within : Dwrr.WithinLimit wholePow 3000 s :=
      ⟨first, _, ⟨⟨Dwrr.twoQueues, Dwrr.construct, 0⟩, _, ⟨rfl, le_rfl⟩, fills⟩, below,
        during⟩
    have config : s.config = Dwrr.twoQueues :=
      (Dwrr.config_of_run during.run).trans (Dwrr.config_of_run fills)
    obtain ⟨q', taken⟩ := exists_taken takes
    rw [← config] at taken
    have shares := dwrr s 3 (offered 1) q' within
      (by rw [config]; exact ⟨rfl, alpha, by decide, by decide⟩) (by rw [config]; rfl) later taken
    rw [config] at shares
    exact ⟨s, q', within, positive, taken, marked_of_sharesOut shares long⟩
  · obtain ⟨⟨first, s⟩, leads, below, positive, later, long, takes⟩ := PrioWfq.shared_fills
    obtain ⟨fills, during⟩ := runs_of_shared (PrioWfq.keeping_follow wholePow) leads
    have within : PrioWfq.WithinLimit wholePow 20000 s :=
      ⟨first, _, ⟨⟨PrioWfq.twoQueues, PrioWfq.construct, 0⟩, _, ⟨rfl, le_rfl⟩, fills⟩, below,
        during⟩
    have config : s.config = PrioWfq.twoQueues :=
      (PrioWfq.config_of_run during.run).trans (PrioWfq.config_of_run fills)
    obtain ⟨q', taken⟩ := exists_taken takes
    rw [← config] at taken
    have shares := prioWfq s 3 (offered 2) q' 1 within
      (by rw [config]; exact ⟨rfl, alpha, by decide, by decide⟩) later (by rw [config]; rfl) taken
    rw [config] at shares
    exact ⟨s, q', within, positive, taken, marked_of_sharesOut shares long⟩
  · obtain ⟨⟨first, s⟩, leads, below, positive, later, long, takes⟩ := PrioDwrr.shared_fills
    obtain ⟨fills, during⟩ := runs_of_shared (PrioDwrr.keeping_follow wholePow 3) leads
    have within : PrioDwrr.WithinLimit wholePow 3000 s :=
      ⟨first, _, ⟨⟨PrioDwrr.twoQueues, PrioDwrr.construct, 0⟩, _, ⟨rfl, le_rfl⟩, fills⟩, below,
        during⟩
    have config : s.config = PrioDwrr.twoQueues :=
      (PrioDwrr.config_of_run during.run).trans (PrioDwrr.config_of_run fills)
    obtain ⟨q', taken⟩ := exists_taken takes
    rw [← config] at taken
    have shares := prioDwrr s 3 (offered 2) q' 1 within
      (by rw [config]; exact ⟨rfl, alpha, by decide, by decide⟩) later (by rw [config]; rfl) taken
    rw [config] at shares
    exact ⟨s, q', within, positive, taken, marked_of_sharesOut shares long⟩

end MqEcn.Ns2
