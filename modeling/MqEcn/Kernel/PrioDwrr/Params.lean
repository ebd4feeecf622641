import MqEcn.Kernel.Qdisc
import MqEcn.Kernel.Sysctl

/-!
Contract: the sysctl parameters of `sch_prio_dwrr` (`params.h`, `params.c`).

Owns: the parameters, their position in the table, the handler
`prio_dwrr_qdisc_params_init` gives each position, the settings it leaves, and the ranges
that reach the scheduler.

Does not own: the scheduler that reads them.
-/

set_option autoImplicit false

namespace MqEcn.Kernel.PrioDwrr

open MqEcn.Kernel.Sysctl
open MqEcn.Library.Word

/-- `PRIO_DWRR_QDISC_Params`, the global ones first. -/
inductive Param where
  | debugMode
  | bufferMode
  | sharedBufferBytes
  | bucketNs
  | portThreshBytes
  | ecnScheme
  | quantumAlpha
  | roundAlpha
  | idleIntervalNs
  | queueThreshBytes (queue : Fin 8)
  | queueDscp (queue : Fin 8)
  | queueBufferBytes (queue : Fin 8)
  | queueQuantum (queue : Fin 7)
deriving DecidableEq

/-- `PRIO_DWRR_QDISC_MAX_PRIO_QUEUES`. -/
def maxPrioQueues : Nat := 1

/-- `PRIO_DWRR_QDISC_MAX_DWRR_QUEUES`. -/
def maxDwrrQueues : Nat := 7

/-- `PRIO_DWRR_QDISC_MAX_QUEUES`. -/
def maxQueues : Nat := maxPrioQueues + maxDwrrQueues

/-- Position of a parameter in `PRIO_DWRR_QDISC_Params`. -/
def Param.index : Param → Nat
  | .debugMode => 0
  | .bufferMode => 1
  | .sharedBufferBytes => 2
  | .bucketNs => 3
  | .portThreshBytes => 4
  | .ecnScheme => 5
  | .quantumAlpha => 6
  | .roundAlpha => 7
  | .idleIntervalNs => 8
  | .queueThreshBytes queue => 9 + queue
  | .queueDscp queue => 9 + queue + maxQueues
  | .queueBufferBytes queue => 9 + queue + 2 * maxQueues
  | .queueQuantum queue => 9 + queue + 3 * maxQueues

/-- The handler `prio_dwrr_qdisc_params_init` gives table entry `index`. -/
def tableHandler (index : Nat) : Handler :=
  if index = 0 then
    .minmax 0 1
  else if index = 1 then
    .minmax 0 1
  else if index = 5 then
    .minmax 0 5
  else if index = 6 then
    .minmax 0 1000
  else if index = 7 then
    .minmax 0 1000
  else if 9 + maxQueues ≤ index ∧ index < 9 + 2 * maxQueues then
    .minmax 0 63
  else if 9 + 3 * maxQueues ≤ index then
    .minmax maxPktBytes (200 * 1024)
  else
    .dointvec

/-- The handler of a parameter. -/
def handler (param : Param) : Handler := tableHandler param.index

/-- The parameters as they stand at some time. -/
abbrev Params : Type := Settings handler

private theorem handler_queueQuantum (queue : Fin 7) :
    handler (.queueQuantum queue) = .minmax 1538 204800 := by
  revert queue
  decide

/-- The initial values of `params.c`, and those `prio_dwrr_qdisc_params_init` writes. -/
def defaultValue : Param → Int
  | .debugMode => 0
  | .bufferMode => 0
  | .sharedBufferBytes => maxBufferBytes
  | .bucketNs => 20000
  | .portThreshBytes => 30000
  | .ecnScheme => 1
  | .quantumAlpha => 750
  | .roundAlpha => 750
  | .idleIntervalNs => 12000
  | .queueThreshBytes _ => 30000
  | .queueDscp queue => queue
  | .queueBufferBytes _ => maxBufferBytes
  | .queueQuantum _ => maxPktBytes

/-- `prio_dwrr_qdisc_params_init`: every default passes its own handler. -/
def paramsInit : Params where
  value := defaultValue
  admissible := by
    intro param
    cases param with
    | queueThreshBytes queue | queueDscp queue | queueBufferBytes queue | queueQuantum queue =>
        revert queue
        decide
    | _ => decide

namespace Params

/-- `PRIO_DWRR_QDISC_QUEUE_QUANTUM[i]`, read into a `u32`. -/
def queueQuantum (params : Params) (queue : Fin 7) : Nat :=
  u32OfInt (params.value (.queueQuantum queue))

/-- The sysctl range of the quantum reaches the scheduler. -/
theorem queueQuantum_range (params : Params) (queue : Fin 7) :
    1538 ≤ params.queueQuantum queue ∧ params.queueQuantum queue ≤ 204800 := by
  have admits := params.admissible (.queueQuantum queue)
  rw [handler_queueQuantum] at admits
  simp only [Handler.Admits] at admits
  unfold queueQuantum u32OfInt
  omega

/-- The range of the two smoothing factors. -/
theorem alpha_range (params : Params) :
    (0 ≤ params.value .quantumAlpha ∧ params.value .quantumAlpha ≤ 1000) ∧
      0 ≤ params.value .roundAlpha ∧ params.value .roundAlpha ≤ 1000 :=
  ⟨params.admissible .quantumAlpha, params.admissible .roundAlpha⟩

end Params

end MqEcn.Kernel.PrioDwrr
