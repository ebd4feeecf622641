import MqEcn.Kernel.Qdisc
import MqEcn.Kernel.Sysctl

/-!
Contract: the sysctl parameters of `sch_dwrr` (`params.h`, `params.c`).

Owns: the parameters, their position in the table, the handler `dwrr_params_init`
gives each position, the settings after `dwrr_params_init`, and the typed reading
of the settings that index arrays or are converted to unsigned integers.

Does not own: the scheduler that reads them.
-/

set_option autoImplicit false

namespace MqEcn.Kernel.Dwrr

open MqEcn.Kernel.Sysctl
open MqEcn.Library.Word

/-- `dwrr_params`, the global ones first. -/
inductive Param where
  | enableDebug
  | bufferMode
  | sharedBuffer
  | bucket
  | portThresh
  | ecnScheme
  | roundAlpha
  | idleIntervalNs
  | enableWrr
  | enableDequeueEcn
  | tcnThresh
  | codelTarget
  | codelInterval
  | queueThresh (queue : Fin 8)
  | queueDscp (queue : Fin 8)
  | queueQuantum (queue : Fin 8)
  | queueBuffer (queue : Fin 8)
  | queuePrio (queue : Fin 8)
deriving DecidableEq

/-- `dwrr_global_params`. -/
def globalParams : Nat := 13

/-- `dwrr_max_queues`. -/
def maxQueues : Nat := 8

/-- Position of a parameter in `dwrr_params`. -/
def Param.index : Param → Nat
  | .enableDebug => 0
  | .bufferMode => 1
  | .sharedBuffer => 2
  | .bucket => 3
  | .portThresh => 4
  | .ecnScheme => 5
  | .roundAlpha => 6
  | .idleIntervalNs => 7
  | .enableWrr => 8
  | .enableDequeueEcn => 9
  | .tcnThresh => 10
  | .codelTarget => 11
  | .codelInterval => 12
  | .queueThresh queue => globalParams + queue
  | .queueDscp queue => globalParams + queue + maxQueues
  | .queueQuantum queue => globalParams + queue + 2 * maxQueues
  | .queueBuffer queue => globalParams + queue + 3 * maxQueues
  | .queuePrio queue => globalParams + queue + 4 * maxQueues

/-- The handler `dwrr_params_init` gives table entry `index`. -/
def tableHandler (index : Nat) : Handler :=
  if index = 0 ∨ index = 8 ∨ index = 9 then
    .minmax 0 1
  else if index = 1 then
    .minmax 0 1
  else if index = 5 then
    .minmax 0 5
  else if index = 6 then
    .minmax 0 (1 <<< 10)
  else if globalParams + maxQueues ≤ index ∧ index < globalParams + 2 * maxQueues then
    .minmax 0 ((1 <<< 6) - 1)
  else if globalParams + 2 * maxQueues ≤ index ∧ index < globalParams + 3 * maxQueues then
    .minmax maxPktBytes (200 <<< 10)
  else if globalParams + 4 * maxQueues ≤ index then
    .minmax 0 7
  else
    .dointvec

/-- The handler of a parameter. -/
def handler (param : Param) : Handler := tableHandler param.index

/-- The parameters as they stand at some time. -/
abbrev Params : Type := Settings handler

private theorem handler_queueQuantum (queue : Fin 8) :
    handler (.queueQuantum queue) = .minmax 1538 204800 := by
  revert queue
  decide

private theorem handler_queuePrio (queue : Fin 8) : handler (.queuePrio queue) = .minmax 0 7 := by
  revert queue
  decide

/-- The initial values of `params.c`, and those `dwrr_params_init` writes. -/
def defaultValue : Param → Int
  | .enableDebug => 0
  | .bufferMode => 0
  | .sharedBuffer => maxBufferBytes
  | .bucket => 2500
  | .portThresh => 32000
  | .ecnScheme => 1
  | .roundAlpha => (3 <<< 10) / 4
  | .idleIntervalNs => 12000
  | .enableWrr => 0
  | .enableDequeueEcn => 0
  | .tcnThresh => 250
  | .codelTarget => 100
  | .codelInterval => 2000
  | .queueThresh _ => 32000
  | .queueDscp queue => queue
  | .queueQuantum _ => maxPktBytes
  | .queueBuffer _ => maxBufferBytes
  | .queuePrio _ => 0

/-- `dwrr_params_init`: every default passes its own handler. -/
def paramsInit : Params where
  value := defaultValue
  admissible := by
    intro param
    cases param with
    | queueThresh queue | queueDscp queue | queueQuantum queue | queueBuffer queue
    | queuePrio queue =>
        revert queue
        decide
    | _ => decide

namespace Params

/-- `dwrr_queue_quantum[i]`, read into a `u32`. -/
def queueQuantum (params : Params) (queue : Fin 8) : Nat :=
  u32OfInt (params.value (.queueQuantum queue))

private theorem toNat_queuePrio_lt (params : Params) (queue : Fin 8) :
    (params.value (.queuePrio queue)).toNat < 8 := by
  have admits := params.admissible (.queuePrio queue)
  rw [handler_queuePrio] at admits
  simp only [Handler.Admits] at admits
  omega

/-- `dwrr_queue_prio[i]`, an index of the per-priority arrays. -/
def queuePrio (params : Params) (queue : Fin 8) : Fin 8 :=
  ⟨(params.value (.queuePrio queue)).toNat, params.toNat_queuePrio_lt queue⟩

/-- The sysctl range of the quantum reaches the scheduler. -/
theorem queueQuantum_range (params : Params) (queue : Fin 8) :
    1538 ≤ params.queueQuantum queue ∧ params.queueQuantum queue ≤ 204800 := by
  have admits := params.admissible (.queueQuantum queue)
  rw [handler_queueQuantum] at admits
  simp only [Handler.Admits] at admits
  unfold queueQuantum u32OfInt
  omega

end Params

end MqEcn.Kernel.Dwrr
