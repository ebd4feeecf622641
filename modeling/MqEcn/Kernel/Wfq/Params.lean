import MqEcn.Kernel.Qdisc
import MqEcn.Kernel.Sysctl

/-!
Contract: the sysctl parameters of `sch_wfq` (`params.h`, `params.c`).

Owns: the parameters, their position in the table, the handler `wfq_params_init`
gives each position, the settings after `wfq_params_init`, and the typed reading
of the weights and priorities.

Does not own: the scheduler that reads them.
-/

set_option autoImplicit false

namespace MqEcn.Kernel.Wfq

open MqEcn.Kernel.Sysctl
open MqEcn.Library.Word

/-- `wfq_params`, the global ones first. -/
inductive Param where
  | enableDebug
  | bufferMode
  | sharedBuffer
  | bucket
  | portThresh
  | ecnScheme
  | enableDequeueEcn
  | tcnThresh
  | codelTarget
  | codelInterval
  | queueThresh (queue : Fin 8)
  | queueDscp (queue : Fin 8)
  | queueWeight (queue : Fin 8)
  | queueBuffer (queue : Fin 8)
  | queuePrio (queue : Fin 8)
deriving DecidableEq

/-- `wfq_global_params`. -/
def globalParams : Nat := 10

/-- `wfq_max_queues`. -/
def maxQueues : Nat := 8

/-- Position of a parameter in `wfq_params`. -/
def Param.index : Param → Nat
  | .enableDebug => 0
  | .bufferMode => 1
  | .sharedBuffer => 2
  | .bucket => 3
  | .portThresh => 4
  | .ecnScheme => 5
  | .enableDequeueEcn => 6
  | .tcnThresh => 7
  | .codelTarget => 8
  | .codelInterval => 9
  | .queueThresh queue => globalParams + queue
  | .queueDscp queue => globalParams + queue + maxQueues
  | .queueWeight queue => globalParams + queue + 2 * maxQueues
  | .queueBuffer queue => globalParams + queue + 3 * maxQueues
  | .queuePrio queue => globalParams + queue + 4 * maxQueues

/-- The handler `wfq_params_init` gives table entry `index`. -/
def tableHandler (index : Nat) : Handler :=
  if index = 0 ∨ index = 6 then
    .minmax 0 1
  else if index = 1 then
    .minmax 0 1
  else if index = 5 then
    .minmax 0 5
  else if globalParams + maxQueues ≤ index ∧ index < globalParams + 2 * maxQueues then
    .minmax 0 ((1 <<< 6) - 1)
  else if globalParams + 2 * maxQueues ≤ index ∧ index < globalParams + 3 * maxQueues then
    .minmax 1 minPktBytes
  else if globalParams + 4 * maxQueues ≤ index then
    .minmax 0 7
  else
    .dointvec

def handler (param : Param) : Handler := tableHandler param.index

/-- The parameters as they stand at some time. -/
abbrev Params : Type := Settings handler

theorem handler_queueWeight (queue : Fin 8) : handler (.queueWeight queue) = .minmax 1 64 := by
  revert queue
  decide

theorem handler_queuePrio (queue : Fin 8) : handler (.queuePrio queue) = .minmax 0 7 := by
  revert queue
  decide

/-- The initial values of `params.c`, and those `wfq_params_init` writes. -/
def defaultValue : Param → Int
  | .enableDebug => 0
  | .bufferMode => 0
  | .sharedBuffer => maxBufferBytes
  | .bucket => 2500
  | .portThresh => 32000
  | .ecnScheme => 1
  | .enableDequeueEcn => 0
  | .tcnThresh => 250
  | .codelTarget => 100
  | .codelInterval => 2000
  | .queueThresh _ => 32000
  | .queueDscp queue => queue
  | .queueWeight _ => 1
  | .queueBuffer _ => maxBufferBytes
  | .queuePrio _ => 0

/-- `wfq_params_init`: every default passes its own handler. -/
def paramsInit : Params where
  value := defaultValue
  admissible := by
    intro param
    cases param with
    | queueThresh queue | queueDscp queue | queueWeight queue | queueBuffer queue
    | queuePrio queue =>
        revert queue
        decide
    | _ => decide

namespace Params

/-- `(u32)wfq_queue_weight[i]`. -/
def queueWeight (params : Params) (queue : Fin 8) : Nat :=
  u32OfInt (params.value (.queueWeight queue))

private theorem toNat_queuePrio_lt (params : Params) (queue : Fin 8) :
    (params.value (.queuePrio queue)).toNat < 8 := by
  have admits := params.admissible (.queuePrio queue)
  rw [handler_queuePrio] at admits
  simp only [Handler.Admits] at admits
  omega

/-- `wfq_queue_prio[i]`, an index of the per-priority arrays. -/
def queuePrio (params : Params) (queue : Fin 8) : Fin 8 :=
  ⟨(params.value (.queuePrio queue)).toNat, params.toNat_queuePrio_lt queue⟩

/-- The sysctl range of the weight reaches the scheduler. -/
theorem queueWeight_range (params : Params) (queue : Fin 8) :
    0 < params.value (.queueWeight queue) ∧
      1 ≤ params.queueWeight queue ∧ params.queueWeight queue ≤ 64 := by
  have admits := params.admissible (.queueWeight queue)
  rw [handler_queueWeight] at admits
  simp only [Handler.Admits] at admits
  unfold queueWeight u32OfInt
  omega

end Params

end MqEcn.Kernel.Wfq
