import MqEcn.Kernel.Qdisc
import MqEcn.Kernel.Sysctl

/-!
Contract: the sysctl parameters of `sch_prio` (`params.h`, `params.c`).

Owns: the parameters, their position in the table, the handler `prio_qdisc_params_init`
gives each position, and the settings it leaves.

Does not own: the scheduler that reads them.
-/

set_option autoImplicit false

namespace MqEcn.Kernel.Prio

open MqEcn.Kernel.Sysctl

/-- `PRIO_QDISC_Params`, the global ones first. -/
inductive Param where
  | debugMode
  | bufferMode
  | sharedBufferBytes
  | bucketNs
  | portThreshBytes
  | ecnScheme
  | queueThreshBytes (queue : Fin 8)
  | queueDscp (queue : Fin 8)
  | queueBufferBytes (queue : Fin 8)
deriving DecidableEq

/-- `PRIO_QDISC_MAX_QUEUES`. -/
def maxQueues : Nat := 8

/-- Position of a parameter in `PRIO_QDISC_Params`. -/
def Param.index : Param → Nat
  | .debugMode => 0
  | .bufferMode => 1
  | .sharedBufferBytes => 2
  | .bucketNs => 3
  | .portThreshBytes => 4
  | .ecnScheme => 5
  | .queueThreshBytes queue => 6 + queue
  | .queueDscp queue => 6 + queue + maxQueues
  | .queueBufferBytes queue => 6 + queue + 2 * maxQueues

/-- The handler `prio_qdisc_params_init` gives table entry `index`. -/
def tableHandler (index : Nat) : Handler :=
  if index = 0 then
    .minmax 0 1
  else if index = 1 then
    .minmax 0 1
  else if index = 5 then
    .minmax 0 3
  else if 6 + maxQueues ≤ index ∧ index < 6 + 2 * maxQueues then
    .minmax 0 63
  else
    .dointvec

/-- The handler of a parameter. -/
def handler (param : Param) : Handler := tableHandler param.index

/-- The parameters as they stand at some time. -/
abbrev Params : Type := Settings handler

/-- The initial values of `params.c`, and those `prio_qdisc_params_init` writes. -/
def defaultValue : Param → Int
  | .debugMode => 0
  | .bufferMode => 0
  | .sharedBufferBytes => maxBufferBytes
  | .bucketNs => 20000
  | .portThreshBytes => 30000
  | .ecnScheme => 1
  | .queueThreshBytes _ => 30000
  | .queueDscp queue => queue
  | .queueBufferBytes _ => maxBufferBytes

/-- Every default passes its own handler. -/
theorem defaultValue_admissible (param : Param) : (handler param).Admits (defaultValue param) := by
  cases param with
  | queueThreshBytes queue | queueDscp queue | queueBufferBytes queue =>
      revert queue
      decide
  | _ => decide

/-- `prio_qdisc_params_init`. -/
def paramsInit : Params := ⟨defaultValue, defaultValue_admissible⟩

end MqEcn.Kernel.Prio
