import MqEcn.Library.Word
import MqEcn.Library.FixedPoint
import MqEcn.Library.InverseSqrt
import MqEcn.Library.Transition
import MqEcn.Library.Since
import MqEcn.Library.Accounting
import MqEcn.Library.Selection
import MqEcn.Library.LinkedList
import MqEcn.Library.ActiveRing
import MqEcn.Library.Visits
import MqEcn.Library.Decay
import MqEcn.Library.TokenBucket
import MqEcn.Library.DeficitRoundRobin
import MqEcn.Library.RingFairness
import MqEcn.Library.FinishTime
import MqEcn.Library.RingSchedule
import MqEcn.Library.FifoHistory
import MqEcn.Library.Smoothing
import MqEcn.Kernel.Qdisc
import MqEcn.Kernel.Rate
import MqEcn.Kernel.Codel
import MqEcn.Kernel.Marker
import MqEcn.Kernel.Ledger
import MqEcn.Kernel.Sysctl
import MqEcn.Kernel.Dwrr.Params
import MqEcn.Kernel.Dwrr.Model
import MqEcn.Kernel.Dwrr.Step
import MqEcn.Kernel.Dwrr.Bookkeeping
import MqEcn.Kernel.Dwrr.Loop
import MqEcn.Kernel.Dwrr.Shaping
import MqEcn.Kernel.Dwrr.Polling
import MqEcn.Kernel.Dwrr.Fairness
import MqEcn.Kernel.Dwrr.Threshold
import MqEcn.Kernel.Dwrr.Interval
import MqEcn.Kernel.Dwrr.Wrr
import MqEcn.Kernel.Dwrr.RoundTime
import MqEcn.Kernel.Dwrr.Reset
import MqEcn.Kernel.Dwrr.Isolation
import MqEcn.Kernel.Dwrr.Schedule
import MqEcn.Kernel.Prio.Model
import MqEcn.Kernel.Prio.Step
import MqEcn.Kernel.Prio.Bookkeeping
import MqEcn.Kernel.Prio.Shaping
import MqEcn.Kernel.PrioDwrr.Params
import MqEcn.Kernel.PrioDwrr.Model
import MqEcn.Kernel.PrioDwrr.Step
import MqEcn.Kernel.PrioDwrr.Bookkeeping
import MqEcn.Kernel.PrioDwrr.Shaping
import MqEcn.Kernel.PrioDwrr.Threshold
import MqEcn.Kernel.PrioDwrr.Idle
import MqEcn.Kernel.PrioDwrr.Schedule
import MqEcn.Kernel.PrioDwrr.Fairness
import MqEcn.Kernel.PrioWfq.Params
import MqEcn.Kernel.PrioWfq.Model
import MqEcn.Kernel.PrioWfq.Step
import MqEcn.Kernel.PrioWfq.Bookkeeping
import MqEcn.Kernel.PrioWfq.Shaping
import MqEcn.Kernel.Wfq.Params
import MqEcn.Kernel.Wfq.Model
import MqEcn.Kernel.Wfq.Step
import MqEcn.Kernel.Wfq.Bookkeeping
import MqEcn.Kernel.Wfq.VirtualTime
import MqEcn.Kernel.Wfq.Invariant
import MqEcn.Kernel.Wfq.Shaping
import MqEcn.Kernel.Wfq.Translation
import MqEcn.Kernel.Wfq.Fairness
import MqEcn.Kernel.Shaping
import MqEcn.Kernel.Timer
import MqEcn.Kernel.Division
import MqEcn.Kernel.CodelRange
import MqEcn.Kernel.Passage
import MqEcn.Kernel.Delivery
import MqEcn.Kernel.Latency
import MqEcn.Kernel.PrioWfq.Mirror
import MqEcn.Kernel.PrioWfq.Simulation
import MqEcn.Kernel.PrioWfq.Fairness
import MqEcn.Ns2.PacketQueue
import MqEcn.Ns2.DrainRate
import MqEcn.Ns2.Wfq.Model
import MqEcn.Ns2.Wfq.Step
import MqEcn.Ns2.Wfq.Fairness
import MqEcn.Ns2.Dwrr.Model
import MqEcn.Ns2.Dwrr.Step
import MqEcn.Ns2.Dwrr.Invariant
import MqEcn.Ns2.Dwrr.Schedule
import MqEcn.Ns2.Dwrr.Fairness
import MqEcn.Ns2.Sums
import MqEcn.Ns2.Marking
import MqEcn.Ns2.Wfq.Threshold
import MqEcn.Ns2.Dwrr.Threshold
import MqEcn.Ns2.PrioDwrr.Model
import MqEcn.Ns2.PrioDwrr.Idle
import MqEcn.Ns2.StrictPriority
import MqEcn.Ns2.PrioDwrr.Schedule
import MqEcn.Ns2.PrioDwrr.Fairness
import MqEcn.Ns2.PrioWfq.Model
import MqEcn.Ns2.PrioWfq.Schedule
import MqEcn.Ns2.PrioWfq.Fairness
import MqEcn.Ns2.PrioWfq.Threshold
import MqEcn.Ns2.Wrr.Model
import MqEcn.Ns2.Wrr.Step
import MqEcn.Ns2.Wrr.Visits
import MqEcn.Ns2.Priority.Model
import MqEcn.Ns2.Departures
import MqEcn.Ns2.Passage
import MqEcn.Ns2.Readings
import MqEcn.Ns2.Delivery
import MqEcn.Ns2.PrioDwrr.Threshold
import MqEcn.Ns2.Thresholds
import MqEcn.Ns2.RoundDecay
import MqEcn.Comparison.Schedule
import MqEcn.Comparison.IdleDecay
