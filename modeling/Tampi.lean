import Tampi.Theory.Compaction
import Tampi.Theory.Counting
import Tampi.Theory.Execution
import Tampi.Theory.HoleOrder
import Tampi.Theory.Ring
import Tampi.Theory.Transition
import Tampi.Model.Allocator
import Tampi.Model.Api
import Tampi.Model.Configuration
import Tampi.Model.Environment
import Tampi.Model.Interface
import Tampi.Model.MultiLockFreeQueue
import Tampi.Model.Operation
import Tampi.Model.Polling
import Tampi.Model.SpinLock
import Tampi.Model.System
import Tampi.Model.TicketManager
import Tampi.Spec.Lifecycle
import Tampi.Spec.Invariants
import Tampi.Verify.Agents
import Tampi.Verify.MultiLockFreeQueue
import Tampi.Verify.Pop
import Tampi.Verify.Fairness
import Tampi.Verify.Allocation
import Tampi.Verify.QueueCalls
import Tampi.Verify.SpinLock
import Tampi.Verify.Polling
import Tampi.Verify.Environment
import Tampi.Verify.Api
import Tampi.Verify.TestRequests
import Tampi.Verify.Compaction
import Tampi.Verify.Capacity
import Tampi.Verify.Abstraction
import Tampi.Verify.PollFrame
import Tampi.Verify.Submission
import Tampi.Verify.Transfer
import Tampi.Verify.Check
import Tampi.Verify.Moves
import Tampi.Verify.Poll
import Tampi.Verify.Simulation
import Tampi.Verify.Tracking
import Tampi.Verify.Order
import Tampi.Verify.Notification
import Tampi.Verify.Statuses
import Tampi.Verify.Handoff
import Tampi.Verify.InFlight
import Tampi.Verify.Testsome
import Tampi.Verify.CollQueue
import Tampi.Verify.Call
import Tampi.Verify.Returns
import Tampi.Verify.Completed
import Tampi.Verify.Objects
import Tampi.Verify.Batch
import Tampi.Verify.Partition
import Tampi.Verify.Sweep
import Tampi.Verify.Approaches
import Tampi.Verify.Stages
import Tampi.Verify.Delivery
import Tampi.Verify.QueueProgress
import Tampi.Verify.Rounds
import Tampi.Verify.Quiescence
import Tampi.Verify.Milestones
import Tampi.Verify.Drain
import Tampi.Verify.Saturation
import Tampi.Verify.StringSupport
import Tampi.Verify.Indices
import Tampi.Verify.Configuration
import Tampi.Verify.LockProgress
import Tampi.Verify.BoostLockFreeQueue
import Tampi.Verify.PushProgress
import Tampi.Verify.PollingModes
import Tampi.Verify.TaskingModel
import Tampi.Verify.Reporting
import Tampi.Verify.Service
