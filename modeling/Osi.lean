import Osi.Alarm.Arithmetic
import Osi.Alarm.Bounded
import Osi.Alarm.Cancel
import Osi.Alarm.Cleanup
import Osi.Alarm.Deadline
import Osi.Alarm.Definitions
import Osi.Alarm.Effect
import Osi.Alarm.FailedWakelock
import Osi.Alarm.Faithful
import Osi.Alarm.History
import Osi.Alarm.KernelCalls
import Osi.Alarm.Locking
import Osi.Alarm.Order
import Osi.Alarm.Periodic
import Osi.Alarm.Pipeline
import Osi.Alarm.Record
import Osi.Alarm.Reentry
import Osi.Alarm.Representation.Invariant
import Osi.Alarm.Representation.Runs
import Osi.Alarm.Rescheduling
import Osi.Alarm.Sections
import Osi.Alarm.Stale
import Osi.Alarm.System
import Osi.Alarm.Threads
import Osi.Alarm.Timely
import Osi.Alarm.Tracking
import Osi.Alarm.Wakelock
import Osi.Alarm.Wakeup
import Osi.Alarm.Wellformed
import Osi.AllocationTracker.Basic
import Osi.AllocationTracker.LiveSet
import Osi.AllocationTracker.Reset
import Osi.Allocator.Basic
import Osi.Allocator.Contents
import Osi.Allocator.Epochs
import Osi.Allocator.Lifetime
import Osi.Array.Basic
import Osi.Array.Bounds
import Osi.Array.Contents
import Osi.Buffer.Basic
import Osi.Buffer.Counting.Handles
import Osi.Buffer.Counting.Invariant
import Osi.Buffer.Counting.Runs
import Osi.CString.Buffer
import Osi.CString.Numeral
import Osi.CString.Token
import Osi.Collection.Arrival
import Osi.Collection.Insertion
import Osi.Collection.Keyed
import Osi.Collection.Last
import Osi.Collection.Ring
import Osi.Collection.Trim
import Osi.Config.Definitions
import Osi.Config.InPlace
import Osi.Config.Integers
import Osi.Config.Parsing
import Osi.Config.Persistence
import Osi.Config.Reference
import Osi.Config.RoundTrip
import Osi.Config.Saving
import Osi.Config.Sections
import Osi.Config.Store
import Osi.Config.Text
import Osi.Config.Typed
import Osi.Construction.Conservation
import Osi.Construction.Operations
import Osi.Construction.Queues
import Osi.Construction.Readers
import Osi.Construction.Specs.Operations
import Osi.Construction.Specs.Queues
import Osi.Construction.Specs.Reactors
import Osi.Construction.Specs.Readers
import Osi.Construction.Specs.Threads
import Osi.Construction.Threads
import Osi.DataDispatcher.Routing
import Osi.EagerReader.Basic
import Osi.EagerReader.Delivery
import Osi.EagerReader.Lifetime.Basic
import Osi.EagerReader.Lifetime.Buffers
import Osi.EagerReader.Lifetime.Return
import Osi.EagerReader.Lifetime.Steps
import Osi.FixedQueue.Basic
import Osi.FixedQueue.Capacity
import Osi.FixedQueue.Eventfd.Basic
import Osi.FixedQueue.Eventfd.Calls
import Osi.FixedQueue.Eventfd.Counter
import Osi.FixedQueue.Eventfd.Refinement
import Osi.FixedQueue.Interleaving.Basic
import Osi.FixedQueue.Interleaving.Invariant
import Osi.FixedQueue.Interleaving.Runs
import Osi.FixedQueue.Order
import Osi.FixedQueue.Refinement
import Osi.FixedQueue.Usage
import Osi.Future.Basic
import Osi.Future.Completion
import Osi.Future.Handoff.Await
import Osi.Future.Handoff.Create
import Osi.Future.Handoff.Ready
import Osi.Future.Handoff.Runs
import Osi.Future.Handoff.Stages
import Osi.HashMap.Basic
import Osi.HashMap.Clear
import Osi.HashMap.Failure
import Osi.HashMap.InMemory
import Osi.HashMap.Ownership.Calls
import Osi.HashMap.Ownership.Entries
import Osi.HashMap.Ownership.Pairs
import Osi.HashMap.Ownership.Runs
import Osi.HashMap.Refinement.Entries
import Osi.HashMap.Refinement.Iteration
import Osi.HashMap.Refinement.Wellformed
import Osi.HashMap.StringParams
import Osi.LinkedList.Basic
import Osi.LinkedList.Foreach
import Osi.LinkedList.Iteration.Callback
import Osi.LinkedList.Iteration.Cursor
import Osi.LinkedList.Iteration.Edits
import Osi.LinkedList.Iteration.Runs
import Osi.LinkedList.Refinement.Nodes
import Osi.LinkedList.Refinement.Removal
import Osi.LinkedList.Refinement.Sequence
import Osi.Memory.Extent
import Osi.Memory.Heap
import Osi.Memory.Segment
import Osi.Metrics.Basic
import Osi.Metrics.Delivery
import Osi.Ownership.Triple
import Osi.Reactor.Basic
import Osi.Reactor.Effect
import Osi.Reactor.Ownership
import Osi.Reactor.Serving
import Osi.Reactor.Unregistering
import Osi.RingBuffer.Basic
import Osi.RingBuffer.Refinement
import Osi.Semaphore.Atomic
import Osi.Semaphore.Eventfd
import Osi.Thread.Basic
import Osi.Thread.Items
import Osi.Thread.Join
import Osi.Thread.Lifetime.Basic
import Osi.Thread.Lifetime.Invariant
import Osi.Thread.Lifetime.Preservation
import Osi.Thread.Lifetime.Release
import Osi.Thread.Lifetime.SelfJoin
import Osi.Thread.Lifetime.Steps
import Osi.Thread.Shutdown.LastLoop
import Osi.Thread.Shutdown.Order
import Osi.Thread.Shutdown.Posts
import Osi.Thread.Shutdown.Runs
import Osi.Thread.Shutdown.Steps
import Osi.Thread.Teardown.Alone
import Osi.Thread.Teardown.Free
import Osi.Thread.Teardown.Ready
import Osi.Thread.Teardown.Returns
import Osi.Transition.Calls
import Osi.Transition.Run
import Osi.Transition.Simulation
import Osi.Transition.Threads
import Osi.Wakelock.Basic
import Osi.Wakelock.Native
import Osi.Wakelock.Reports
import Osi.Wakelock.Statistics
