import ThreadPools.Posix.Idleness
import ThreadPools.Posix.Fate
import ThreadPools.Posix.Submitters
import ThreadPools.Posix.LockOrder
import ThreadPools.Posix.Blocking
import ThreadPools.Posix.Finality
import ThreadPools.Posix.Reentrance
import ThreadPools.Posix.Progress
import ThreadPools.Posix.Deadline
import ThreadPools.Posix.Unwinding
import ThreadPools.Posix.Destructor
import ThreadPools.Posix.Slot
import ThreadPools.LockQueue.Rest
import ThreadPools.AlarmCond.Order
import ThreadPools.AlarmCond.Longest
import ThreadPools.Boost.Notification
import ThreadPools.Boost.Deadlock
import ThreadPools.Boost.Fate
import ThreadPools.Boost.Observers
import ThreadPools.Boost.WaitFor
import ThreadPools.Boost.Destructor
import ThreadPools.Boost.Execute
import ThreadPools.Boost.LifeCycle
import ThreadPools.PriorityScheduler.Stop
import ThreadPools.PriorityScheduler.Work
import ThreadPools.Agentpp.Synchronized
import ThreadPools.Agentpp.Order
import ThreadPools.Agentpp.OneTime
import ThreadPools.Agentpp.Fate
import ThreadPools.QuickSort.Sorting
import ThreadPools.QuickSort.Progress
import ThreadPools.Agreement
import ThreadPools.Machines.PriorityQueue
import ThreadPools.PriorityScheduler.Order
import ThreadPools.PingPong.Ending
import ThreadPools.SharedMutex.Clients
import ThreadPools.SharedMutex.Completion
import ThreadPools.Posix.Exhaustion
import ThreadPools.SpscQueue
