import Wss.ChaseLev.Atomic
import Wss.ChaseLev.Buffer
import Wss.ChaseLev.Failure
import Wss.ChaseLev.InFlight
import Wss.ChaseLev.InOrder
import Wss.ChaseLev.Invariant
import Wss.ChaseLev.Linear
import Wss.ChaseLev.Model
import Wss.ChaseLev.Ordered
import Wss.ChaseLev.Refine
import Wss.ChaseLev.Relaxed
import Wss.ChaseLev.Retained
import Wss.ChaseLev.Sequential
import Wss.ChaseLev.WaitFree
import Wss.Failure
import Wss.Fair.Account
import Wss.Fair.Consistent
import Wss.Fair.Drain
import Wss.Fair.Effect
import Wss.Fair.Failure
import Wss.Fair.Fairness
import Wss.Fair.Finish
import Wss.Fair.Floor
import Wss.Fair.Join
import Wss.Fair.Model
import Wss.Fair.Potential
import Wss.Fair.Sleep
import Wss.Fair.Stale
import Wss.Fair.Step
import Wss.Fair.Tables
import Wss.Fair.Turn
import Wss.Fair.Weights
import Wss.Handle.Finished
import Wss.Handle.Lifetime
import Wss.Handle.Linear
import Wss.Handle.Model
import Wss.Lib.Doorbell
import Wss.Lib.Ieee
import Wss.Lib.JobPool
import Wss.Lib.Ledger
import Wss.Lib.Linearize
import Wss.Lib.Machine
import Wss.Lib.Mass
import Wss.Lib.Multimap
import Wss.Lib.Mutex
import Wss.Lib.Rank
import Wss.Lib.Shared
import Wss.Lib.Simulate
import Wss.Lib.Slice
import Wss.Lib.StoreBuffer
import Wss.Lib.Throwing
import Wss.Lifecycle.Model
import Wss.Lifecycle.Teardown
import Wss.Monitor.Account
import Wss.Monitor.Capacity
import Wss.Monitor.Cores
import Wss.Monitor.Drain
import Wss.Monitor.Finish
import Wss.Monitor.GlobalQueue
import Wss.Monitor.Model
import Wss.Monitor.Nested
import Wss.Monitor.RoundRobin
import Wss.Monitor.Shutdown
import Wss.Monitor.Step
import Wss.Monitor.Supply
import Wss.Monitor.Target
import Wss.Monitor.ThreadPerCore
import Wss.Priority
import Wss.Shutdown
import Wss.Spawn.Account
import Wss.Spawn.Backend
import Wss.Spawn.Backends.Fair
import Wss.Spawn.Backends.Monitor
import Wss.Spawn.Backends.WorkStealing
import Wss.Spawn.Cancellation
import Wss.Spawn.Closure
import Wss.Spawn.Laws
import Wss.Spawn.Metrics
import Wss.Spawn.Model
import Wss.Spawn.Outcome
import Wss.Spawn.Pool
import Wss.Spawn.Pools
import Wss.WorkStealing.Account
import Wss.WorkStealing.BatchFailure
import Wss.WorkStealing.Drain
import Wss.WorkStealing.Failure
import Wss.WorkStealing.Filed
import Wss.WorkStealing.Finish
import Wss.WorkStealing.Injector
import Wss.WorkStealing.Inversion
import Wss.WorkStealing.Local
import Wss.WorkStealing.Model
import Wss.WorkStealing.Own
import Wss.WorkStealing.Sleep
import Wss.WorkStealing.Step
import Wss.WorkStealing.Stuck
import Wss.WorkStealing.Throwing
