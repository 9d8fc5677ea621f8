import MulticorePrac.Lib.Machine
import MulticorePrac.Lib.Chain
import MulticorePrac.Mvcc.Model
import MulticorePrac.Mvcc.Invariant
import MulticorePrac.Mvcc.Threads
import MulticorePrac.Mvcc.Gc
import MulticorePrac.Mvcc.Snapshot
import MulticorePrac.Mvcc.Overflow
import MulticorePrac.Mvcc.Lists
import MulticorePrac.Mvcc.RefMin
import MulticorePrac.BufPool.Model
import MulticorePrac.BufPool.Invariant
import MulticorePrac.BufPool.Error
import MulticorePrac.BufPool.Parallel
import MulticorePrac.House.Graph
import MulticorePrac.House.Strip
import MulticorePrac.House.Model
import MulticorePrac.House.Search
import MulticorePrac.House.Workers
import MulticorePrac.House.Answer
import MulticorePrac.Lib.Bfs
import MulticorePrac.Meet.Model
import MulticorePrac.Meet.Search
import MulticorePrac.Meet.Depths
import MulticorePrac.Meet.Distance
import MulticorePrac.Meet.Classify
import MulticorePrac.Meet.Limits
import MulticorePrac.Meet.Narrow
import MulticorePrac.Meet.Fences
import MulticorePrac.Meet.Result
import MulticorePrac.Meet.QueueBound
import MulticorePrac.Lib.Atomic
import MulticorePrac.Lib.Path
import MulticorePrac.ListSet.Spec
import MulticorePrac.Lib.LockOrder
import MulticorePrac.ListSet.Locking
import MulticorePrac.ListSet.FineInvariant
import MulticorePrac.ListSet.FineSteps
import MulticorePrac.ListSet.FineLinear
import MulticorePrac.Lib.Trail
import MulticorePrac.ListSet.OptModel
import MulticorePrac.ListSet.OptInvariant
import MulticorePrac.ListSet.OptSteps
import MulticorePrac.ListSet.OptLinear
import MulticorePrac.Locks.MyMutex
import MulticorePrac.Locks.RwLock
import MulticorePrac.Locks.Peterson
import MulticorePrac.Timer.Printer
import MulticorePrac.House.VectorPool
import MulticorePrac.House.Cores
import MulticorePrac.Queue.LfQueue
import MulticorePrac.ListSet.Deadlock
import MulticorePrac.Locks.Clh
import MulticorePrac.Lib.Rounds
import MulticorePrac.ListSet.Heap
import MulticorePrac.ListSet.Sequential
import MulticorePrac.ListSet.Sentinels
import MulticorePrac.ListSet.Coarse
import MulticorePrac.Lib.Team
import MulticorePrac.Lib.Tso
import MulticorePrac.MultiBfs.Model
import MulticorePrac.MultiBfs.Barrier
import MulticorePrac.MultiBfs.BarrierSteps
import MulticorePrac.MultiBfs.Progress
import MulticorePrac.MultiBfs.Refine
import MulticorePrac.MultiBfs.Levels
import MulticorePrac.MultiBfs.Calls
import MulticorePrac.Lib.Fair
import MulticorePrac.MultiBfs.Work
import MulticorePrac.MultiBfs.Ends
import MulticorePrac.MultiBfs.Prints
import MulticorePrac.Lib.Workload
import MulticorePrac.ListSet.Program
import MulticorePrac.ListSet.FineProgram
import MulticorePrac.ListSet.OptProgram
