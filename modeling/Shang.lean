import Shang.Lib.Run
import Shang.Lib.RingBuffer
import Shang.Lib.Update
import Shang.Lib.Fair
import Shang.Primer.CondPool
import Shang.Btree.Glist
import Shang.Btree.GlistErrors
import Shang.Dsaac.Binheap
import Shang.Lib.Trie
import Shang.Btree.Retrieval
import Shang.Darr.Seqlist
import Shang.Darr.Status
import Shang.Stack.LinkStack
import Shang.Lib.Brackets
import Shang.Stack.Scanner
import Shang.Lib.Infix
import Shang.Lib.Arith
import Shang.Lib.Act
import Shang.Lib.Loop
import Shang.Lib.Places
import Shang.Lib.Merge
import Shang.Stack.Transform
import Shang.Stack.TransformEnds
import Shang.Stack.Caculate
import Shang.Stack.Computer
import Shang.Stack.ComputerExpr
import Shang.Stack.ComputerTrace
import Shang.Stack.ComputerCalls
import Shang.Stack.ComputerEnds
import Shang.Relayer.Fsm
import Shang.Relayer.Epoll
import Shang.Pool.Server
import Shang.Pool.Slots
import Shang.Pool.Sizing
import Shang.Pool.Trim
import Shang.Russian.Board
import Shang.Russian.Game
import Shang.Russian.Placement
import Shang.Lib.Rows
import Shang.Version1.Shapes
import Shang.Version1.Detect
import Shang.Version1.Mydraw
import Shang.Talk.Server
import Shang.Sort.Func
import Shang.Sort.Quick
import Shang.Sort.Merge
import Shang.Sort.Heap
import Shang.Lib.Inversions
import Shang.Sort.Insert
import Shang.Sort.Bubble
import Shang.Gyf.HeapSort
import Shang.Find.BinarySearch
import Shang.Talk.Delivery
import Shang.Mypipe.Pipe
import Shang.Btree.Tree
import Shang.Btree.Bintree
import Shang.Btree.Balance
import Shang.Btree.LevelOrder
import Shang.Lib.DList
import Shang.Lib.Nodes
import Shang.Lib.Josephus
import Shang.Linear.Josufu
import Shang.Lib.Terms
import Shang.Linear.Ploynoimal
import Shang.Lib.Pushed
import Shang.Linear.Sqlist
import Shang.Linear.Head
import Shang.Lib.Circle
import Shang.Llist.Llist
import Shang.Llist.Queue
import Shang.Lib.Stack
import Shang.Clock.BallClock
import Shang.Timer.SortTimerLst
import Shang.Timer.TwTimer
import Shang.Lib.Heap
import Shang.Timer.HeapTimer
import Shang.Http.Parser
import Shang.Lib.Memory
import Shang.Malloc.Heap
import Shang.Malloc.Tiling
import Shang.Malloc.Alloc
import Shang.Malloc.Release
import Shang.Malloc.Run
import Shang.Malloc.Realloc
import Shang.Malloc.Sizes
import Shang.Netradio.ChnList
import Shang.Netradio.ChnData
import Shang.Tbf.Bucket
import Shang.Tbf.SigMytbf
import Shang.Tbf.MtMytbf
import Shang.Tbf.Conservation
import Shang.Tbf.Lifecycle
import Shang.Anytimer.Job
import Shang.Anytimer.Signal
import Shang.Anytimer.Contract
import Shang.Anytimer.Threads
import Shang.Anytimer.SlotSafety
import Shang.Anytimer.Wakeup
import Shang.Myftp.UdpAck
import Shang.Russian.Copy
import Shang.Russian.Verify
import Shang.Http.Confinement
import Shang.Lib.Lines
import Shang.Homework.Delete
import Shang.Homework.YbxGetline
import Shang.Relayer.Nonblock
import Shang.Relayer.Ready
import Shang.Relayer.Select
import Shang.Day06.Atoi
import Shang.Talk.UserTable
import Shang.Gyf.BiTree
import Shang.Gyf.Traverse
import Shang.Gyf.InsertChild
import Shang.Llist.Reverse
import Shang.Day06.Myqsort
import Shang.Day06.Itoa
import Shang.Http.Requestline
import Shang.Lib.CString
import Shang.Lib.Chains
import Shang.Lib.LevelTree
import Shang.Lib.Scan
import Shang.Lib.Tree
import Shang.Memcached.Assoc
import Shang.Libevent.MinHeap
import Shang.Libevent.Timeout
import Shang.Libevent.TimeoutRuns
import Shang.Memcached.AssocRuns
import Shang.Libevent.Timers
import Shang.Lib.Tally
import Shang.Threadpool.PoolRuns
import Shang.Threadpool.Threadpool
import Shang.Btree.BintreeRuns
import Shang.Gyf.DeleteChild
import Shang.Lib.Queues
import Shang.Memcached.ItemAlloc
import Shang.Memcached.Store
import Shang.Memcached.StoreRuns
