import Learncc.Lib.Run
import Learncc.Lib.Calls
import Learncc.Lib.Linearize
import Learncc.Lib.Effect
import Learncc.Lib.Fair
import Learncc.Lib.Waiters
import Learncc.Lib.Tiles
import Learncc.Lib.Intervals
import Learncc.Lib.Placement
import Learncc.Lib.Cells
import Learncc.Lib.Consecutive
import Learncc.Lib.Extents
import Learncc.Lib.Keyed
import Learncc.Lib.Linked
import Learncc.Lib.Matches
import Learncc.Lib.LinkedStack
import Learncc.Lib.LinkedQueue
import Learncc.Lib.Command
import Learncc.Lib.Json
import Learncc.Posix
import Learncc.Mmuduo.Buffer
import Learncc.Mmuduo.Channel
import Learncc.Mmuduo.EpollPoller
import Learncc.Mmuduo.EventLoop
import Learncc.Mmuduo.TcpConnection
import Learncc.Mmuduo.ConnOutput
import Learncc.Mmuduo.ConnInterest
import Learncc.Mmuduo.ConnLifecycle
import Learncc.Mmuduo.TcpServer
import Learncc.Mmuduo.TcpServerLoops
import Learncc.Mmuduo.TcpServerMap
import Learncc.Mmuduo.TcpServerSilent
import Learncc.Mmuduo.Connector
import Learncc.MemoryPool.SizeClass
import Learncc.MemoryPool.PageCache
import Learncc.MemoryPool.PageCacheFacts
import Learncc.MemoryPool.PageAccounting
import Learncc.MemoryPool.CountWindow
import Learncc.MemoryPool.Alloc
import Learncc.MemoryPool.AllocFacts
import Learncc.MemoryPool.AllocSpans
import Learncc.MemoryPool.AllocParts
import Learncc.MemoryPool.SlowStart
import Learncc.MemoryPool.AllocOps
import Learncc.MemoryPool.Heap
import Learncc.MemoryPool.Carving
import Learncc.MemoryPool.InMemory
import Learncc.MemoryPool.InMemoryFacts
import Learncc.MemoryPool.InMemoryOps
import Learncc.MemoryPool.InMemoryHeap
import Learncc.MemoryPool.CentralAccounting
import Learncc.MemoryPool.Requests
import Learncc.MemoryPool.CrossThreadFree
import Learncc.MemoryPool.NgxPool
import Learncc.MemoryPool.NgxBlocks
import Learncc.MemoryPool.NgxLists
import Learncc.MemoryPool.NgxCleanup
import Learncc.MemoryPool.NgxRun
import Learncc.ChatServer.Csession
import Learncc.ChatServer.MsgNode
import Learncc.ChatServer.SendQueue
import Learncc.ChatServer.Reassembly
import Learncc.ChatServer.Redis
import Learncc.StatusServer.StatusService
import Learncc.ChatServer.OnlineUsers
import Learncc.Mysql.Pool
import Learncc.Mysql.Dao
import Learncc.Mysql.DaoFacts
import Learncc.Mysql.Conservation
import Learncc.Mysql.Writes
import Learncc.Mysql.Durability
import Learncc.Mysql.Script
import Learncc.ChatServer.Notify
import Learncc.ChatServer.Delivery
import Learncc.ChatServer.ProfileCache
import Learncc.ChatServer.SearchInfo
import Learncc.ChatServer.FriendList
import Learncc.GateServer.HttpConn
import Learncc.GateServer.UrlDecode
import Learncc.GateServer.ResetPwd
import Learncc.VerifyServer.VerifyCode
import Learncc.GateServer.Requests
import Learncc.GateServer.Accounts
import Learncc.ChatServer.RedisPool
import Learncc.ChatServer.LogicSystem
import Learncc.Arpc.Frame
import Learncc.Arpc.Server
import Learncc.Arpc.Channel
import Learncc.Arpc.CallTable
import Learncc.Arpc.EndToEnd
import Learncc.Arpc.Conf
import Learncc.Arpc.ConfLines
import Learncc.Public.MyAllocator
import Learncc.Public.AllocatorBlocks
import Learncc.Public.AllocatorRun
import Learncc.Public.AllocatorReuse
import Learncc.Public.ChunkAlloc
import Learncc.Public.MVector
import Learncc.Public.StackUk
import Learncc.Public.StackUkOwners
import Learncc.Public.StackUkRun
import Learncc.Public.StackUkOrder
import Learncc.Public.RefCountStack
import Learncc.Concurrent.RingQueue
import Learncc.Concurrent.UlringQueue1
import Learncc.Public.RefCountOwners
import Learncc.Public.RefCountRun
import Learncc.Public.RefCountOrder
import Learncc.Public.TsList
import Learncc.Public.TsListLocks
import Learncc.Public.TsListRun
import Learncc.Public.LockFreeQueue
import Learncc.Public.LockFreeCounts
import Learncc.Public.LockFreeMoves
import Learncc.Public.LockFreeRun
import Learncc.Public.LockFreeOrder
import Learncc.Public.AsyncLog
import Learncc.Public.LogFormat
import Learncc.Public.TsHashTbl
import Learncc.Public.WaitingQueue
import Learncc.Concurrent.HierarchicalMutex
import Learncc.Concurrent.QueueWakeup
import Learncc.Concurrent.ThreadsafeQueue
import Learncc.Concurrent.StealThreadPool
import Learncc.Concurrent.ParallelAccumulate
import Learncc.Concurrent.CommitPool
import Learncc.Concurrent.InterruptFlag
import Learncc.Threadpool.ThreadPool
import Learncc.Threadpool.Accounting
import Learncc.Threadpool.Shutdown
import Learncc.Threadpool.Process
import Learncc.Threadpool.Results
