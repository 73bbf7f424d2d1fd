import OsvKernel.Malloc
import OsvKernel.PageWalk
import OsvKernel.WaitQueue
import OsvKernel.Words
import OsvKernel.Semaphore
import OsvKernel.Condvar
import OsvKernel.RwLock
import OsvKernel.ThreadJoin
import OsvKernel.MigrationLock
import OsvKernel.TimerList
import OsvKernel.Scheduler
import OsvKernel.PageCacheSync
import OsvKernel.TimerTaskFire
import OsvKernel.NameiLinks
import OsvKernel.RenameCache
import OsvKernel.FileTable
import OsvKernel.Vnode
import OsvKernel.RamfsTree
import OsvKernel.BufferCache
import OsvKernel.PipeBuffer
import OsvKernel.EpollWait
import OsvKernel.Poll
import OsvKernel.Timerfd
import OsvKernel.Itimer
import OsvKernel.PthreadBarrier
import OsvKernel.PageRangeSearch
import OsvKernel.PageRangeBounds
import OsvKernel.Elf
import OsvKernel.VnfLifecycle
import OsvKernel.ControlSocket
import OsvKernel.HttpConnection
import OsvKernel.PageRangeAligned
import OsvKernel.PoolFull
import OsvKernel.Reclaimer
import OsvKernel.VmaFind
import OsvKernel.AsyncWorker
import OsvKernel.CondvarWake
import OsvKernel.CpuTime
import OsvKernel.LfMutexCount
import OsvKernel.ThreadId
import OsvKernel.TimerClear
import OsvKernel.Dup
import OsvKernel.FilePosition
import OsvKernel.NameCalls
import OsvKernel.SysOpen
import OsvKernel.VfsFindroot
import OsvKernel.VringKick
import OsvKernel.DhcpQueue
import OsvKernel.RingSpsc
import OsvKernel.Classifier
