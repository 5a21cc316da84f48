import Mos.Bpf.Safety
import Mos.PosixLock.System
import Mos.Phymm.System
import Mos.FixedDisk.System
import Mos.PageCache.System
import Mos.Lock.Mutex
import Mos.Lock.Semaphore
import Mos.Lock.RwlockRuns
import Mos.CycleBuf.Quiescence
import Mos.Pipe.Write
import Mos.Futex.Exit
import Mos.Flock.System
import Mos.Sched.Rounds
import Mos.Tmpfs.Append
import Mos.Tmpfs.TreeRuns
import Mos.Fs.Confined
import Mos.Vfs.LookupRuns
import Mos.Vfs.MountPropagated
import Mos.Io.Modes
import Mos.Paging.FileSize
import Mos.Epoll.Graph
import Mos.Epoll.ReadyRuns
import Mos.Poll.Returns
import Mos.Shm.AttachRuns
import Mos.FsCache.Runs
import Mos.Pid.Ids
import Mos.Net.Records
import Mos.Signal.Records
import Mos.Exec.Strings
import Mos.Net.Stream
import Mos.Kmalloc.Chunks
import Mos.Shm.Create
import Mos.Signal.JobControl
import Mos.Poll.Select
import Mos.Timer.Timerfd
import Mos.Vfs.LinkText
import Mos.Tmpfs.Listing
import Mos.Klib.Glob
