import Xv6Mmap.Machine.ForkSharing
import Xv6Mmap.Cache.Keys
import Xv6Mmap.Machine.IndexSafety
import Xv6Mmap.Machine.SpaceSize
import Xv6Mmap.Machine.FrameReturn
import Xv6Mmap.Log.GroupCommit
import Xv6Mmap.Machine.Bookkeeping
import Xv6Mmap.Machine.FileRefs
import Xv6Mmap.Io.Pipe
import Xv6Mmap.Io.Console
import Xv6Mmap.Io.DiskQueue
import Xv6Mmap.Sched.SleepLock
import Xv6Mmap.Sched.Kill
import Xv6Mmap.Sched.Zombies
import Xv6Mmap.Sched.Scheduler
import Xv6Mmap.Io.BufferCache
import Xv6Mmap.Fs.DirectoryMap
import Xv6Mmap.Machine.PageUpdates
import Xv6Mmap.Machine.DiskFiles
import Xv6Mmap.Machine.StoreFailures
import Xv6Mmap.Machine.FaultRegions
import Xv6Mmap.Region.FirstFit
import Xv6Mmap.Machine.FailedReads
import Xv6Mmap.Machine.PageContents
import Xv6Mmap.Kernel.Memmove
import Xv6Mmap.User.Grep
import Xv6Mmap.Log.Durability
import Xv6Mmap.Machine.WriteBackDeadlock
