import KernelLabs.ChCore.Object.DeinitRuns
import KernelLabs.ChCore.Object.RecycleRuns
import KernelLabs.ChCore.Object.ExitGroup
import KernelLabs.ChCore.Mm.MmInit
import KernelLabs.ChCore.Mm.SharedFaults
import KernelLabs.ChCore.Mm.VmLocks
import KernelLabs.ChCore.Mm.UaccessExact
import KernelLabs.ChCore.Object.PmoAccess
import KernelLabs.ChCore.Ipc.ConnectionRuns
import KernelLabs.ChCore.Ipc.NotificationExact
import KernelLabs.ChCore.Object.CallRefsExact
import KernelLabs.ChCore.Sched.PolicyRrRuns
import KernelLabs.ChCore.User.FlexIpcRuns
import KernelLabs.ChCore.User.IpcMsg
import KernelLabs.ChCore.User.TmpfsRuns
import KernelLabs.ChCore.User.Pipe
import KernelLabs.ChCore.User.LwipSockets
import KernelLabs.ChCore.User.Eventfd
import KernelLabs.ChCore.User.Timerfd
import KernelLabs.ChCore.User.Coroutine
import KernelLabs.ChCore.User.Procmgr
import KernelLabs.ChCore.User.FutexRuns
import KernelLabs.Xv6.KallocWaits
import KernelLabs.Xv6.BioRuns
import KernelLabs.Xv6.FsLog
import KernelLabs.ChCore.User.TmpfsRmdir
import KernelLabs.ChCore.User.TmpfsWalk
import KernelLabs.Xv6.MmapFiles
import KernelLabs.Xv6.SysOpen
import KernelLabs.Xv6.LazyEager
import KernelLabs.Xv6.KernelMirror
import KernelLabs.Xv6.MmapRegions
import KernelLabs.Xv6.Alarm
import KernelLabs.Xv6.Barrier
import KernelLabs.Ostep.RwLock
import KernelLabs.ChCore.Irq.Timer
import KernelLabs.ChCore.Sched.Affinity
