import RazionOS.Kernel.Vfs.UnixPipe
import RazionOS.Ai.Routing
import RazionOS.Pulse.Authorization
import RazionOS.Kernel.Arch.FrameBitmap
import RazionOS.Kernel.Arch.UserPointer
import RazionOS.Kernel.Sys.Mmap
import RazionOS.Kernel.Misc.MallocSafety
import RazionOS.Kernel.Sys.JobControl
import RazionOS.Kernel.Sys.Chown
import RazionOS.Kernel.Sys.ShmRuns
import RazionOS.Kernel.Sys.Reaping
import RazionOS.Kernel.Sys.TracingRuns
import RazionOS.Kernel.Sys.Fswait
import RazionOS.Kernel.Sys.SleepQueue
import RazionOS.Kernel.Sys.SignalKill
import RazionOS.Kernel.Sys.Sigsuspend
import RazionOS.Kernel.Misc.LinkedListRuns
import RazionOS.Modules.Ext2
import RazionOS.Modules.Ext2Alloc
import RazionOS.Modules.Ext2Dir
import RazionOS.Kernel.Vfs.References
import RazionOS.Kernel.Vfs.PathWalk
import RazionOS.Kernel.Vfs.PacketTargets
import RazionOS.Libc.Stdio.PositionLaw
import RazionOS.Libc.Pthread.Rwlock
import RazionOS.Libc.Stdlib.Qsort
import RazionOS.Libc.Stdlib.Realpath
import RazionOS.Libc.Stdlib.Wide
import RazionOS.Libc.Time.Localtime
import RazionOS.Kernel.Net.Datagrams
import RazionOS.Kernel.Net.Ports
import RazionOS.Kernel.Net.TcpStream
import RazionOS.Lib.JsonRoundTrip
import RazionOS.Lib.Termemu
import RazionOS.Kernel.Misc.GzipStream
import RazionOS.Kernel.Vfs.Tmpfs.Names
import RazionOS.Kernel.Vfs.Tmpfs.Offsets
import RazionOS.Kernel.Vfs.TtyEditor
import RazionOS.Pulse.Normalize
import RazionOS.Pulse.Project
import RazionOS.Kernel.Net.Ipv4
import RazionOS.Kernel.Sys.Sigwait
import RazionOS.Kernel.Sys.ProcessTree
import RazionOS.Kernel.Sys.Groups
import RazionOS.Modules.Iso9660
import RazionOS.Kernel.Sys.Open
