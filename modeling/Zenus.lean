import Zenus.Arch.Rtc
import Zenus.Sync.Lockdep
import Zenus.Mem.FrameDrain
import Zenus.Mem.HeapContract
import Zenus.Mem.Kpti
import Zenus.Mem.PageRuns
import Zenus.Mem.SpaceLeaks
import Zenus.Fs.CacheRuns
import Zenus.Fs.Ext2Slots
import Zenus.Fs.FsckSafe
import Zenus.Fs.JournalRuns
import Zenus.Fs.PkgConfined
import Zenus.Fs.TmpfsFile
import Zenus.Fs.TmpfsTree
import Zenus.Net.Arp
import Zenus.Net.Retransmit
import Zenus.Sched.Reports
import Zenus.Sched.Services
import Zenus.Sched.SignalFrame
import Zenus.Sched.Signals
import Zenus.Sys.Brk
import Zenus.Sys.Denotes
import Zenus.Sys.FreshPages
import Zenus.Sys.PipeRing
import Zenus.Sys.ReadOnly
import Zenus.Sys.ShmRuns
import Zenus.Sys.Sleep
import Zenus.Sys.Sockets
import Zenus.Sys.WriteAccess
