import Xv6.BlockOwner
import Xv6.CacheView
import Xv6.CrashAtomicity
import Xv6.LogSpace
import Xv6.WaitExit
import Xv6.FileData
import Xv6.Itable
import Xv6.Threads
import Xv6.Sysfile
import Xv6.DirView
import Xv6.FsInv
import Xv6.FsActions
import Xv6.LinkMachine
import Xv6.FsSafe
import Xv6.BlockRuns
import Xv6.FreshFs
import Xv6.LinkBound
import Xv6.LinkRuns
import Xv6.LinkOverflow
import Xv6.KillFlags
import Xv6.Pipe
import Xv6.FileTable
import Xv6.Scheduler
import Xv6.SleepLock
import Xv6.WaitLoops
import Xv6.FileRefs
import Xv6.FileCalls
import Xv6.ReadCache
import Xv6.InodeTable
import Xv6.OpenInodes
import Xv6.InodeLife
import Xv6.InodeBlock
import Xv6.InodeRuns
import Xv6.Ring
import Xv6.Umalloc
import Xv6.UmallocRuns
import Xv6.ExecImage
import Xv6.FaultyWrite
import Xv6.SharedWrite
import Xv6.MkfsAgree
import Xv6.VirtioRuns
import Xv6.GrepLines
import Xv6.Printf
import Xv6.PipeRead
import Xv6.Console
import Xv6.BufList
import Xv6.ShLines
import Xv6.Directory
import Xv6.PathResolution
import Xv6.Memmove
import Xv6.MkfsRuns
import Xv6.Uart
