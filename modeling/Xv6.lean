import Xv6.BallocLeast
import Xv6.BcacheOrder
import Xv6.ConsoleLines
import Xv6.CopyString
import Xv6.Datetime
import Xv6.Diff
import Xv6.DirectoryMap
import Xv6.FileCalls
import Xv6.Find
import Xv6.Fork
import Xv6.GrepLines
import Xv6.HeapInvariant
import Xv6.InterruptNesting
import Xv6.Itrunc
import Xv6.KillFlag
import Xv6.KilledSleep
import Xv6.LockOrder
import Xv6.LogReservation
import Xv6.MallocSize
import Xv6.Memmove
import Xv6.Nulterminate
import Xv6.PathResolution
import Xv6.PipeWakeup
import Xv6.Printf
import Xv6.Random
import Xv6.Read
import Xv6.SchedulerChoice
import Xv6.Sleeplock
import Xv6.Tail
import Xv6.VirtioDriver
import Xv6.WaitSched
import Xv6.Wc
import Xv6.WorkConserving
