import Tianole.Arch.ContextSwitch
import Tianole.Arch.Trap
import Tianole.BlockingReads
import Tianole.Boot.ImageLoaded
import Tianole.Boot.ImageReads
import Tianole.Console.CommandLine
import Tianole.Fs.Directory
import Tianole.Input.EventFifo
import Tianole.Input.Keyboard
import Tianole.Input.Modifiers
import Tianole.Lib.Links
import Tianole.Lib.Runs
import Tianole.Lib.Stack
import Tianole.Lib.Tiling
import Tianole.Lib.Word
import Tianole.Locking.MutualExclusion
import Tianole.Mm.HeapFailure
import Tianole.Mm.HeapFreed
import Tianole.Mm.MapFailure
import Tianole.Mm.PageOwnership
import Tianole.Mm.PageWalk
import Tianole.Mm.RangeScan
import Tianole.Mm.ReservedTables
import Tianole.Mm.Translation
import Tianole.Printk.LogRing
import Tianole.Printk.Numerals
import Tianole.Sched.InterruptFlag
import Tianole.Sched.Lifecycle
import Tianole.Sched.Preempt
import Tianole.Sched.ReapHead
import Tianole.Sched.RoundRobin
import Tianole.Sched.SavedContexts
import Tianole.Sched.SleepStores
import Tianole.Sched.TimedReturn
import Tianole.Sched.TimedWait
import Tianole.Tty.Echo
import Tianole.Tty.Keysym
import Tianole.Tty.LineDiscipline
