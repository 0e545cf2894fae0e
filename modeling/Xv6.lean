import Xv6.BufferCommit
import Xv6.ConsoleEditor
import Xv6.ExecArguments
import Xv6.ForkFailures
import Xv6.GrepLines
import Xv6.IdeRefinement
import Xv6.KillSleepers
import Xv6.KthreadJoin
import Xv6.LogRecovery
import Xv6.LogReservations
import Xv6.MutexLifeCycle
import Xv6.MutexLookup
import Xv6.PageMappings
import Xv6.PathNames
import Xv6.PipeEnds
import Xv6.PipeOrder
import Xv6.ProcessExec
import Xv6.ProcessExit
import Xv6.ProcessJoin
import Xv6.ShellRoundTrip
import Xv6.SleepLocks
import Xv6.SlotReuse
import Xv6.Spinlocks
import Xv6.TreeAllocation
import Xv6.TreeDealloc
import Xv6.TreeExclusion
import Xv6.TreeFailures
import Xv6.TreeSequential
import Xv6.TreeTournament
import Xv6.UserArguments
import Xv6.UserBuffers
import Xv6.WakeupCoverage
