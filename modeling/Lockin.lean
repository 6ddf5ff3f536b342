import Lockin.McsIn
import Lockin.ClhIn
import Lockin.MutexeeCond
import Lockin.ClhtLpMap
import Lockin.GlkSafe
import Lockin.TicketLinux
import Lockin.TicketFu
import Lockin.SenseBarrier
import Lockin.RwLock
import Lockin.GlkCond
import Lockin.GlsApi
import Lockin.ClhtLpRequests
import Lockin.ClhtLpKept
import Lockin.ClhtLpPuts
import Lockin.ClhtLpTas
import Lockin.GlsObjects
import Lockin.RwLockTry
import Lockin.ClhtLpStatus
import Lockin.LockProf
import Lockin.GlkAdapt
import Lockin.GlkTry
import Lockin.GlkMp
import Lockin.ClhtLpDdd
import Lockin.GlsMutexApi
import Lockin.GlsDebug
import Lockin.MutexeeTraining
import Lockin.GlkYield
import Lockin.CdfBoxplot
import Lockin.CondTimedwait
import Lockin.SleepBarrier
import Lockin.Ladap5In
import Lockin.GlsDeadlock
import Lockin.GlsIds
import Lockin.GlsOwners
import Lockin.GlsCycle
import Lockin.LockStats
import Lockin.ClhtLpLookup
import Lockin.ClhtLpHelp
import Lockin.McsLocal
import Lockin.McsLinked
import Lockin.McsLength
import Lockin.GlsSystem
import Lockin.StressCorrect
import Lockin.ClhtLpHistory
import Lockin.SpinCond
import Lockin.LadapIn
import Lockin.Ladap5Lock
import Lockin.TtasHle
