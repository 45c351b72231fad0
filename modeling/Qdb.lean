import Qdb.Lib.LinkedIds
import Qdb.Api
import Qdb.Rebuild
import Qdb.CrashSafety
import Qdb.Fifo
import Qdb.CompactBehaviour
import Qdb.RoundTrip
import Qdb.Restart
import Qdb.QueueLifetime
import Qdb.AlikeRuns
import Qdb.Checksum
import Qdb.HeaderPage
import Qdb.Qdbtool
import Qdb.CompactSize
import Qdb.CheckedOpen
import Qdb.Consistency
import Qdb.Isolation
import Qdb.ExpireNack
import Qdb.PopOrder
import Qdb.Invalidated
import Qdb.CompactContract
import Qdb.ReplayWords
import Qdb.LockDiscipline
import Qdb.Processes
import Qdb.FailedCalls
import Qdb.WalCrash
import Qdb.AcceptedFiles
import Qdb.LostRename
import Qdb.PlatformLoops
