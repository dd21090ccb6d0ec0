import TideSql.Core.DdlLogRec
import TideSql.Handler.DdlRuns
import TideSql.Handler.BuildFailures
import TideSql.Handler.InplaceAlter
import TideSql.Handler.XaTc
import TideSql.Handler.TwoPhase
import TideSql.Handler.DirtyFlag
import TideSql.Handler.TrxReuse
import TideSql.Handler.PreparedVote
import TideSql.Handler.ScanIterator
import TideSql.Handler.Pushdown
import TideSql.Handler.FtsDocument
import TideSql.Handler.PostingDiff
import TideSql.Handler.DeleteAll
import TideSql.Handler.SingleDelete
import TideSql.Handler.UniqueDecision
import TideSql.Handler.Ttl
import TideSql.Handler.FkTermination
import TideSql.Handler.KeyReads
import TideSql.Handler.FailedRotation
import TideSql.Handler.EncryptionAlter
import TideSql.Handler.BulkDelete
import TideSql.Handler.FtsTotals
import TideSql.Handler.XaMarkers
import TideSql.Handler.ModTables
import TideSql.Handler.CounterRecovery
import TideSql.Handler.KeyShapes
import TideSql.Handler.FkRecords
import TideSql.Handler.SecPosition
import TideSql.Handler.BoundedIter
import TideSql.Handler.SpatialScan
import TideSql.Handler.KeyOrder
import TideSql.Handler.BuildKeys
import TideSql.Handler.KeyDecode
import TideSql.Handler.RowScans
