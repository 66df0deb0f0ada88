import Svr4.Proofs.RmapHistory
import Svr4.Proofs.CalloutHistory
import Svr4.Proofs.SemHistory
import Svr4.Proofs.SemBounds
import Svr4.Proofs.DispHistory
import Svr4.Proofs.BufcallHistory
import Svr4.Proofs.FlockDeadlock
import Svr4.Proofs.FlockHistory
import Svr4.Proofs.RunlistHistory
import Svr4.Proofs.MsgHistory
import Svr4.Proofs.S5FreeList
import Svr4.Proofs.SigQueue
import Svr4.Proofs.ProcTrees
import Svr4.Proofs.PidHistory
import Svr4.Proofs.DnlcHistory
import Svr4.Proofs.SortHistory
import Svr4.Proofs.CronTimes
import Svr4.Proofs.DiffScript
import Svr4.Proofs.DiffHashed
import Svr4.Proofs.FlockCall
import Svr4.Proofs.BlokHistory
import Svr4.Proofs.LdtermLines
import Svr4.Proofs.DeltaVersions
import Svr4.Proofs.TsSlices
import Svr4.Proofs.TsNice
import Svr4.Proofs.ClistHistory
import Svr4.Proofs.StrqInsert
import Svr4.Proofs.StrqFlush
import Svr4.Proofs.StrqBacks
import Svr4.Proofs.StrqRuns
import Svr4.Proofs.S5InodeHistory
import Svr4.Proofs.StrholdHistory
import Svr4.Proofs.ProcsetHistory
import Svr4.Proofs.S5TruncFile
import Svr4.Proofs.FioDescriptors
import Svr4.Proofs.TsearchHistory
import Svr4.Proofs.HsearchMap
import Svr4.Proofs.QsortSorts
import Svr4.Proofs.ElmHistory
import Svr4.Proofs.ElmRemove
import Svr4.Proofs.GmatchLanguage
import Svr4.Proofs.TsortOrder
import Svr4.Proofs.MpProduct
import Svr4.Proofs.DiffBatches
import Svr4.Proofs.PageLockBalance
import Svr4.Proofs.DeltaRemove
import Svr4.Proofs.DcProduct
import Svr4.Proofs.S5BmapExact
import Svr4.Proofs.HuffCodes
import Svr4.Proofs.Mktime
import Svr4.Proofs.DaylightRules
import Svr4.Proofs.ShmLockRuns
import Svr4.Proofs.ElfWritten
