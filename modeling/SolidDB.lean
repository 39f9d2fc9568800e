import SolidDB.Dbe.LmgrCovers
import SolidDB.Dbe.LmgrUnlockall
import SolidDB.Dbe.LmgrSafety
import SolidDB.Dbe.TrxbufRun
import SolidDB.Dbe.BtrseaExact
import SolidDB.Dbe.TrxbufRoundtrip
import SolidDB.Dbe.ClstRun
import SolidDB.Dbe.SeqRun
import SolidDB.Dbe.LmgrDeadlockExact
import SolidDB.Dbe.FlstMapRun
import SolidDB.Dbe.FlstSysRun
import SolidDB.Dbe.BnodeRseaExact
import SolidDB.Su.Bmap
import SolidDB.Dbe.GtrsWritesClean
import SolidDB.Dt.DflProd
import SolidDB.Dt.DflPrint
import SolidDB.Dt.DflNstOrder
import SolidDB.Su.RbtRun
import SolidDB.Su.SlikePrefix
import SolidDB.Ss.Int8Text
import SolidDB.Dt.DateAsciiz
import SolidDB.Dt.DflRoundedExact
import SolidDB.Uti.VtplCopyExpand
import SolidDB.Su.GateRun
import SolidDB.Res.AvcmpExact
import SolidDB.Su.SvfCipherRun
import SolidDB.Su.MbsvfRun
import SolidDB.Su.ParsCalls
import SolidDB.Uti.VaiOrder
import SolidDB.Uti.VtplNormalize
import SolidDB.Uti.VtplTruncate
import SolidDB.Dbe.BnodeGetunique
import SolidDB.Dt.Tsdiff
import SolidDB.Uti.BufvaRun
import SolidDB.Xs.SorterSorts
import SolidDB.Dbe.BnodeSplitkey
