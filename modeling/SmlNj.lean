import SmlNj.CPS.Opt.ConversionChains
import SmlNj.CPS.Opt.ValueNumberingSound
import SmlNj.CPS.Opt.AvailOrder
import SmlNj.CPS.Main.NormalizeClusterSound
import SmlNj.Elaborator.MatchComp.Diagnostics
import SmlNj.System.CoreIntInfConvert
import SmlNj.System.Real64NextAfter
import SmlNj.CML.Barrier
import SmlNj.CML.MailboxFifo
import SmlNj.CML.SyncVarSeq
import SmlNj.Basics.RealLitBytes
import SmlNj.Basics.RealLitText
import SmlNj.Basics.RealToBitsClassify
import SmlNj.Library.Crc
import SmlNj.FLINT.TransPrimDiv
import SmlNj.CPS.Opt.PureFoldingSound
import SmlNj.Library.PickleRoundTrip
import SmlNj.Library.IntervalSetRuns
import SmlNj.Library.Hash2TableConsistent
import SmlNj.Library.UTF8RoundTrip
import SmlNj.Library.LEB128RoundTrip
import SmlNj.Library.Base64Decode
import SmlNj.CPS.Opt.BranchFolding
import SmlNj.Runtime.LiteralBounds
import SmlNj.Library.DfaEngine
import SmlNj.CPS.Opt.Lower
import SmlNj.CodeGen.GenTest
import SmlNj.CPS.Opt.DivCnv
import SmlNj.CPS.Opt.StrEqlCnv
import SmlNj.CPS.Opt.EqualUptoAlpha
import SmlNj.CodeGen.GCCacheSound
import SmlNj.CPS.Convert.SwitchBoxed
import SmlNj.CPS.Main.Cluster
import SmlNj.CodeGen.NormalizeCFG
import SmlNj.CodeGen.ConstOperands
import SmlNj.CPS.Opt.UncurrySound
import SmlNj.Library.ListMergeSort
import SmlNj.Library.ArrayQSortCorrect
import SmlNj.Library.BinarySetBalance
import SmlNj.Library.BitArrayExact
import SmlNj.Library.BitArrayMaps
import SmlNj.Library.EditDistance
import SmlNj.Elaborator.Precedence
