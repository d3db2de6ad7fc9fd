import PgJitter.Theorems.Like
import PgJitter.Theorems.NumericCmp
import PgJitter.Theorems.ConstantArg
import PgJitter.Theorems.HashedSaop
import PgJitter.Theorems.NumericAgg
import PgJitter.Theorems.Deform
import PgJitter.Theorems.DeformLoop
import PgJitter.Theorems.Relocate
import PgJitter.Theorems.InlineInt4
import PgJitter.Theorems.LikeRegex
import PgJitter.Theorems.Pcre2Cache
import PgJitter.Theorems.DeformCache
import PgJitter.Theorems.SharedCode
import PgJitter.Theorems.JsonText
import PgJitter.Theorems.AggTrans
import PgJitter.Theorems.DateTime
import PgJitter.Theorems.FloatCmp
import PgJitter.Theorems.MinMax
import PgJitter.Theorems.ScalarArrayOp
import PgJitter.Theorems.LikeClassify
import PgJitter.Theorems.CaseBsearch
import PgJitter.Theorems.RawRegex
import PgJitter.Theorems.CaseEmit
import PgJitter.Theorems.CompileExpr
import PgJitter.Theorems.InListHash
import PgJitter.Theorems.DirectFns
import PgJitter.Theorems.SimdHelpers
import PgJitter.Theorems.IntHash
import PgJitter.Theorems.Pcre2Failure
import PgJitter.Theorems.MetaStats
import PgJitter.Theorems.MetaSelect
import PgJitter.Theorems.RelocateX86
import PgJitter.Theorems.PendingJumps
import PgJitter.Theorems.JsonEscape
import PgJitter.Theorems.Win64Unwind
