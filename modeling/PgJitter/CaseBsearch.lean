import PgJitter.FloatCmp
import PgJitter.InlineInt4
import PgJitter.Lib.BinarySearch
import PgJitter.Like
import PgJitter.MinMax

/-!
# The binary search of a CASE

The helpers `pg_jitter_case_bsearch_*` (`src/pg_jitter_common.c`), which the compiled code of a searched or simple CASE calls with the
value of its variable and the descriptor of its branches, and the table from which the helper is taken. The integer thresholds are
stored as words of the type's width, the others as Datums.
-/

namespace PgJitter

open BinarySearch

/-! ## Descriptors -/

/-- `CaseBSearchType`. -/
inductive CaseBSearchType where
  | i32
  | i64
  | u32
  | i16
  | f4
  | f8
  | generic
  deriving DecidableEq, Repr

/-- The width of a stored threshold, and of the value that a helper takes. -/
def CaseBSearchType.width : CaseBSearchType → Nat
  | i32 | u32 | i16 => 32
  | i64 | f4 | f8 | generic => 64

/-- A comparison function that a helper calls: `texteq`, or another one; the collation is the first argument. -/
inductive CaseCmpFn where
  | texteq
  | other (f : Nat → Datum → Datum → Datum)

/-- `CaseBSearchDesc`, with the arrays that follow it. -/
structure CaseBSearchDesc (w : Nat) where
  n : Nat
  cmpFn : CaseCmpFn
  cmpOrderFn : Option CaseCmpFn
  cmpCollation : Nat
  defaultVal : Datum
  rangeMin : Datum
  hasRangeMin : Bool
  thresholds : Nat → BitVec w
  results : Nat → Datum

/-- The fields of `CaseBSearchInfo` by which the helper is selected. -/
structure CaseBSearchInfo where
  bsType : CaseBSearchType
  isEquality : Bool
  isLess : Bool
  isInclusive : Bool

/-- What is used of PostgreSQL's texts and collations: the payload of a text, which collations are deterministic and which are C, and
`texteq`, which compares the payloads under a deterministic collation. -/
structure PgText where
  bytes : Datum → List Byte
  deterministic : Nat → Bool
  isC : Nat → Bool
  texteq : Nat → Datum → Datum → Datum
  texteq_iff : ∀ coll a b, deterministic coll = true → (datumGetBool (texteq coll a b) = true ↔ bytes a = bytes b)

/-- The call of a comparison function. -/
def CaseCmpFn.call (T : PgText) : CaseCmpFn → Nat → Datum → Datum → Datum
  | texteq => T.texteq
  | other f => f

/-! ## The two loops -/

namespace CaseBSearchDesc

variable {w : Nat} (desc : CaseBSearchDesc w)

/-- The loop over `[lo, hi)`: the result of the first threshold that passes the test. -/
def bsearchBody (test : BitVec w → Bool) : Datum :=
  let lo := lowerBound (fun mid => test (desc.thresholds mid)) 0 desc.n
  if lo < desc.n then desc.results lo else desc.defaultVal

/-- The loop over `[lo, hi]`: the result of a threshold that the value compares equal with. -/
def bsearchEq (cmp : BitVec w → Ordering) : Datum :=
  match findEq (fun mid => cmp (desc.thresholds mid.toNat)) 0 (desc.n - 1) with
  | some mid => desc.results mid.toNat
  | none => desc.defaultVal

end CaseBSearchDesc

/-! ## Integers -/

/-- `pg_jitter_case_bsearch_lt_i32`. -/
def caseBsearchLtI32 (val : BitVec 32) (desc : CaseBSearchDesc 32) : Datum :=
  if desc.hasRangeMin && val.slt (low32 desc.rangeMin) then desc.defaultVal else desc.bsearchBody fun t => val.slt t

/-- `pg_jitter_case_bsearch_le_i32`. -/
def caseBsearchLeI32 (val : BitVec 32) (desc : CaseBSearchDesc 32) : Datum := desc.bsearchBody fun t => val.sle t

/-- `pg_jitter_case_bsearch_gt_i32`. -/
def caseBsearchGtI32 (val : BitVec 32) (desc : CaseBSearchDesc 32) : Datum := desc.bsearchBody fun t => t.slt val

/-- `pg_jitter_case_bsearch_ge_i32`. -/
def caseBsearchGeI32 (val : BitVec 32) (desc : CaseBSearchDesc 32) : Datum := desc.bsearchBody fun t => t.sle val

/-- `pg_jitter_case_bsearch_eq_i32`. -/
def caseBsearchEqI32 (val : BitVec 32) (desc : CaseBSearchDesc 32) : Datum :=
  desc.bsearchEq fun t => if t = val then .eq else if t.slt val then .gt else .lt

/-- `pg_jitter_case_bsearch_lt_i64`. -/
def caseBsearchLtI64 (val : BitVec 64) (desc : CaseBSearchDesc 64) : Datum :=
  if desc.hasRangeMin && val.slt desc.rangeMin then desc.defaultVal else desc.bsearchBody fun t => val.slt t

/-- `pg_jitter_case_bsearch_le_i64`. -/
def caseBsearchLeI64 (val : BitVec 64) (desc : CaseBSearchDesc 64) : Datum := desc.bsearchBody fun t => val.sle t

/-- `pg_jitter_case_bsearch_gt_i64`. -/
def caseBsearchGtI64 (val : BitVec 64) (desc : CaseBSearchDesc 64) : Datum := desc.bsearchBody fun t => t.slt val

/-- `pg_jitter_case_bsearch_ge_i64`. -/
def caseBsearchGeI64 (val : BitVec 64) (desc : CaseBSearchDesc 64) : Datum := desc.bsearchBody fun t => t.sle val

/-- `pg_jitter_case_bsearch_eq_i64`. -/
def caseBsearchEqI64 (val : BitVec 64) (desc : CaseBSearchDesc 64) : Datum :=
  desc.bsearchEq fun t => if t = val then .eq else if t.slt val then .gt else .lt

/-- `BSEARCH_BODY_U32`, with the comparison of `(uint32)val` and `(uint32)thresholds[mid]`. -/
def bsearchBodyU32 (op : BitVec 32 → BitVec 32 → Bool) (val : BitVec 32) (desc : CaseBSearchDesc 32) : Datum :=
  desc.bsearchBody fun t => op val t

/-- `pg_jitter_case_bsearch_lt_u32`. -/
def caseBsearchLtU32 := bsearchBodyU32 fun a b => a.ult b

/-- `pg_jitter_case_bsearch_le_u32`. -/
def caseBsearchLeU32 := bsearchBodyU32 fun a b => a.ule b

/-- `pg_jitter_case_bsearch_gt_u32`. -/
def caseBsearchGtU32 := bsearchBodyU32 fun a b => b.ult a

/-- `pg_jitter_case_bsearch_ge_u32`. -/
def caseBsearchGeU32 := bsearchBodyU32 fun a b => b.ule a

/-- `pg_jitter_case_bsearch_eq_u32`. -/
def caseBsearchEqU32 (val : BitVec 32) (desc : CaseBSearchDesc 32) : Datum :=
  desc.bsearchEq fun t => if t = val then .eq else if t.ult val then .gt else .lt

/-- The cast to `int16`, as an `int32`. -/
def castInt16 (val : BitVec 32) : BitVec 32 := (val.setWidth 16).signExtend 32

/-- `BSEARCH_BODY_I16`, with the comparison of `(int32)v` and `thresholds[mid]`. -/
def bsearchBodyI16 (op : BitVec 32 → BitVec 32 → Bool) (val : BitVec 32) (desc : CaseBSearchDesc 32) : Datum :=
  let v := castInt16 val
  if desc.hasRangeMin && v.slt (castInt16 (low32 desc.rangeMin)) then desc.defaultVal else desc.bsearchBody fun t => op v t

/-- `pg_jitter_case_bsearch_lt_i16`. -/
def caseBsearchLtI16 := bsearchBodyI16 fun a b => a.slt b

/-- `pg_jitter_case_bsearch_le_i16`. -/
def caseBsearchLeI16 := bsearchBodyI16 fun a b => a.sle b

/-- `pg_jitter_case_bsearch_gt_i16`. -/
def caseBsearchGtI16 := bsearchBodyI16 fun a b => b.slt a

/-- `pg_jitter_case_bsearch_ge_i16`. -/
def caseBsearchGeI16 := bsearchBodyI16 fun a b => b.sle a

/-- `pg_jitter_case_bsearch_eq_i16`. -/
def caseBsearchEqI16 (val : BitVec 32) (desc : CaseBSearchDesc 32) : Datum :=
  desc.bsearchEq fun t => if t = castInt16 val then .eq else if t.slt (castInt16 val) then .gt else .lt

/-! ## Floats -/

section Floats

variable {α β : Type} [LinearOrder α] [LinearOrder β] (F : FloatFormats α β)

/-- `DatumGetFloat4`. -/
def datumGetFloat4 (d : Datum) : PgFloat α := F.toF32 (low32 d)

/-- `DatumGetFloat8`. -/
def datumGetFloat8 (d : Datum) : PgFloat β := F.toF64 d

/-- `BSEARCH_BODY_F4`, with the check of the three-way result. -/
def bsearchBodyF4 (opCheck : Int → Bool) (val : Datum) (desc : CaseBSearchDesc 64) : Datum :=
  desc.bsearchBody fun t => opCheck (float4CmpJit (datumGetFloat4 F val) (datumGetFloat4 F t))

/-- `pg_jitter_case_bsearch_lt_f4`. -/
def caseBsearchLtF4 := bsearchBodyF4 F fun c => c < 0

/-- `pg_jitter_case_bsearch_le_f4`. -/
def caseBsearchLeF4 := bsearchBodyF4 F fun c => c ≤ 0

/-- `pg_jitter_case_bsearch_gt_f4`. -/
def caseBsearchGtF4 := bsearchBodyF4 F fun c => c > 0

/-- `pg_jitter_case_bsearch_ge_f4`. -/
def caseBsearchGeF4 := bsearchBodyF4 F fun c => c ≥ 0

/-- The three ways that the equality helpers go on a three-way result. -/
def eqWay (c : Int) : Ordering := if c = 0 then .eq else if c > 0 then .gt else .lt

/-- `pg_jitter_case_bsearch_eq_f4`. -/
def caseBsearchEqF4 (val : Datum) (desc : CaseBSearchDesc 64) : Datum :=
  desc.bsearchEq fun t => eqWay (float4CmpJit (datumGetFloat4 F val) (datumGetFloat4 F t))

/-- `BSEARCH_BODY_F8`. -/
def bsearchBodyF8 (opCheck : Int → Bool) (val : Datum) (desc : CaseBSearchDesc 64) : Datum :=
  desc.bsearchBody fun t => opCheck (float8CmpJit (datumGetFloat8 F val) (datumGetFloat8 F t))

/-- `pg_jitter_case_bsearch_lt_f8`. -/
def caseBsearchLtF8 := bsearchBodyF8 F fun c => c < 0

/-- `pg_jitter_case_bsearch_le_f8`. -/
def caseBsearchLeF8 := bsearchBodyF8 F fun c => c ≤ 0

/-- `pg_jitter_case_bsearch_gt_f8`. -/
def caseBsearchGtF8 := bsearchBodyF8 F fun c => c > 0

/-- `pg_jitter_case_bsearch_ge_f8`. -/
def caseBsearchGeF8 := bsearchBodyF8 F fun c => c ≥ 0

/-- `pg_jitter_case_bsearch_eq_f8`. -/
def caseBsearchEqF8 (val : Datum) (desc : CaseBSearchDesc 64) : Datum :=
  desc.bsearchEq fun t => eqWay (float8CmpJit (datumGetFloat8 F val) (datumGetFloat8 F t))

end Floats

/-! ## Other types -/

section Generic

variable (T : PgText)

/-- `BSEARCH_BODY_GENERIC`: the comparison function is the operator. -/
def bsearchBodyGeneric (val : Datum) (desc : CaseBSearchDesc 64) : Datum :=
  desc.bsearchBody fun t => datumGetBool (desc.cmpFn.call T desc.cmpCollation val t)

/-- `pg_jitter_case_bsearch_lt_generic`. -/
def caseBsearchLtGeneric := bsearchBodyGeneric T

/-- `pg_jitter_case_bsearch_le_generic`. -/
def caseBsearchLeGeneric := bsearchBodyGeneric T

/-- `pg_jitter_case_bsearch_gt_generic`. -/
def caseBsearchGtGeneric := bsearchBodyGeneric T

/-- `pg_jitter_case_bsearch_ge_generic`. -/
def caseBsearchGeGeneric := bsearchBodyGeneric T

/-- `C_COLLATION_OID`. -/
def cCollationOid : Nat := 950

/-- `case_bsearch_generic_eq_can_memcmp`; 0 is no OID. -/
def caseBsearchGenericEqCanMemcmp (desc : CaseBSearchDesc 64) : Bool :=
  match desc.cmpFn with
  | .other _ => false
  | .texteq =>
    if desc.cmpCollation = 0 ∨ desc.cmpCollation = cCollationOid then false
    else T.deterministic desc.cmpCollation && !T.isC desc.cmpCollation

/-- The sign of `memcmp` of byte strings of one length. -/
def memcmp : List Byte → List Byte → Int
  | a :: as, b :: bs => if a < b then -1 else if b < a then 1 else memcmp as bs
  | _, _ => 0

/-- The comparison of the payloads of two texts, and then of their lengths. -/
def textMemcmp (t1 t2 : List Byte) : Int :=
  let minlen := min t1.length t2.length
  let cmp := memcmp (t1.take minlen) (t2.take minlen)
  if cmp = 0 then (if t1.length > t2.length then 1 else if t1.length < t2.length then -1 else 0) else cmp

/-- The comparison of a value with a threshold by the order function, called once or twice. -/
def orderCmp (lt : Datum → Datum → Bool) (val t : Datum) : Int := if lt val t then -1 else if lt t val then 1 else 0

/-- `pg_jitter_case_bsearch_eq_generic`. -/
def caseBsearchEqGeneric (val : Datum) (desc : CaseBSearchDesc 64) : Datum :=
  match desc.cmpOrderFn with
  | some orderFn =>
    let useMemcmp := caseBsearchGenericEqCanMemcmp T desc
    desc.bsearchEq fun t =>
      let cmp := if useMemcmp then textMemcmp (T.bytes val) (T.bytes t)
        else orderCmp (fun a b => datumGetBool (orderFn.call T desc.cmpCollation a b)) val t
      if cmp < 0 then .lt else if cmp > 0 then .gt else .eq
  | none =>
    match (List.range desc.n).find? fun i => datumGetBool (desc.cmpFn.call T desc.cmpCollation val (desc.thresholds i)) with
    | some i => desc.results i
    | none => desc.defaultVal

end Generic

/-! ## The selection -/

/-- The columns of the table, `op_idx`. -/
inductive CaseCmp where
  | eq
  | lt
  | le
  | gt
  | ge
  deriving DecidableEq, Repr

/-- The column for a pattern. -/
def CaseBSearchInfo.op (cbi : CaseBSearchInfo) : CaseCmp :=
  if cbi.isEquality then .eq
  else if cbi.isLess then if cbi.isInclusive then .le else .lt
  else if cbi.isInclusive then .ge else .gt

section Select

variable {α β : Type} [LinearOrder α] [LinearOrder β] (F : FloatFormats α β) (T : PgText)

/-- The table of `pg_jitter_select_bsearch_helper`. -/
def bsearchHelperTable : (ty : CaseBSearchType) → CaseCmp → BitVec ty.width → CaseBSearchDesc ty.width → Datum
  | .i32, .eq => caseBsearchEqI32
  | .i32, .lt => caseBsearchLtI32
  | .i32, .le => caseBsearchLeI32
  | .i32, .gt => caseBsearchGtI32
  | .i32, .ge => caseBsearchGeI32
  | .i64, .eq => caseBsearchEqI64
  | .i64, .lt => caseBsearchLtI64
  | .i64, .le => caseBsearchLeI64
  | .i64, .gt => caseBsearchGtI64
  | .i64, .ge => caseBsearchGeI64
  | .u32, .eq => caseBsearchEqU32
  | .u32, .lt => caseBsearchLtU32
  | .u32, .le => caseBsearchLeU32
  | .u32, .gt => caseBsearchGtU32
  | .u32, .ge => caseBsearchGeU32
  | .i16, .eq => caseBsearchEqI16
  | .i16, .lt => caseBsearchLtI16
  | .i16, .le => caseBsearchLeI16
  | .i16, .gt => caseBsearchGtI16
  | .i16, .ge => caseBsearchGeI16
  | .f4, .eq => caseBsearchEqF4 F
  | .f4, .lt => caseBsearchLtF4 F
  | .f4, .le => caseBsearchLeF4 F
  | .f4, .gt => caseBsearchGtF4 F
  | .f4, .ge => caseBsearchGeF4 F
  | .f8, .eq => caseBsearchEqF8 F
  | .f8, .lt => caseBsearchLtF8 F
  | .f8, .le => caseBsearchLeF8 F
  | .f8, .gt => caseBsearchGtF8 F
  | .f8, .ge => caseBsearchGeF8 F
  | .generic, .eq => caseBsearchEqGeneric T
  | .generic, .lt => caseBsearchLtGeneric T
  | .generic, .le => caseBsearchLeGeneric T
  | .generic, .gt => caseBsearchGtGeneric T
  | .generic, .ge => caseBsearchGeGeneric T

/-- `pg_jitter_select_bsearch_helper`. -/
def selectBsearchHelper (cbi : CaseBSearchInfo) : BitVec cbi.bsType.width → CaseBSearchDesc cbi.bsType.width → Datum :=
  bsearchHelperTable F T cbi.bsType cbi.op

end Select

/-! ## What a CASE gives -/

/-- The relation of an operator in an order. -/
def CaseCmp.Rel {K : Type} [LT K] [LE K] : CaseCmp → K → K → Prop
  | eq, a, b => a = b
  | lt, a, b => a < b
  | le, a, b => a ≤ b
  | gt, a, b => b < a
  | ge, a, b => b ≤ a

/-- One threshold may stand before another one: below it, but above it for `>` and `>=`. -/
def CaseCmp.Before {β : Type} (op : CaseCmp) (below : β → β → Prop) (t u : β) : Prop :=
  match op with
  | gt | ge => below u t
  | _ => below t u

/-- The result of a CASE: that of the first branch whose comparison holds, or the default. -/
def CaseResult {w : Nat} (holds : BitVec w → Prop) (branches : List (BitVec w × Datum)) (default r : Datum) : Prop :=
  (∃ pre t rest, branches = pre ++ (t, r) :: rest ∧ holds t ∧ ∀ b ∈ pre, ¬ holds b.1) ∨
    (∀ b ∈ branches, ¬ holds b.1) ∧ r = default

/-- The branches of a descriptor. -/
def CaseBSearchDesc.branches {w : Nat} (desc : CaseBSearchDesc w) : List (BitVec w × Datum) :=
  (List.range desc.n).map fun k => (desc.thresholds k, desc.results k)

section Meaning

variable {α β : Type} [LinearOrder α] [LinearOrder β] (F : FloatFormats α β) (T : PgText) {K : Type} [LinearOrder K]
  (key : Datum → K)

/-- A comparison function is the operator of the order of the keys, and the order function is its `<`. -/
structure GenericOrder (op : CaseCmp) (desc : CaseBSearchDesc 64) : Prop where
  cmp : ∀ a b, datumGetBool (desc.cmpFn.call T desc.cmpCollation a b) = true ↔ op.Rel (key a) (key b)
  order : ∀ f, desc.cmpOrderFn = some f →
    ∀ a b, datumGetBool (f.call T desc.cmpCollation a b) = true ↔ key a < key b

namespace CaseBSearchType

/-- Whether the comparison of the value with a threshold holds, under the order of the type; of another type, by its comparison
function. -/
def Holds : (ty : CaseBSearchType) → CaseCmp → CaseBSearchDesc ty.width → BitVec ty.width → BitVec ty.width → Prop
  | .i32, op, _, val, t => op.Rel val.toInt t.toInt
  | .i64, op, _, val, t => op.Rel val.toInt t.toInt
  | .u32, op, _, val, t => op.Rel val.toNat t.toNat
  | .i16, op, _, val, t => op.Rel (val.setWidth 16).toInt t.toInt
  | .f4, op, _, val, t => op.Rel (datumGetFloat4 F val).key (datumGetFloat4 F t).key
  | .f8, op, _, val, t => op.Rel (datumGetFloat8 F val).key (datumGetFloat8 F t).key
  | .generic, _, desc, val, t => datumGetBool (desc.cmpFn.call T desc.cmpCollation val t) = true

/-- The order by which the detector sorts or checks the thresholds. -/
def Below : (ty : CaseBSearchType) → CaseCmp → CaseBSearchDesc ty.width → BitVec ty.width → BitVec ty.width → Prop
  | .i32, _, _, t, u => t.toInt < u.toInt
  | .i64, _, _, t, u => t.toInt < u.toInt
  | .u32, _, _, t, u => t.toNat < u.toNat
  | .i16, _, _, t, u => t.toInt < u.toInt
  | .f4, _, _, t, u => (datumGetFloat4 F t).key < (datumGetFloat4 F u).key
  | .f8, _, _, t, u => (datumGetFloat8 F t).key < (datumGetFloat8 F u).key
  | .generic, op, desc, t, u =>
    if op = .eq ∧ caseBsearchGenericEqCanMemcmp T desc = true then textMemcmp (T.bytes t) (T.bytes u) < 0 else key t < key u

/-- The value is below the least value of a range pattern. -/
def BelowRange : (ty : CaseBSearchType) → CaseBSearchDesc ty.width → BitVec ty.width → Prop
  | .i32, desc, val => desc.hasRangeMin = true ∧ val.toInt < (low32 desc.rangeMin).toInt
  | .i64, desc, val => desc.hasRangeMin = true ∧ val.toInt < desc.rangeMin.toInt
  | .i16, desc, val => desc.hasRangeMin = true ∧ (val.setWidth 16).toInt < (desc.rangeMin.setWidth 16).toInt
  | _, _, _ => False

/-- An equality of another type for which there is no order function: the thresholds are not sorted. -/
def Unsorted : (ty : CaseBSearchType) → CaseCmp → CaseBSearchDesc ty.width → Prop
  | .generic, .eq, desc => desc.cmpOrderFn = none
  | _, _, _ => False

/-- The functions of another type are those of an order of its values, where texts are not compared by their bytes. -/
def Lawful : (ty : CaseBSearchType) → CaseCmp → CaseBSearchDesc ty.width → Prop
  | .generic, op, desc =>
    Unsorted .generic op desc ∨ op = .eq ∧ caseBsearchGenericEqCanMemcmp T desc = true ∨ GenericOrder T key op desc
  | _, _, _ => True

/-- The types that a range pattern can have. -/
def CanRange : CaseBSearchType → Prop
  | i32 | i64 | i16 => True
  | _ => False

end CaseBSearchType

/-- A descriptor of a CASE: its thresholds stand in the order that the detector enforces, an equality has the branches of the CASE
sorted, and any other pattern as they are; a range pattern has the operator `<`. -/
structure CaseBSearchInfo.Describes (cbi : CaseBSearchInfo) (desc : CaseBSearchDesc cbi.bsType.width)
    (branches : List (BitVec cbi.bsType.width × Datum)) : Prop where
  lawful : cbi.bsType.Lawful T key cbi.op desc
  sorted : ¬ cbi.bsType.Unsorted cbi.op desc → ∀ i j, i < j → j < desc.n →
    cbi.op.Before (cbi.bsType.Below F T key cbi.op desc) (desc.thresholds i) (desc.thresholds j)
  perm : cbi.op = .eq → ¬ cbi.bsType.Unsorted cbi.op desc → desc.branches.Perm branches
  same : ¬ (cbi.op = .eq ∧ ¬ cbi.bsType.Unsorted cbi.op desc) → desc.branches = branches
  range : desc.hasRangeMin = true → cbi.op = .lt ∧ cbi.bsType.CanRange

end Meaning

end PgJitter
