import PgJitter.AggTrans
import PgJitter.FloatCmp
import PgJitter.InlineInt4

/-!
# Inlined MIN and MAX transitions

The by-value transition steps of `sljit_compile_expr` (`src/pg_jitter_sljit.c`) for `int4smaller`, `int4larger` and their kin: the
current value and the new input are loaded, compared, and the input is stored unless the current value stays. The transition functions
are strict and have no initial value, so the first input becomes the transition value as it is. Comparisons of floats are taken to be
false when one of them is NaN (`floatSkip`).
-/

namespace PgJitter

/-! ## The emitted comparisons -/

/-- `SLJIT_MOV_S32`. -/
def movS32 (d : Datum) : Datum := (low32 d).signExtend 64

/-- `SLJIT_MOV_S16`. -/
def movS16 (d : Datum) : Datum := (d.setWidth 16).signExtend 64

/-- The jump past the update: `SLJIT_SIG_LESS_EQUAL` or `SLJIT_SIG_GREATER_EQUAL`. -/
def sigSkip (isMin : Bool) (r1 r2 : Datum) : Bool := if isMin then r1.sle r2 else r2.sle r1

/-- `SLJIT_LESS_EQUAL` or `SLJIT_GREATER_EQUAL`. -/
def unsSkip (isMin : Bool) (r1 r2 : Datum) : Bool := if isMin then r1.ule r2 else r2.ule r1

/-- `SLJIT_F_LESS_EQUAL` or `SLJIT_F_GREATER_EQUAL`. What the machine says of a NaN is not in the source: floats are stated to be an
ordered set and a NaN all of whose machine comparisons are false, and this is that reading. -/
def floatSkip {β : Type} [LinearOrder β] (isMin : Bool) (fr0 fr1 : PgFloat β) : Bool := if isMin then fr0.le fr1 else fr1.le fr0

/-- The integer template: the two loads, the comparison and the store. -/
def inlineMinMaxWord (load : Datum → Datum) (skip : Datum → Datum → Bool) (transValue arg1 : Datum) : Datum :=
  let r1 := load transValue
  let r2 := load arg1
  if skip r1 r2 then transValue else r2

/-- `int4smaller` and `int4larger`. -/
def inlineInt4MinMax (isMin : Bool) := inlineMinMaxWord movS32 (sigSkip isMin)

/-- `int8smaller` and `int8larger`. -/
def inlineInt8MinMax (isMin : Bool) := inlineMinMaxWord id (sigSkip isMin)

/-- `int2smaller` and `int2larger`. -/
def inlineInt2MinMax (isMin : Bool) := inlineMinMaxWord movS16 (sigSkip isMin)

/-- `date_smaller`, `date_larger`, and with `isUnsigned` `oidsmaller` and `oidlarger`. -/
def inlineDateOidMinMax (isUnsigned isMin : Bool) :=
  inlineMinMaxWord (if isUnsigned then id else movS32) (if isUnsigned then unsSkip isMin else sigSkip isMin)

/-- `timestamp_smaller`, `timestamp_larger`, `time_smaller` and `time_larger`. -/
def inlineTimestampMinMax (isMin : Bool) := inlineMinMaxWord id (sigSkip isMin)

/-- The floats that words of 32 and of 64 bits hold. -/
structure FloatFormats (α β : Type) where
  toF32 : BitVec 32 → PgFloat α
  toF64 : BitVec 64 → PgFloat β

section Trans

variable {α β : Type} [LinearOrder α] [LinearOrder β]

/-- `float8smaller` and `float8larger`. -/
def inlineFloat8MinMax (F : FloatFormats α β) (isMin : Bool) (transValue arg1 : Datum) : Datum :=
  if floatSkip isMin (F.toF64 transValue) (F.toF64 arg1) then transValue else arg1

/-- `float4smaller` and `float4larger`: `SLJIT_MOV_F32` stores the low half. -/
def inlineFloat4MinMax (F : FloatFormats α β) (isMin : Bool) (transValue arg1 : Datum) : Datum :=
  if floatSkip isMin (F.toF32 (low32 transValue)) (F.toF32 (low32 arg1)) then transValue
  else transValue.extractLsb' 32 32 ++ low32 arg1

/-- The types. -/
inductive MinMaxType where
  | int2
  | int4
  | int8
  | float4
  | float8
  | date
  | oid
  | timestamp
  | time
  deriving DecidableEq, Repr

/-- The emitted body for a type's `smaller` (`isMin`) or `larger` function. -/
def inlineMinMax (F : FloatFormats α β) (isMin : Bool) : MinMaxType → Datum → Datum → Datum
  | .int2 => inlineInt2MinMax isMin
  | .int4 => inlineInt4MinMax isMin
  | .int8 => inlineInt8MinMax isMin
  | .float4 => inlineFloat4MinMax F isMin
  | .float8 => inlineFloat8MinMax F isMin
  | .date => inlineDateOidMinMax false isMin
  | .oid => inlineDateOidMinMax true isMin
  | .timestamp => inlineTimestampMinMax isMin
  | .time => inlineTimestampMinMax isMin

/-- The emitted step, `EEOP_AGG_PLAIN_TRANS_INIT_STRICT_BYVAL`, on an input that is not null. -/
def inlineMinMaxTrans (F : FloatFormats α β) (isMin : Bool) (ty : MinMaxType) (pergroup : AggStatePerGroup Datum) (arg1 : Datum) :
    AggStatePerGroup Datum :=
  if pergroup.noTransValue then execAggInitGroup pergroup arg1
  else if pergroup.transValueIsNull then pergroup
  else { pergroup with transValue := inlineMinMax F isMin ty pergroup.transValue arg1, transValueIsNull := false }

/-- A group's run over its inputs. -/
def inlineMinMaxRun (F : FloatFormats α β) (isMin : Bool) (ty : MinMaxType) (args : List Datum) : AggStatePerGroup Datum :=
  args.foldl (inlineMinMaxTrans F isMin ty) (initializeAggregate 0)

/-! ## What the transitions are for -/

/-- PostgreSQL's order of a type, on its Datums. -/
def MinMaxType.Le (F : FloatFormats α β) : MinMaxType → Datum → Datum → Prop
  | .int2, a, b => (a.setWidth 16).toInt ≤ (b.setWidth 16).toInt
  | .int4, a, b => (low32 a).toInt ≤ (low32 b).toInt
  | .int8, a, b => a.toInt ≤ b.toInt
  | .float4, a, b => (F.toF32 (low32 a)).key ≤ (F.toF32 (low32 b)).key
  | .float8, a, b => (F.toF64 a).key ≤ (F.toF64 b).key
  | .date, a, b => (low32 a).toInt ≤ (low32 b).toInt
  | .oid, a, b => (low32 a).toNat ≤ (low32 b).toNat
  | .timestamp, a, b => a.toInt ≤ b.toInt
  | .time, a, b => a.toInt ≤ b.toInt

instance (F : FloatFormats α β) : (ty : MinMaxType) → (a b : Datum) → Decidable (ty.Le F a b)
  | .int2, a, b => inferInstanceAs (Decidable ((a.setWidth 16).toInt ≤ (b.setWidth 16).toInt))
  | .int4, a, b => inferInstanceAs (Decidable ((low32 a).toInt ≤ (low32 b).toInt))
  | .int8, a, b => inferInstanceAs (Decidable (a.toInt ≤ b.toInt))
  | .float4, a, b => inferInstanceAs (Decidable ((F.toF32 (low32 a)).key ≤ (F.toF32 (low32 b)).key))
  | .float8, a, b => inferInstanceAs (Decidable ((F.toF64 a).key ≤ (F.toF64 b).key))
  | .date, a, b => inferInstanceAs (Decidable ((low32 a).toInt ≤ (low32 b).toInt))
  | .oid, a, b => inferInstanceAs (Decidable ((low32 a).toNat ≤ (low32 b).toNat))
  | .timestamp, a, b => inferInstanceAs (Decidable (a.toInt ≤ b.toInt))
  | .time, a, b => inferInstanceAs (Decidable (a.toInt ≤ b.toInt))

/-- A value is below all of a list, or above all of it. -/
def IsExtreme {γ : Type} (le : γ → γ → Prop) (isMin : Bool) (m : γ) (xs : List γ) : Prop :=
  ∀ y ∈ xs, if isMin then le m y else le y m

/-- The run ends with a value that equals the minimum or the maximum of the inputs. -/
def MinMaxRight (F : FloatFormats α β) (isMin : Bool) (ty : MinMaxType) (args : List Datum) : Prop :=
  (inlineMinMaxRun F isMin ty args).transValueIsNull = false ∧
  ∃ m ∈ args, IsExtreme (ty.Le F) isMin m args ∧ ty.Le F (inlineMinMaxRun F isMin ty args).transValue m ∧
    ty.Le F m (inlineMinMaxRun F isMin ty args).transValue

/-- The floats after the last NaN. -/
def afterLastNan (fs : List (PgFloat β)) : List (PgFloat β) := (fs.reverse.takeWhile fun f => !f.isnan).reverse

/-- Floats among which a comparison that is false on NaN finds the extremum: for a minimum, all of them are NaN, or a least one comes
after the last NaN; for a maximum, none of them is NaN, or the last is. -/
def FloatsInOrder (isMin : Bool) (fs : List (PgFloat β)) : Prop :=
  if isMin then (∀ f ∈ fs, f.isnan) ∨ ∃ m ∈ afterLastNan fs, ∀ f ∈ fs, m.key ≤ f.key
  else (∀ f ∈ fs, ¬ f.isnan) ∨ ∃ f, fs.getLast? = some f ∧ f.isnan

/-- One of the OIDs is extreme both as a 64-bit word and as an OID. -/
def OidsInOrder (isMin : Bool) (args : List Datum) : Prop :=
  ∃ m ∈ args, IsExtreme (fun a b => a.toNat ≤ b.toNat) isMin m args ∧
    IsExtreme (fun a b => (low32 a).toNat ≤ (low32 b).toNat) isMin m args

/-- The inputs on which the emitted comparison finds the extremum. -/
def InputsInOrder (F : FloatFormats α β) (isMin : Bool) (args : List Datum) : MinMaxType → Prop
  | .float4 => FloatsInOrder isMin (args.map fun d => F.toF32 (low32 d))
  | .float8 => FloatsInOrder isMin (args.map F.toF64)
  | .oid => OidsInOrder isMin args
  | _ => True

end Trans

end PgJitter
