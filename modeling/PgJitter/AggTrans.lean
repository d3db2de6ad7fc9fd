import PgJitter.Expr
import PgJitter.Lemmas.NumericAgg

/-!
# Inlined aggregate transitions

The by-value transition steps of `sljit_compile_expr` (`src/pg_jitter_sljit.c`) for `numeric_avg_accum`, `int8_avg_accum`,
`int4_sum`, `int2_sum`, `int8inc` and `int8inc_any`, and next to them PostgreSQL's own step and functions. A transition value that
is a pointer is the state that it points to, or none when it is null. What the emitted code does when it falls through is
`execAggPlainTransByVal`, as the interpreter does.
-/

namespace PgJitter

/-- `AggStatePerGroupData`. -/
structure AggStatePerGroup (α : Type) where
  transValue : α
  transValueIsNull : Bool
  noTransValue : Bool
  deriving DecidableEq, Repr

/-- A group before its first input, when the aggregate has no initial value: `transValue` is zero. -/
def initializeAggregate {α : Type} (zero : α) : AggStatePerGroup α := ⟨zero, true, true⟩

/-- `ExecAggPlainTransByVal`, from what the transition function makes of `args[0]`. -/
def execAggPlainTransByVal {α : Type} (pergroup : AggStatePerGroup α) (newVal : α) (isnull : Bool) : AggStatePerGroup α :=
  { pergroup with transValue := newVal, transValueIsNull := isnull }

/-! ## Sums of small integers -/

/-- `int2_sum` and `int4_sum` of PostgreSQL, which read `width` bits of the argument. -/
def pgIntSum (width : Nat) (arg0 arg1 : NullableDatum) : NullableDatum :=
  if arg0.isnull then
    if arg1.isnull then ⟨0, true⟩ else ⟨(arg1.value.setWidth width).signExtend 64, false⟩
  else
    let oldsum := arg0.value
    if arg1.isnull then ⟨oldsum, false⟩ else ⟨oldsum + (arg1.value.setWidth width).signExtend 64, false⟩

/-- PostgreSQL's step for them. -/
def pgIntSumStep (width : Nat) (pergroup : AggStatePerGroup Datum) (arg1 : NullableDatum) : AggStatePerGroup Datum :=
  let res := pgIntSum width ⟨pergroup.transValue, pergroup.transValueIsNull⟩ arg1
  execAggPlainTransByVal pergroup res.value res.isnull

/-- The code emitted for them. -/
def inlineIntSum (width : Nat) (pergroup : AggStatePerGroup Datum) (arg1 : NullableDatum) : AggStatePerGroup Datum :=
  if arg1.isnull then pergroup
  else
    let r2 := (arg1.value.setWidth width).signExtend 64
    if pergroup.transValueIsNull then { pergroup with transValue := r2, transValueIsNull := false }
    else { pergroup with transValue := pergroup.transValue + r2 }

/-- `int4_sum`: `SLJIT_MOV_S32`. -/
def inlineInt4Sum := inlineIntSum 32

/-- `int2_sum`: `SLJIT_MOV_S16`. -/
def inlineInt2Sum := inlineIntSum 16

/-! ## Counts -/

/-- The by-value transition opcodes, `EEOP_AGG_PLAIN_TRANS_..._BYVAL`. -/
inductive AggTransOp where
  | initStrict
  | strict
  | plain
  deriving DecidableEq, Repr

/-- `ExecAggInitGroup`, when the type is passed by value. -/
def execAggInitGroup (pergroup : AggStatePerGroup Datum) (arg1 : Datum) : AggStatePerGroup Datum :=
  { pergroup with transValue := arg1, transValueIsNull := false, noTransValue := false }

/-- `EEOP_AGG_STRICT_INPUT_CHECK_ARGS`: one of the arguments is null. It stands before every strict transition. -/
def strictInputCheckArgs (op : AggTransOp) (args : List NullableDatum) : Bool :=
  decide (op ≠ .plain) && args.any (·.isnull)

/-- The value of `args[1]`, if there is such an argument. -/
def firstArg (args : List NullableDatum) : Datum := (args.head?.map (·.value)).getD 0

/-- `int8inc` and `int8inc_any` of PostgreSQL: `none` when the sum overflows, which is an error. -/
def pgInt8inc (arg : Datum) : Option Datum :=
  let result := arg.toInt + 1
  if result < -2 ^ 63 ∨ 2 ^ 63 ≤ result then none else some (BitVec.ofInt 64 result)

/-- PostgreSQL's step for them. -/
def pgInt8incStep (op : AggTransOp) (pergroup : AggStatePerGroup Datum) (args : List NullableDatum) :
    Option (AggStatePerGroup Datum) :=
  let trans := (pgInt8inc pergroup.transValue).map fun newVal => execAggPlainTransByVal pergroup newVal false
  if strictInputCheckArgs op args then some pergroup
  else
    match op with
    | .initStrict =>
      if pergroup.noTransValue then some (execAggInitGroup pergroup (firstArg args))
      else if !pergroup.transValueIsNull then trans
      else some pergroup
    | .strict => if !pergroup.transValueIsNull then trans else some pergroup
    | .plain => trans

/-- The code emitted for them. -/
def inlineInt8inc (op : AggTransOp) (pergroup : AggStatePerGroup Datum) (args : List NullableDatum) :
    Option (AggStatePerGroup Datum) :=
  let isInit := decide (op = .initStrict)
  let isStrict := decide (op ≠ .plain)
  if strictInputCheckArgs op args then some pergroup
  else if isInit && pergroup.noTransValue then some (execAggInitGroup pergroup (firstArg args))
  else if isStrict && pergroup.transValueIsNull then some pergroup
  else if BitVec.saddOverflow pergroup.transValue 1 then none
  else some { pergroup with transValue := pergroup.transValue + 1, transValueIsNull := false }

/-! ## Sums of bigint -/

/-- `Int128AggState`, as far as a sum without squares uses it. -/
structure Int128AggState where
  N : BitVec 64
  sumX : BitVec 128
  deriving DecidableEq, Repr

/-- `makeInt128AggState` -/
def Int128AggState.init : Int128AggState := ⟨0, 0⟩

/-- `do_int128_accum` -/
def Int128AggState.accum (state : Int128AggState) (newval : Datum) : Int128AggState :=
  ⟨state.N + 1, state.sumX + newval.signExtend 128⟩

/-- `int8_avg_accum` of PostgreSQL: the state is created on the first call. -/
def pgInt8AvgAccum (arg0 : Option Int128AggState) (arg0Null : Bool) (arg1 : NullableDatum) : Option Int128AggState :=
  let state := ((if arg0Null then none else arg0).getD .init : Int128AggState)
  some (if arg1.isnull then state else state.accum arg1.value)

/-- PostgreSQL's step for it. -/
def pgInt8AvgAccumStep (pergroup : AggStatePerGroup (Option Int128AggState)) (arg1 : NullableDatum) :
    AggStatePerGroup (Option Int128AggState) :=
  execAggPlainTransByVal pergroup (pgInt8AvgAccum pergroup.transValue pergroup.transValueIsNull arg1) false

/-- `jit_int128_accum_fast` -/
def jitInt128AccumFast (statePtr : Option Int128AggState) (newval : Datum) : ℤ × Option Int128AggState :=
  match statePtr with
  | none => (0, none)
  | some state => (1, some ⟨state.N + 1, state.sumX + newval.signExtend 128⟩)

/-- The code emitted for it. A null argument jumps to the success path. -/
def inlineInt8AvgAccum (pergroup : AggStatePerGroup (Option Int128AggState)) (arg1 : NullableDatum) :
    AggStatePerGroup (Option Int128AggState) :=
  if arg1.isnull then { pergroup with transValueIsNull := false }
  else
    match jitInt128AccumFast pergroup.transValue arg1.value with
    | (0, _) => pgInt8AvgAccumStep pergroup arg1
    | (_, state) => { pergroup with transValue := state, transValueIsNull := false }

/-! ## Sums of numeric -/

/-- The numerics that are no numbers. -/
inductive NumericSpecial where
  | nan
  | pInf
  | nInf
  deriving DecidableEq, Repr

/-- The Datum of one, in place. -/
def NumericSpecial.datum : NumericSpecial → NumericDatum
  | .nan => .inline [0xC000]
  | .pInf => .inline [0xD000]
  | .nInf => .inline [0xF000]

/-- `JitNumericAggState` with its counts of special inputs. -/
structure NumericTransState where
  sum : NumericAggState
  nanCount : Nat
  pInfCount : Nat
  nInfCount : Nat
  deriving DecidableEq, Repr

/-- `makeNumericAggState` -/
def NumericTransState.init : NumericTransState := ⟨.init, 0, 0, 0⟩

/-- PostgreSQL's routines on accumulators, with `accum_sum_add` for numbers that are not in the short format: it keeps an accumulator
in order, and adds the number. -/
structure NumericAccumOps extends SumAccumOps where
  Long : Type
  longDatum : Long → NumericDatum
  longValue : Long → ℚ
  longDscale : Long → Nat
  accumSumAddLong : NumericSumAccum → Long → NumericSumAccum
  long_format : ∀ x, numericParseDatum (longDatum x) = none
  sumOk_long : ∀ a x, SumOk a → SumOk (accumSumAddLong a x)
  value_long : ∀ a x, SumOk a → (accumSumAddLong a x).value = a.value + longValue x
  dscale_long : ∀ a x, SumOk a → (accumSumAddLong a x).dscale = max a.dscale (longDscale x)

/-- `args[1]`: a null with whatever Datum is left in the slot, or a numeric. -/
inductive NumericArg (ops : NumericAccumOps) where
  | null (stale : Option NumericDatum)
  | short (i : AggInput)
  | long (x : ops.Long)
  | special (k : NumericSpecial)

/-- `args[1].value`; none is a zero Datum. -/
def NumericArg.value {ops : NumericAccumOps} : NumericArg ops → Option NumericDatum
  | .null stale => stale
  | .short i => some i.datum
  | .long x => some (ops.longDatum x)
  | .special k => some k.datum

section Numeric

variable {ops : NumericAccumOps}

/-- `do_numeric_accum` -/
def doNumericAccum (state : NumericTransState) : NumericArg ops → NumericTransState
  | .null _ => state
  | .short i => { state with sum := ops.numericAvgAccum state.sum i.num }
  | .long x =>
    let sum := state.sum.noteScale (ops.longDscale x)
    { state with sum := { sum with N := sum.N + 1, sumX := ops.accumSumAddLong sum.sumX x } }
  | .special .nan => { state with nanCount := state.nanCount + 1 }
  | .special .pInf => { state with pInfCount := state.pInfCount + 1 }
  | .special .nInf => { state with nInfCount := state.nInfCount + 1 }

/-- `numeric_avg_accum` of PostgreSQL: the state is created on the first call, and nothing is accumulated for a null. -/
def pgNumericAvgAccum (arg0 : Option NumericTransState) (arg0Null : Bool) (arg1 : NumericArg ops) : Option NumericTransState :=
  let state := ((if arg0Null then none else arg0).getD .init : NumericTransState)
  some (doNumericAccum state arg1)

/-- PostgreSQL's step for it. -/
def pgNumericAvgAccumStep (pergroup : AggStatePerGroup (Option NumericTransState)) (arg1 : NumericArg ops) :
    AggStatePerGroup (Option NumericTransState) :=
  execAggPlainTransByVal pergroup (pgNumericAvgAccum pergroup.transValue pergroup.transValueIsNull arg1) false

/-- The code emitted for it: the Datum is passed on without a look at `args[1].isnull`. -/
def inlineNumericAvgAccum (pergroup : AggStatePerGroup (Option NumericTransState)) (arg1 : NumericArg ops) :
    AggStatePerGroup (Option NumericTransState) :=
  match jitNumericAggTransFast (pergroup.transValue.map (·.sum)) arg1.value with
  | (0, _) => pgNumericAvgAccumStep pergroup arg1
  | (_, sum) =>
    { pergroup with
      transValue := pergroup.transValue.bind fun state => sum.map fun sum => { state with sum }
      transValueIsNull := false }

end Numeric

/-! ## Groups -/

/-- A group: its transition function and its inputs. -/
inductive AggGroup (ops : NumericAccumOps) where
  | numericAvgAccum (inputs : List (NumericArg ops))
  | int8AvgAccum (inputs : List NullableDatum)
  | int4Sum (inputs : List NullableDatum)
  | int2Sum (inputs : List NullableDatum)
  | int8inc (op : AggTransOp) (start : AggStatePerGroup Datum) (inputs : List (List NullableDatum))

end PgJitter
