import PgJitter.Numeric

/-!
# Numeric sums

`jit_numeric_agg_trans_fast` (`src/pg_jit_funcs.c`): the in-place transition for `SUM(numeric)` and `AVG(numeric)`, which adds the
base-10000 digits of a short numeric to PostgreSQL's accumulator without carrying. When it returns 0, the transition is left to
PostgreSQL's `numeric_avg_accum`; its carry and rescale routines are not part of this repository and are parameters here
(`SumAccumOps`), with what the fast path relies on as laws.
-/

namespace PgJitter

open Positional

/-- `JitNumericSumAccum`: sums of digits, the positive and the negative inputs apart, not carried since `num_uncarried` inputs. -/
structure NumericSumAccum where
  ndigits : Nat
  weight : ℤ
  dscale : Nat
  numUncarried : Nat
  haveCarrySpace : Bool
  posDigits : List ℤ
  negDigits : List ℤ
  deriving DecidableEq, Repr

/-- `JitNumericAggState`, as far as a sum without squares over numbers uses it. -/
structure NumericAggState where
  N : Nat
  sumX : NumericSumAccum
  maxScale : Nat
  maxScaleCount : Nat
  deriving DecidableEq, Repr

/-- The state `makeNumericAggState` allocates, all zero. -/
def NumericAggState.init : NumericAggState := ⟨0, ⟨0, 0, 0, 0, false, [], []⟩, 0, 0⟩

/-- The update of `maxScale` and `maxScaleCount` by an input's display scale. -/
def NumericAggState.noteScale (s : NumericAggState) (dscale : Nat) : NumericAggState :=
  if dscale > s.maxScale then { s with maxScale := dscale, maxScaleCount := 1 }
  else if dscale = s.maxScale then { s with maxScaleCount := s.maxScaleCount + 1 }
  else s

/-- The digit loop: `accum_digits[idx] += digits[vi]` from `idx` on. -/
def addDigits (accumDigits : List ℤ) (idx : Nat) : List ℤ → List ℤ
  | [] => accumDigits
  | d :: ds => addDigits (accumDigits.modify idx (· + d)) (idx + 1) ds

/-- Add digits to the array of their sign. -/
def NumericSumAccum.addSigned (accum : NumericSumAccum) (neg : Bool) (idx : Nat) (digits : List ℤ) : NumericSumAccum :=
  if neg then { accum with negDigits := addDigits accum.negDigits idx digits }
  else { accum with posDigits := addDigits accum.posDigits idx digits }

/-- `jit_numeric_agg_trans_fast`: 1 and the updated state, or 0 and the state as it was. The pointers may be null. -/
def jitNumericAggTransFast (statePtr : Option NumericAggState) (numericDatum : Option NumericDatum) :
    ℤ × Option NumericAggState :=
  match statePtr, numericDatum with
  | some state, some datum =>
    match numericParseDatum datum with
    | none => (0, some state)
    | some (hdr, digits) =>
      let dscale := numericHdrDscale hdr
      if digits.length = 0 then
        (1, some ({ state with N := state.N + 1 }.noteScale dscale))
      else
        let neg := numericHdrNeg hdr
        let weight := numericHdrWeight hdr
        let accum := state.sumX
        if accum.numUncarried ≥ nbase - 1 then (0, some state)
        else if accum.ndigits = 0 ∨ weight > accum.weight then (0, some state)
        else
          let idx := (accum.weight - weight).toNat
          if idx + digits.length > accum.ndigits then (0, some state)
          else
            let accum := accum.addSigned neg idx digits
            let accum := { accum with numUncarried := accum.numUncarried + 1 }
            let accum := if dscale > accum.dscale then { accum with dscale := dscale } else accum
            (1, some ({ state with N := state.N + 1, sumX := accum }.noteScale dscale))
  | state, _ => (0, state)

/-! ## PostgreSQL's accumulator -/

/-- The value an accumulator stands for: the positive sums less the negative ones, as if they were carried. -/
def NumericSumAccum.value (accum : NumericSumAccum) : ℚ :=
  Positional.value (nbase : ℚ) accum.weight accum.posDigits - Positional.value (nbase : ℚ) accum.weight accum.negDigits

/-- Both digit arrays have the accumulator's number of digits. -/
structure NumericSumAccum.Shaped (accum : NumericSumAccum) : Prop where
  pos_length : accum.posDigits.length = accum.ndigits
  neg_length : accum.negDigits.length = accum.ndigits

/-- The first digit of either array is not in use. -/
def NumericSumAccum.HeadsZero (accum : NumericSumAccum) : Prop :=
  accum.posDigits[0]?.getD 0 = 0 ∧ accum.negDigits[0]?.getD 0 = 0

/-- Every digit of either array is at most `bound`. -/
def NumericSumAccum.DigitsLe (accum : NumericSumAccum) (bound : ℤ) : Prop :=
  ∀ d ∈ accum.posDigits ++ accum.negDigits, 0 ≤ d ∧ d ≤ bound

/-- What is true of an accumulator between two transitions: the first digits are reserved for a carry, and no digit exceeds what
the carried digits and the inputs since the last carry can add up to. -/
structure NumericSumAccum.Reserved (accum : NumericSumAccum) : Prop extends accum.Shaped where
  heads : accum.HeadsZero
  digits : accum.DigitsLe ((nbase - 1) * (accum.numUncarried + 1))
  uncarried : accum.numUncarried ≤ nbase - 1

/-- What `accum_sum_carry` makes of an accumulator whose first digits are reserved: proper digits of the same value, with
`have_carry_space` kept only when the first digits are still not in use. -/
structure CarriesTo (a a' : NumericSumAccum) : Prop extends a'.Shaped where
  ndigits : a'.ndigits = a.ndigits
  weight : a'.weight = a.weight
  dscale : a'.dscale = a.dscale
  numUncarried : a'.numUncarried = 0
  value : a'.value = a.value
  digits : a'.DigitsLe (nbase - 1)
  space : a'.haveCarrySpace = true → a'.HeadsZero

/-- What `accum_sum_rescale` makes of an accumulator for a number: the same value, with room for the number's digits below a
first digit that is reserved, also when the old one had been used up. -/
structure RescalesTo (a : NumericSumAccum) (x : ShortNumeric) (a' : NumericSumAccum) : Prop extends a'.Shaped where
  numUncarried : a'.numUncarried = a.numUncarried
  dscale : a'.dscale = max a.dscale x.dscale
  value : a'.value = a.value
  digits : ∀ bound, 0 ≤ bound → a.DigitsLe bound → a'.DigitsLe bound
  weight : x.weight < a'.weight
  room : a'.weight - x.weight + x.digits.length ≤ a'.ndigits
  space : a'.haveCarrySpace = true
  heads : a'.HeadsZero

/-- `accum_sum_carry` and `accum_sum_rescale` of PostgreSQL's `numeric.c`, with what they do. -/
structure SumAccumOps where
  accumSumCarry : NumericSumAccum → NumericSumAccum
  accumSumRescale : NumericSumAccum → ShortNumeric → NumericSumAccum
  carriesTo : ∀ a, a.Reserved → CarriesTo a (accumSumCarry a)
  rescalesTo : ∀ a x, a.Shaped → (a.haveCarrySpace = true → a.HeadsZero) → RescalesTo a x (accumSumRescale a x)

namespace SumAccumOps

/-- `accum_sum_add`: carry when `num_uncarried` has reached `NBASE - 1`, rescale, add the digits. -/
def accumSumAdd (ops : SumAccumOps) (accum : NumericSumAccum) (x : ShortNumeric) : NumericSumAccum :=
  let accum := if accum.numUncarried = nbase - 1 then ops.accumSumCarry accum else accum
  let accum := ops.accumSumRescale accum x
  let accum := accum.addSigned x.neg (accum.weight - x.weight).toNat x.digits
  { accum with numUncarried := accum.numUncarried + 1 }

/-- PostgreSQL's `numeric_avg_accum` on a state that exists. -/
def numericAvgAccum (ops : SumAccumOps) (state : NumericAggState) (x : ShortNumeric) : NumericAggState :=
  { state.noteScale x.dscale with N := state.N + 1, sumX := ops.accumSumAdd state.sumX x }

end SumAccumOps

/-! ## Runs -/

/-- How the Datum of an input is stored. -/
inductive Storage where
  | plain
  | external
  | compressed
  deriving DecidableEq, Repr

/-- An input of the aggregate: a canonical short numeric, in place or toasted. -/
structure AggInput where
  num : ShortNumeric
  storage : Storage

/-- The Datum of an input. -/
def AggInput.datum (i : AggInput) : NumericDatum :=
  match i.storage with
  | .plain => i.num.datum
  | .external => .external
  | .compressed => .compressed

/-- One transition: the fast path, and PostgreSQL's own function when it returned 0. -/
def aggStep (ops : SumAccumOps) (state : NumericAggState) (i : AggInput) : NumericAggState :=
  match jitNumericAggTransFast (some state) (some i.datum) with
  | (0, some s) => ops.numericAvgAccum s i.num
  | (_, some s) => s
  | (_, none) => state

/-- The transitions over a sequence of inputs. -/
def aggRun (ops : SumAccumOps) (state : NumericAggState) (inputs : List AggInput) : NumericAggState :=
  inputs.foldl (aggStep ops) state

end PgJitter
