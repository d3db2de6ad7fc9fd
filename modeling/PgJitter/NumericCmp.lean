import PgJitter.Numeric

/-!
# Comparing numerics in place

`numeric_cmp_datum` and the comparison functions built on it (`src/pg_jit_funcs.c`): sign, then weight, then the digits. Each
`jit_numeric_*` falls back on PostgreSQL's own function, a parameter here, when a Datum is not a short numeric.
-/

namespace PgJitter

/-- The digit loops: the first difference over the common length decides, then any non-zero digit of the longer one. -/
def cmpDigits : List ℤ → List ℤ → ℤ
  | d₁ :: ds₁, d₂ :: ds₂ => if d₁ ≠ d₂ then (if d₁ > d₂ then 1 else -1) else cmpDigits ds₁ ds₂
  | d₁ :: ds₁, [] => if (d₁ :: ds₁).any (fun d => d ≠ 0) then 1 else 0
  | [], ds₂ => if ds₂.any (fun d => d ≠ 0) then -1 else 0

/-- `numeric_cmp_datum`: -1, 0 or 1, or -2 when the caller has to fall back. -/
def numericCmpDatum (a b : NumericDatum) : ℤ :=
  match numericParseDatum a, numericParseDatum b with
  | some (hdr₁, d₁), some (hdr₂, d₂) =>
    let neg₁ := numericHdrNeg hdr₁
    let neg₂ := numericHdrNeg hdr₂
    if neg₁ ≠ neg₂ then
      if d₁ = [] ∧ d₂ = [] then 0 else if neg₁ then -1 else 1
    else
      let w₁ := numericHdrWeight hdr₁
      let w₂ := numericHdrWeight hdr₂
      if w₁ ≠ w₂ then
        let cmp : ℤ := if w₁ > w₂ then 1 else -1
        if neg₁ then -cmp else cmp
      else if neg₁ then -cmpDigits d₁ d₂ else cmpDigits d₁ d₂
  | _, _ => -2

/-- `DEF_NUMERIC_CMP`: 1 or 0 by a condition on the comparison's result, or what PostgreSQL's function returns. -/
def defNumericCmp (cond : ℤ → Bool) (fallback : NumericDatum → NumericDatum → ℤ) (a b : NumericDatum) : ℤ :=
  let r := numericCmpDatum a b
  if r ≠ -2 then (if cond r then 1 else 0) else fallback a b

/-- `jit_numeric_cmp`. -/
def jitNumericCmp (fallback : NumericDatum → NumericDatum → ℤ) (a b : NumericDatum) : ℤ :=
  let r := numericCmpDatum a b
  if r ≠ -2 then r else fallback a b

/-- `jit_numeric_eq`. -/
def jitNumericEq := defNumericCmp (fun r => r = 0)

/-- `jit_numeric_ne`. -/
def jitNumericNe := defNumericCmp (fun r => r ≠ 0)

/-- `jit_numeric_lt`. -/
def jitNumericLt := defNumericCmp (fun r => r < 0)

/-- `jit_numeric_le`. -/
def jitNumericLe := defNumericCmp (fun r => r ≤ 0)

/-- `jit_numeric_gt`. -/
def jitNumericGt := defNumericCmp (fun r => r > 0)

/-- `jit_numeric_ge`. -/
def jitNumericGe := defNumericCmp (fun r => r ≥ 0)

/-- `jit_numeric_larger`. -/
def jitNumericLarger (fallback : NumericDatum → NumericDatum → NumericDatum) (a b : NumericDatum) : NumericDatum :=
  let r := numericCmpDatum a b
  if r ≠ -2 then (if r ≥ 0 then a else b) else fallback a b

/-- `jit_numeric_smaller`. -/
def jitNumericSmaller (fallback : NumericDatum → NumericDatum → NumericDatum) (a b : NumericDatum) : NumericDatum :=
  let r := numericCmpDatum a b
  if r ≠ -2 then (if r ≤ 0 then a else b) else fallback a b

/-! ## The order of the rationals -/

/-- The three-way comparison of two rationals. -/
def cmpRat (x y : ℚ) : ℤ := if x < y then -1 else if x = y then 0 else 1

/-- The comparison functions order a pair of numerics as the rationals they denote, whatever PostgreSQL's own functions would
return. -/
structure OrdersAsRationals (a b : ShortNumeric) : Prop where
  cmpDatum : numericCmpDatum a.datum b.datum = cmpRat a.value b.value
  cmp : ∀ fallback, jitNumericCmp fallback a.datum b.datum = cmpRat a.value b.value
  eq : ∀ fallback, jitNumericEq fallback a.datum b.datum = if a.value = b.value then 1 else 0
  ne : ∀ fallback, jitNumericNe fallback a.datum b.datum = if a.value ≠ b.value then 1 else 0
  lt : ∀ fallback, jitNumericLt fallback a.datum b.datum = if a.value < b.value then 1 else 0
  le : ∀ fallback, jitNumericLe fallback a.datum b.datum = if a.value ≤ b.value then 1 else 0
  gt : ∀ fallback, jitNumericGt fallback a.datum b.datum = if a.value > b.value then 1 else 0
  ge : ∀ fallback, jitNumericGe fallback a.datum b.datum = if a.value ≥ b.value then 1 else 0
  larger : ∀ fallback, jitNumericLarger fallback a.datum b.datum = if a.value ≥ b.value then a.datum else b.datum
  smaller : ∀ fallback, jitNumericSmaller fallback a.datum b.datum = if a.value ≤ b.value then a.datum else b.datum

end PgJitter
