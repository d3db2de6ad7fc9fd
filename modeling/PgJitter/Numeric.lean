import PgJitter.Lib.Positional
import Mathlib.Data.Rat.Defs
import Mathlib.Algebra.Order.Field.Rat
import Mathlib.Data.Nat.Bitwise

/-!
# Short-format numerics

The part of `src/pg_jit_funcs.c` that reads a `numeric` Datum in place: the header tests and `numeric_parse_datum`. A canonical
short numeric (`ShortNumeric`) is a sign, a weight, a display scale and base-10000 digits without zeros at either end; the
Datum PostgreSQL stores for it is `ShortNumeric.datum`, the rational it denotes `ShortNumeric.value`.
-/

namespace PgJitter

open Positional

/-- `NBASE_JIT`. -/
def nbase : Nat := 10000

/-- A `numeric` Datum by the form of its varlena. The payload of a plain one (either header form) is a sequence of 16-bit words:
the `n_header` and the digits. -/
inductive NumericDatum where
  | external
  | compressed
  | inline (words : List Nat)
  deriving DecidableEq, Repr

/-- A word read as `int16`. -/
def toInt16 (w : Nat) : ℤ := if w % 65536 < 32768 then (w % 65536 : ℕ) else (w % 65536 : ℕ) - 65536

/-- `numeric_parse_datum`: the header and the digits, or `none` when the Datum is toasted, has no header or is not in the short
format. -/
def numericParseDatum : NumericDatum → Option (Nat × List ℤ)
  | .external => none
  | .compressed => none
  | .inline [] => none
  | .inline (hdr :: digits) => if hdr &&& 0xC000 ≠ 0x8000 then none else some (hdr, digits.map toInt16)

/-- `NUMERIC_HDR_NEG`. -/
def numericHdrNeg (hdr : Nat) : Bool := decide (hdr &&& 0x2000 ≠ 0)

/-- `NUMERIC_HDR_WEIGHT`: the low six bits, with `~0x3F` (which is `-64`) or-ed in when the weight's sign bit is set. -/
def numericHdrWeight (hdr : Nat) : ℤ :=
  if hdr &&& 0x0040 ≠ 0 then -64 + ((hdr &&& 0x003F : ℕ) : ℤ) else ((hdr &&& 0x003F : ℕ) : ℤ)

/-- `NUMERIC_HDR_DSCALE`. -/
def numericHdrDscale (hdr : Nat) : Nat := (hdr &&& 0x1F80) >>> 7

/-! ## Canonical short numerics -/

/-- A canonical short numeric: a sign, a weight of seven bits with sign, a display scale of six bits, and digits in base 10000
without a leading or a trailing zero. Zero has no digits, weight 0 and the positive sign. -/
structure ShortNumeric where
  neg : Bool
  weight : ℤ
  dscale : Nat
  digits : List ℤ
  weight_ge : -64 ≤ weight
  weight_le : weight ≤ 63
  dscale_lt : dscale < 64
  digit_nonneg : ∀ d ∈ digits, 0 ≤ d
  digit_lt : ∀ d ∈ digits, d < nbase
  head_ne : digits.head? ≠ some 0
  last_ne : digits.getLast? ≠ some 0
  zero_weight : digits = [] → weight = 0
  zero_pos : digits = [] → neg = false

namespace ShortNumeric

/-- The header PostgreSQL writes: `NUMERIC_SHORT`, the sign bit, the display scale in bits 7 to 12, and the weight in two's
complement in bits 0 to 6. -/
def header (x : ShortNumeric) : Nat :=
  0x8000 + (if x.neg then 0x2000 else 0) + x.dscale * 0x80 + (x.weight % 128).toNat

/-- The Datum PostgreSQL stores for a canonical short numeric. -/
def datum (x : ShortNumeric) : NumericDatum := .inline (x.header :: x.digits.map Int.toNat)

/-- The rational a canonical short numeric denotes. -/
def value (x : ShortNumeric) : ℚ :=
  if x.neg then -Positional.value (nbase : ℚ) x.weight x.digits else Positional.value (nbase : ℚ) x.weight x.digits

/-- Zero with a display scale. -/
def zero (dscale : Nat) (h : dscale < 64) : ShortNumeric where
  neg := false
  weight := 0
  dscale := dscale
  digits := []
  weight_ge := by decide
  weight_le := by decide
  dscale_lt := h
  digit_nonneg := by simp
  digit_lt := by simp
  head_ne := by simp
  last_ne := by simp
  zero_weight := fun _ => rfl
  zero_pos := fun _ => rfl

/-- The positive numeric with one digit. -/
def single (weight : ℤ) (dscale : Nat) (digit : ℤ)
    (h : (-64 ≤ weight ∧ weight ≤ 63) ∧ dscale < 64 ∧ 0 < digit ∧ digit < nbase) : ShortNumeric where
  neg := false
  weight := weight
  dscale := dscale
  digits := [digit]
  weight_ge := h.1.1
  weight_le := h.1.2
  dscale_lt := h.2.1
  digit_nonneg := by simpa using h.2.2.1.le
  digit_lt := by simpa using h.2.2.2
  head_ne := by simpa using h.2.2.1.ne'
  last_ne := by simpa using h.2.2.1.ne'
  zero_weight := by simp
  zero_pos := by simp

end ShortNumeric

/-! ## Reading a canonical Datum -/

/-- The header is its four fields: format bits, sign bit, display scale, weight. -/
theorem ShortNumeric.header_eq (x : ShortNumeric) :
    ∃ w : Nat, w < 128 ∧ (x.weight % 128).toNat = w ∧
      x.header = 2 ^ 13 * (4 + x.neg.toNat) + (2 ^ 7 * x.dscale + w) ∧ 2 ^ 7 * x.dscale + w < 2 ^ 13 := by
  have hw : 0 ≤ x.weight % 128 ∧ x.weight % 128 < 128 := ⟨Int.emod_nonneg _ (by decide), Int.emod_lt_of_pos _ (by decide)⟩
  have hd := x.dscale_lt
  refine ⟨(x.weight % 128).toNat, by omega, rfl, ?_, by omega⟩
  cases hneg : x.neg <;> simp only [ShortNumeric.header, hneg, Bool.toNat_true, Bool.toNat_false] <;> simp <;> omega

theorem testBit_header (x : ShortNumeric) {j : Nat} (hj : 13 ≤ j) :
    x.header.testBit j = (4 + x.neg.toNat).testBit (j - 13) := by
  obtain ⟨w, -, -, heq, hlt⟩ := x.header_eq
  rw [heq, Nat.testBit_two_pow_mul_add _ hlt, if_neg (by omega)]

theorem numericHdrNeg_header (x : ShortNumeric) : numericHdrNeg x.header = x.neg := by
  have hbit := testBit_header x (le_refl 13)
  rw [numericHdrNeg, show (0x2000 : Nat) = 2 ^ 13 by rfl, Nat.and_two_pow, hbit]
  cases x.neg <;> decide

/-- The format bits of a canonical header say short. -/
theorem header_and_format (x : ShortNumeric) : x.header &&& 0xC000 = 0x8000 := by
  have h15 := testBit_header x (show 13 ≤ 15 by decide)
  have h14 := testBit_header x (show 13 ≤ 14 by decide)
  rw [show (0xC000 : Nat) = 2 ^ 15 ||| 2 ^ 14 by rfl, Nat.and_or_distrib_left, Nat.and_two_pow, Nat.and_two_pow, h15, h14]
  cases x.neg <;> decide

theorem numericHdrDscale_header (x : ShortNumeric) : numericHdrDscale x.header = x.dscale := by
  obtain ⟨w, hw, -, heq, hlt⟩ := x.header_eq
  have hd := x.dscale_lt
  rw [numericHdrDscale, Nat.shiftRight_and_distrib, show (0x1F80 : Nat) >>> 7 = 2 ^ 6 - 1 by rfl,
    Nat.and_two_pow_sub_one_eq_mod, Nat.shiftRight_eq_div_pow, heq]
  omega

/-- The weight is read back from the header. -/
theorem numericHdrWeight_header (x : ShortNumeric) : numericHdrWeight x.header = x.weight := by
  obtain ⟨w, hw, hwt, heq, hlt⟩ := x.header_eq
  have hge := x.weight_ge
  have hle := x.weight_le
  have hlow : x.header &&& 0x003F = w % 64 := by
    rw [show (0x003F : Nat) = 2 ^ 6 - 1 by rfl, Nat.and_two_pow_sub_one_eq_mod, heq]
    omega
  have hsign : x.header &&& 0x0040 ≠ 0 ↔ 64 ≤ w := by
    have hbit : x.header.testBit 6 = decide (64 ≤ w) := by
      rw [Nat.testBit_eq_decide_div_mod_eq, heq]
      simp only [decide_eq_decide]
      omega
    rw [show (0x0040 : Nat) = 2 ^ 6 by rfl, Nat.and_two_pow, hbit]
    by_cases h : 64 ≤ w <;> simp [h]
  rw [numericHdrWeight, hlow]
  by_cases h : 64 ≤ w
  · rw [if_pos (hsign.mpr h)]
    omega
  · rw [if_neg (fun hs => h (hsign.mp hs))]
    omega

/-- A stored digit is read back. -/
theorem toInt16_toNat {d : ℤ} (h₀ : 0 ≤ d) (h : d < nbase) : toInt16 d.toNat = d := by
  simp only [nbase, Nat.cast_ofNat] at h
  rw [toInt16, if_pos (by omega)]
  omega

/-- Parsing the Datum of a canonical short numeric gives back its header and digits. -/
theorem numericParseDatum_datum (x : ShortNumeric) : numericParseDatum x.datum = some (x.header, x.digits) := by
  have hdigits : x.digits.map (toInt16 ∘ Int.toNat) = x.digits.map id :=
    List.map_congr_left (fun d hd => toInt16_toNat (x.digit_nonneg d hd) (x.digit_lt d hd))
  rw [ShortNumeric.datum, numericParseDatum, header_and_format, List.map_map, hdigits, List.map_id]
  simp

end PgJitter
