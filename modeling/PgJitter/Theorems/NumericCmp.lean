import PgJitter.NumericCmp

/-!
# In-place numeric comparison against the order of the rationals

Sign, weight and digits decide the order of two canonical numerics, except when one of them is zero: zero has weight 0, and the
weights are compared before anything asks whether there are digits. So zero compares above every positive numeric of negative
weight, and right in every other case (`orders_as_rationals_iff`).
-/

namespace PgJitter

open Positional

namespace NumericCmpAux

/-! ## The order of the rationals -/

theorem cmpRat_of_lt {x y : ℚ} (h : x < y) : cmpRat x y = -1 := if_pos h

theorem cmpRat_self (x : ℚ) : cmpRat x x = 0 := by simp [cmpRat]

theorem cmpRat_of_gt {x y : ℚ} (h : y < x) : cmpRat x y = 1 := by
  rw [cmpRat, if_neg (not_lt_of_gt h), if_neg (ne_of_gt h)]

theorem cmpRat_neg (x y : ℚ) : cmpRat (-x) (-y) = -cmpRat x y := by
  rcases lt_trichotomy x y with h | rfl | h
  · rw [cmpRat_of_lt h, cmpRat_of_gt (neg_lt_neg h), neg_neg]
  · rw [cmpRat_self, cmpRat_self, neg_zero]
  · rw [cmpRat_of_gt h, cmpRat_of_lt (neg_lt_neg h)]

theorem cmpRat_add_left (c x y : ℚ) : cmpRat (c + x) (c + y) = cmpRat x y := by
  simp [cmpRat]

/-! ## Digits -/

theorem one_le_nbase : (1 : ℚ) ≤ (nbase : ℚ) := by norm_num [nbase]

theorem cast_le_nbase_sub_one {d : ℤ} (h : d < nbase) : (d : ℚ) ≤ (nbase : ℚ) - 1 := by
  have : d ≤ (nbase : ℤ) - 1 := by omega
  exact_mod_cast this

/-- The digit loops compare the values of two digit strings of the same weight. -/
theorem cmpDigits_eq (w : ℤ) {ds es : List ℤ} (hds : ∀ d ∈ ds, 0 ≤ d ∧ d < nbase) (hes : ∀ d ∈ es, 0 ≤ d ∧ d < nbase) :
    cmpDigits ds es = cmpRat (value (nbase : ℚ) w ds) (value (nbase : ℚ) w es) := by
  have hnonneg : ∀ xs : List ℤ, (∀ d ∈ xs, 0 ≤ d ∧ d < nbase) → ∀ d ∈ xs, 0 ≤ d := fun xs h d hd => (h d hd).1
  have hle : ∀ xs : List ℤ, (∀ d ∈ xs, 0 ≤ d ∧ d < nbase) → ∀ d ∈ xs, (d : ℚ) ≤ (nbase : ℚ) - 1 :=
    fun xs h d hd => cast_le_nbase_sub_one (h d hd).2
  induction ds generalizing w es with
  | nil =>
    cases es with
    | nil => rw [cmpRat_self]; rfl
    | cons e es =>
      by_cases hany : ∃ x ∈ e :: es, x ≠ 0
      · obtain ⟨x, hx, hne⟩ := hany
        rw [value_nil, cmpRat_of_lt (value_pos_of_mem one_le_nbase w (hnonneg _ hes) hx hne), cmpDigits,
          if_pos (List.any_eq_true.mpr ⟨x, hx, by simpa using hne⟩)]
      · have hzero : ∀ x ∈ e :: es, x = 0 := fun x hx => by
          by_contra hne
          exact hany ⟨x, hx, hne⟩
        rw [value_eq_zero _ w hzero, value_nil, cmpRat_self, cmpDigits, if_neg]
        simpa using hzero
  | cons d ds ih =>
    have hds' : ∀ x ∈ ds, 0 ≤ x ∧ x < nbase := fun x hx => hds x (List.mem_cons_of_mem _ hx)
    cases es with
    | nil =>
      by_cases hany : ∃ x ∈ d :: ds, x ≠ 0
      · obtain ⟨x, hx, hne⟩ := hany
        rw [value_nil, cmpRat_of_gt (value_pos_of_mem one_le_nbase w (hnonneg _ hds) hx hne), cmpDigits,
          if_pos (List.any_eq_true.mpr ⟨x, hx, by simpa using hne⟩)]
      · have hzero : ∀ x ∈ d :: ds, x = 0 := fun x hx => by
          by_contra hne
          exact hany ⟨x, hx, hne⟩
        rw [value_eq_zero _ w hzero, value_nil, cmpRat_self, cmpDigits, if_neg]
        simpa using hzero
    | cons e es =>
      have hes' : ∀ x ∈ es, 0 ≤ x ∧ x < nbase := fun x hx => hes x (List.mem_cons_of_mem _ hx)
      rw [cmpDigits]
      rcases lt_trichotomy d e with hlt | rfl | hgt
      · rw [if_pos (ne_of_lt hlt), if_neg (by omega),
          cmpRat_of_lt (value_cons_lt one_le_nbase w hlt (hle _ hds') (hnonneg _ hes'))]
      · rw [if_neg (by simp), value_cons, value_cons, cmpRat_add_left]
        exact ih (w - 1) hds' hes'
      · rw [if_pos (ne_of_gt hgt), if_pos hgt,
          cmpRat_of_gt (value_cons_lt one_le_nbase w hgt (hle _ hes') (hnonneg _ hds'))]

/-! ## Magnitudes -/

/-- The absolute value of a canonical numeric. -/
def magnitude (x : ShortNumeric) : ℚ := value (nbase : ℚ) x.weight x.digits

theorem value_eq_magnitude (x : ShortNumeric) : x.value = if x.neg then -magnitude x else magnitude x := rfl

theorem digit_bounds (x : ShortNumeric) : ∀ d ∈ x.digits, 0 ≤ d ∧ d < nbase :=
  fun d hd => ⟨x.digit_nonneg d hd, x.digit_lt d hd⟩

theorem magnitude_nonneg (x : ShortNumeric) : 0 ≤ magnitude x :=
  value_nonneg one_le_nbase _ x.digit_nonneg

theorem magnitude_zero {x : ShortNumeric} (h : x.digits = []) : magnitude x = 0 := by
  rw [magnitude, h, value_nil]

/-- The magnitude of a numeric with digits is at least the power of its weight. -/
theorem zpow_le_magnitude {x : ShortNumeric} (h : x.digits ≠ []) : (nbase : ℚ) ^ x.weight ≤ magnitude x := by
  have hhead := x.head_ne
  have hnonneg := x.digit_nonneg
  rw [magnitude]
  cases hd : x.digits with
  | nil => exact absurd hd h
  | cons d ds =>
    rw [hd] at hhead hnonneg
    have hd0 := hnonneg d List.mem_cons_self
    have hne : d ≠ 0 := by simpa using hhead
    exact zpow_le_value one_le_nbase _ (by omega) (fun e he => hnonneg e (List.mem_cons_of_mem _ he))

theorem magnitude_pos {x : ShortNumeric} (h : x.digits ≠ []) : 0 < magnitude x :=
  lt_of_lt_of_le (zpow_pos (by norm_num [nbase]) _) (zpow_le_magnitude h)

/-- The larger weight has the larger magnitude, when the numeric of larger weight has digits. -/
theorem magnitude_lt {x y : ShortNumeric} (hw : x.weight < y.weight) (hy : y.digits ≠ []) : magnitude x < magnitude y := by
  have hx := value_lt one_le_nbase x.weight (fun d hd => cast_le_nbase_sub_one (x.digit_lt d hd))
  have hmono : (nbase : ℚ) ^ (x.weight + 1) ≤ (nbase : ℚ) ^ y.weight := zpow_le_zpow_right₀ one_le_nbase (by omega)
  exact lt_of_lt_of_le hx (hmono.trans (zpow_le_magnitude hy))

/-! ## The comparison -/

/-- The comparison of two canonical Datums, on their fields. -/
theorem numericCmpDatum_datum (a b : ShortNumeric) :
    numericCmpDatum a.datum b.datum =
      if a.neg ≠ b.neg then (if a.digits = [] ∧ b.digits = [] then 0 else if a.neg then -1 else 1)
      else if a.weight ≠ b.weight then
        (if a.neg then -(if a.weight > b.weight then 1 else -1) else (if a.weight > b.weight then 1 else -1))
      else if a.neg then -cmpDigits a.digits b.digits else cmpDigits a.digits b.digits := by
  simp only [numericCmpDatum, numericParseDatum_datum, numericHdrNeg_header, numericHdrWeight_header]

/-- The numerics of one sign compare as their magnitudes, or the other way round. -/
theorem cmpRat_value_same_sign {a b : ShortNumeric} (h : a.neg = b.neg) :
    cmpRat a.value b.value =
      if a.neg then -cmpRat (magnitude a) (magnitude b) else cmpRat (magnitude a) (magnitude b) := by
  rw [value_eq_magnitude, value_eq_magnitude, ← h]
  cases a.neg
  · rfl
  · exact cmpRat_neg _ _

/-- Numerics of different signs: the one with the negative sign has digits, and is the smaller one. -/
theorem cmpRat_value_different_sign {a b : ShortNumeric} (h : a.neg ≠ b.neg) :
    cmpRat a.value b.value = if a.neg then -1 else 1 := by
  rw [value_eq_magnitude, value_eq_magnitude]
  cases ha : a.neg with
  | true =>
    have hb : b.neg = false := by simpa [ha] using h.symm
    have hne : a.digits ≠ [] := fun hnil => by simpa [ha] using a.zero_pos hnil
    have := magnitude_pos hne
    have := magnitude_nonneg b
    simp only [hb, if_true, Bool.false_eq_true, if_false]
    exact cmpRat_of_lt (by linarith)
  | false =>
    have hb : b.neg = true := by simpa [ha] using h.symm
    have hne : b.digits ≠ [] := fun hnil => by simpa [hb] using b.zero_pos hnil
    have := magnitude_pos hne
    have := magnitude_nonneg a
    simp only [hb, if_true, Bool.false_eq_true, if_false]
    exact cmpRat_of_gt (by linarith)

/-- Weights that differ compare as the magnitudes do, when the numeric of larger weight has digits. -/
theorem cmpRat_magnitude_of_weight {a b : ShortNumeric} (hw : a.weight ≠ b.weight)
    (ha : b.weight < a.weight → a.digits ≠ []) (hb : a.weight < b.weight → b.digits ≠ []) :
    cmpRat (magnitude a) (magnitude b) = if a.weight > b.weight then 1 else -1 := by
  rcases lt_or_gt_of_ne hw with hlt | hgt
  · rw [if_neg (by omega), cmpRat_of_lt (magnitude_lt hlt (hb hlt))]
  · rw [if_pos hgt, cmpRat_of_gt (magnitude_lt hgt (ha hgt))]

/-- A right comparison makes every function built on it right. -/
theorem ordersAsRationals_of_cmp {a b : ShortNumeric} (h : numericCmpDatum a.datum b.datum = cmpRat a.value b.value) :
    OrdersAsRationals a b := by
  rcases lt_trichotomy a.value b.value with hlt | heq | hgt
  · have hr := h.trans (cmpRat_of_lt hlt)
    constructor <;> intros <;>
      simp [jitNumericCmp, jitNumericEq, jitNumericNe, jitNumericLt, jitNumericLe, jitNumericGt, jitNumericGe, defNumericCmp,
        jitNumericLarger, jitNumericSmaller, hr, cmpRat_of_lt hlt, hlt, hlt.ne, hlt.le, not_le_of_gt hlt, not_lt_of_gt hlt]
  · have hr := h.trans (by rw [heq, cmpRat_self])
    constructor <;> intros <;>
      simp [jitNumericCmp, jitNumericEq, jitNumericNe, jitNumericLt, jitNumericLe, jitNumericGt, jitNumericGe, defNumericCmp,
        jitNumericLarger, jitNumericSmaller, hr, heq, cmpRat_self]
  · have hr := h.trans (cmpRat_of_gt hgt)
    constructor <;> intros <;>
      simp [jitNumericCmp, jitNumericEq, jitNumericNe, jitNumericLt, jitNumericLe, jitNumericGt, jitNumericGe, defNumericCmp,
        jitNumericLarger, jitNumericSmaller, hr, cmpRat_of_gt hgt, hgt, hgt.ne', hgt.le, not_le_of_gt hgt, not_lt_of_gt hgt]

end NumericCmpAux

open NumericCmpAux

/-- One numeric is zero and the other positive with a negative weight, that is, below one. -/
def ZeroAgainstFraction (a b : ShortNumeric) : Prop :=
  (a.digits = [] ∧ b.neg = false ∧ b.weight < 0) ∨ (b.digits = [] ∧ a.neg = false ∧ a.weight < 0)

/-- A larger weight without digits is a zero compared with a numeric of negative weight. -/
theorem zeroAgainstFraction_of_weight {x y : ShortNumeric} (hneg : x.neg = y.neg) (hw : y.weight < x.weight)
    (hx : x.digits = []) : x.digits = [] ∧ y.neg = false ∧ y.weight < 0 :=
  ⟨hx, hneg ▸ x.zero_pos hx, by rw [← x.zero_weight hx]; exact hw⟩

/-- Unless one numeric is zero and the other a positive one below one, the comparison is that of the rationals. -/
theorem numericCmpDatum_eq_cmpRat {a b : ShortNumeric} (h : ¬ZeroAgainstFraction a b) :
    numericCmpDatum a.datum b.datum = cmpRat a.value b.value := by
  rw [numericCmpDatum_datum]
  by_cases hneg : a.neg = b.neg
  · rw [if_neg (not_not.mpr hneg), cmpRat_value_same_sign hneg]
    by_cases hw : a.weight = b.weight
    · have hdigits := cmpDigits_eq a.weight (digit_bounds a) (digit_bounds b)
      rw [if_neg (not_not.mpr hw), hdigits, magnitude, magnitude, ← hw]
    · rw [if_pos hw, cmpRat_magnitude_of_weight hw
        (fun hlt hnil => h (Or.inl (zeroAgainstFraction_of_weight hneg hlt hnil)))
        (fun hlt hnil => h (Or.inr (zeroAgainstFraction_of_weight hneg.symm hlt hnil)))]
  · have hdigits : ¬(a.digits = [] ∧ b.digits = []) := fun hnil =>
      hneg ((a.zero_pos hnil.1).trans (b.zero_pos hnil.2).symm)
    rw [if_pos hneg, if_neg hdigits, cmpRat_value_different_sign hneg]

/-- A zero is put above a positive numeric of negative weight. -/
theorem numericCmpDatum_zero_fraction {a b : ShortNumeric} (ha : a.digits = []) (hb : b.neg = false) (hw : b.weight < 0) :
    numericCmpDatum a.datum b.datum = 1 ∧ numericCmpDatum b.datum a.datum = -1 ∧ a.value < b.value := by
  have haw := a.zero_weight ha
  have han := a.zero_pos ha
  have hbd : b.digits ≠ [] := fun hnil => by have := b.zero_weight hnil; omega
  refine ⟨?_, ?_, ?_⟩
  · simp [numericCmpDatum_datum, han, hb, haw, hw.ne', hw]
  · simp [numericCmpDatum_datum, han, hb, haw, hw.ne, not_lt_of_gt hw]
  · rw [value_eq_magnitude, value_eq_magnitude, magnitude_zero ha, han, hb]
    exact magnitude_pos hbd

/-- The comparison functions order two canonical numerics as the rationals they denote exactly when it is not the case that one
is zero and the other positive with a negative weight. -/
theorem orders_as_rationals_iff (a b : ShortNumeric) : OrdersAsRationals a b ↔ ¬ZeroAgainstFraction a b := by
  constructor
  · intro h hzero
    rcases hzero with ⟨ha, hb, hw⟩ | ⟨hb, ha, hw⟩
    · obtain ⟨hcmp, -, hlt⟩ := numericCmpDatum_zero_fraction ha hb hw
      have := h.cmpDatum
      rw [hcmp, cmpRat_of_lt hlt] at this
      exact absurd this (by decide)
    · obtain ⟨-, hcmp, hlt⟩ := numericCmpDatum_zero_fraction hb ha hw
      have := h.cmpDatum
      rw [hcmp, cmpRat_of_gt hlt] at this
      exact absurd this (by decide)
  · intro h
    exact ordersAsRationals_of_cmp (numericCmpDatum_eq_cmpRat h)

namespace NumericCmpWitness

/-- The numeric 0.5: one digit, 5000, of weight -1. -/
def half : ShortNumeric := .single (-1) 1 5000 (by decide)

/-- Zero compares above 0.5. -/
theorem zero_above_half : ¬∀ a b : ShortNumeric, OrdersAsRationals a b := by
  intro h
  have hcmp := (h (.zero 0 (by decide)) half).cmpDatum
  have hcode : numericCmpDatum (ShortNumeric.zero 0 (by decide)).datum half.datum = 1 := by decide
  have hlt : (ShortNumeric.zero 0 (by decide)).value < half.value := by
    norm_num [ShortNumeric.value, ShortNumeric.zero, half, ShortNumeric.single, nbase]
  rw [hcode, cmpRat_of_lt hlt] at hcmp
  exact absurd hcmp (by decide)

end NumericCmpWitness

end PgJitter
