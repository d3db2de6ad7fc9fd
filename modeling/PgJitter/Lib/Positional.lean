import Mathlib.Algebra.Order.Field.Power
import Mathlib.Tactic.Ring
import Mathlib.Tactic.Linarith
import Mathlib.Tactic.Positivity
import Mathlib.Tactic.LinearCombination

/-!
# Positional notation with an exponent

The value of a list of digits, most significant first, whose first digit counts multiples of a power of the base (`value`). The
digits are any integers: a digit array that collects sums without carrying has a value too. Digits below the base bound the
value by the next power (`value_lt`), so that two digit strings compare by their exponents, then by their first difference.
-/

namespace Positional

section Value

variable {K : Type*} [Field K]

/-- The value of the digits `ds`, the first of which counts multiples of `B ^ w`. -/
def value (B : K) (w : ℤ) : List ℤ → K
  | [] => 0
  | d :: ds => d * B ^ w + value B (w - 1) ds

@[simp] theorem value_nil (B : K) (w : ℤ) : value B w [] = 0 := rfl

@[simp] theorem value_cons (B : K) (w : ℤ) (d : ℤ) (ds : List ℤ) :
    value B w (d :: ds) = d * B ^ w + value B (w - 1) ds := rfl

/-- The digits after a prefix count from the exponent the prefix ends at. -/
theorem value_append (B : K) (w : ℤ) (ds es : List ℤ) :
    value B w (ds ++ es) = value B w ds + value B (w - ds.length) es := by
  induction ds generalizing w with
  | nil => simp
  | cons d ds ih =>
    rw [List.cons_append, value_cons, value_cons, ih, List.length_cons]
    rw [show w - 1 - (ds.length : ℤ) = w - ((ds.length + 1 : ℕ) : ℤ) by push_cast; ring]
    ring

/-- Zero digits have no value. -/
theorem value_eq_zero (B : K) (w : ℤ) {ds : List ℤ} (h : ∀ d ∈ ds, d = 0) : value B w ds = 0 := by
  induction ds generalizing w with
  | nil => rfl
  | cons d ds ih =>
    rw [value_cons, h d List.mem_cons_self, ih _ (fun e he => h e (List.mem_cons_of_mem _ he))]
    simp

/-- Adding to one digit adds that multiple of its power. -/
theorem value_modify_add (B : K) (w : ℤ) (ds : List ℤ) (i : ℕ) (d : ℤ) (hi : i < ds.length) :
    value B w (ds.modify i (· + d)) = value B w ds + d * B ^ (w - i) := by
  induction ds generalizing w i with
  | nil => simp at hi
  | cons e es ih =>
    cases i with
    | zero =>
      rw [List.modify_zero_cons, value_cons, value_cons]
      push_cast
      rw [sub_zero]
      ring
    | succ i =>
      rw [List.modify_succ_cons, value_cons, value_cons, ih _ _ (by simpa using hi)]
      rw [show w - 1 - (i : ℤ) = w - ((i + 1 : ℕ) : ℤ) by push_cast; ring]
      ring

/-- Zeros added on either side of a digit string, the exponent moved up by those in front, keep its value. -/
theorem value_pad (B : K) (w : ℤ) (ds : List ℤ) (m n : ℕ) :
    value B (w + m) (List.replicate m 0 ++ ds ++ List.replicate n 0) = value B w ds := by
  have hzero : ∀ (k : ℕ) (v : ℤ), value B v (List.replicate k 0) = 0 := fun k v =>
    value_eq_zero B v (fun d hd => (List.mem_replicate.mp hd).2)
  rw [value_append, value_append, hzero, hzero, List.length_replicate, add_sub_cancel_right, zero_add, add_zero]

/-- One pass of carry propagation in base `b`, from the last digit to the first: the digits, and the carry out of the first. -/
def carry (b : ℤ) : List ℤ → List ℤ × ℤ
  | [] => ([], 0)
  | d :: ds => ((d + (carry b ds).2) % b :: (carry b ds).1, (d + (carry b ds).2) / b)

@[simp] theorem length_carry (b : ℤ) (ds : List ℤ) : (carry b ds).1.length = ds.length := by
  induction ds with
  | nil => rfl
  | cons d ds ih => simp [carry, ih]

/-- Carrying keeps the value, when the carry out of the first digit is counted. -/
theorem value_carry (b : ℤ) (hb : (b : K) ≠ 0) (w : ℤ) (ds : List ℤ) :
    value (b : K) w (carry b ds).1 + (carry b ds).2 * (b : K) ^ (w + 1) = value (b : K) w ds := by
  induction ds generalizing w with
  | nil => simp [carry]
  | cons d ds ih =>
    have hds := ih (w - 1)
    rw [sub_add_cancel] at hds
    have hdiv : (((d + (carry b ds).2) % b : ℤ) : K) + b * ((d + (carry b ds).2) / b : ℤ) = d + ((carry b ds).2 : ℤ) := by
      rw [← Int.cast_mul, ← Int.cast_add, ← Int.cast_add, Int.emod_add_mul_ediv]
    rw [carry, value_cons, value_cons, ← hds, zpow_add_one₀ hb]
    linear_combination ((b : K) ^ w) * hdiv

/-- The digits after carrying are digits of the base. -/
theorem carry_digits {b : ℤ} (hb : 0 < b) (ds : List ℤ) : ∀ d ∈ (carry b ds).1, 0 ≤ d ∧ d < b := by
  induction ds with
  | nil => simp [carry]
  | cons d ds ih =>
    intro e he
    rcases List.mem_cons.mp he with rfl | he
    · exact ⟨Int.emod_nonneg _ hb.ne', Int.emod_lt_of_pos _ hb⟩
    · exact ih e he

/-- A carry out of digits of at most `(b - 1) * b` is a digit again. -/
theorem carry_out_lt {b : ℤ} (hb : 0 < b) {ds : List ℤ} (hds : ∀ d ∈ ds, 0 ≤ d ∧ d ≤ (b - 1) * b) :
    0 ≤ (carry b ds).2 ∧ (carry b ds).2 < b := by
  induction ds with
  | nil => exact ⟨le_refl _, hb⟩
  | cons d ds ih =>
    obtain ⟨h₀, h₁⟩ := ih (fun e he => hds e (List.mem_cons_of_mem _ he))
    obtain ⟨hd₀, hd₁⟩ := hds d List.mem_cons_self
    refine ⟨Int.ediv_nonneg (by omega) hb.le, Int.ediv_lt_of_lt_mul hb ?_⟩
    linarith

end Value

section Order

variable {K : Type*} [Field K] [LinearOrder K] [IsStrictOrderedRing K] {B : K} (hB : 1 ≤ B)
include hB

/-- Digits that are not negative have a value that is not negative. -/
theorem value_nonneg (w : ℤ) {ds : List ℤ} (h : ∀ d ∈ ds, 0 ≤ d) : 0 ≤ value B w ds := by
  have hpos : 0 < B := lt_of_lt_of_le one_pos hB
  induction ds generalizing w with
  | nil => exact le_refl _
  | cons d ds ih =>
    have hd : (0 : K) ≤ d := by exact_mod_cast h d List.mem_cons_self
    have hds := ih (w - 1) (fun e he => h e (List.mem_cons_of_mem _ he))
    rw [value_cons]
    positivity

/-- Digits below the base stay below the next power of the base. -/
theorem value_lt (w : ℤ) {ds : List ℤ} (h : ∀ d ∈ ds, (d : K) ≤ B - 1) : value B w ds < B ^ (w + 1) := by
  have hpos : 0 < B := lt_of_lt_of_le one_pos hB
  induction ds generalizing w with
  | nil => exact zpow_pos hpos _
  | cons d ds ih =>
    have hd := h d List.mem_cons_self
    have hds := ih (w - 1) (fun e he => h e (List.mem_cons_of_mem _ he))
    rw [sub_add_cancel] at hds
    have hw : (0 : K) < B ^ w := zpow_pos hpos _
    have hmul : (d : K) * B ^ w ≤ (B - 1) * B ^ w := mul_le_mul_of_nonneg_right hd hw.le
    rw [value_cons, zpow_add_one₀ hpos.ne']
    linarith

/-- A string whose first digit is positive reaches the power its first digit counts. -/
theorem zpow_le_value (w : ℤ) {d : ℤ} {ds : List ℤ} (hd : 0 < d) (hds : ∀ e ∈ ds, 0 ≤ e) :
    B ^ w ≤ value B w (d :: ds) := by
  have hpos : 0 < B := lt_of_lt_of_le one_pos hB
  have hw : (0 : K) < B ^ w := zpow_pos hpos _
  have hd' : (1 : K) ≤ d := by exact_mod_cast hd
  have hrest := value_nonneg hB (w - 1) hds
  have hmul : B ^ w ≤ (d : K) * B ^ w := le_mul_of_one_le_left hw.le hd'
  rw [value_cons]
  linarith

/-- The first difference decides between two strings of digits below the base. -/
theorem value_cons_lt (w : ℤ) {d e : ℤ} {ds es : List ℤ} (hde : d < e) (hds : ∀ x ∈ ds, (x : K) ≤ B - 1)
    (hes : ∀ x ∈ es, 0 ≤ x) : value B w (d :: ds) < value B w (e :: es) := by
  have hpos : 0 < B := lt_of_lt_of_le one_pos hB
  have hw : (0 : K) < B ^ w := zpow_pos hpos _
  have hlt := value_lt hB (w - 1) hds
  rw [sub_add_cancel] at hlt
  have hge := value_nonneg hB (w - 1) hes
  have hde' : (d : K) + 1 ≤ e := by exact_mod_cast hde
  have hmul : ((d : K) + 1) * B ^ w ≤ e * B ^ w := mul_le_mul_of_nonneg_right hde' hw.le
  rw [value_cons, value_cons]
  linarith

/-- A digit that is not zero makes the value of a string positive. -/
theorem value_pos_of_mem (w : ℤ) {ds : List ℤ} (hds : ∀ x ∈ ds, 0 ≤ x) {d : ℤ} (hd : d ∈ ds) (hne : d ≠ 0) :
    0 < value B w ds := by
  have hpos : 0 < B := lt_of_lt_of_le one_pos hB
  induction ds generalizing w with
  | nil => cases hd
  | cons e es ih =>
    have hes : ∀ x ∈ es, 0 ≤ x := fun x hx => hds x (List.mem_cons_of_mem _ hx)
    have hrest := value_nonneg hB (w - 1) hes
    have he : (0 : K) ≤ e := by exact_mod_cast hds e List.mem_cons_self
    have hw : (0 : K) < B ^ w := zpow_pos hpos _
    rw [value_cons]
    rcases List.mem_cons.mp hd with rfl | hd
    · have hd' : (0 : K) < d := by
        have := hds d List.mem_cons_self
        exact_mod_cast lt_of_le_of_ne this (Ne.symm hne)
      have := mul_pos hd' hw
      linarith
    · have := ih (w - 1) hes hd
      have := mul_nonneg he hw.le
      linarith

end Order

end Positional
