import Mathlib.Logic.Function.Basic

/-!
# Packed records

Two things a decoder of packed records does: it rounds an offset up to an alignment, and it fills an array range by range. The
contents of the filled ranges are given by one function, so that what a decoder has done so far is one equation.
-/

namespace Layout

/-! ## Rounding up -/

/-- The first multiple of `a` at or after `n`. -/
def alignUp (a n : Nat) : Nat := (n + (a - 1)) / a * a

theorem dvd_alignUp (a n : Nat) : a ∣ alignUp a n := Nat.dvd_mul_left a _

/-- A multiple stays. -/
theorem alignUp_of_dvd {a n : Nat} (ha : 0 < a) (h : a ∣ n) : alignUp a n = n := by
  obtain ⟨m, rfl⟩ := h
  have hdiv : (a * m + (a - 1)) / a = m := by
    rw [Nat.mul_add_div ha, Nat.div_eq_of_lt (Nat.sub_lt ha Nat.one_pos), Nat.add_zero]
  rw [alignUp, hdiv, Nat.mul_comm]

/-- Only a multiple stays. -/
theorem alignUp_eq_self_iff {a n : Nat} (ha : 0 < a) : alignUp a n = n ↔ a ∣ n :=
  ⟨fun h => h ▸ dvd_alignUp a n, alignUp_of_dvd ha⟩

@[simp] theorem alignUp_one (n : Nat) : alignUp 1 n = n := alignUp_of_dvd Nat.one_pos (Nat.one_dvd n)

@[simp] theorem alignUp_zero (a : Nat) : alignUp a 0 = 0 := by
  rcases Nat.eq_zero_or_pos a with rfl | ha
  · rfl
  · exact alignUp_of_dvd ha (Nat.dvd_zero a)

theorem le_alignUp {a : Nat} (ha : 0 < a) (n : Nat) : n ≤ alignUp a n := by
  have h := Nat.div_add_mod (n + (a - 1)) a
  have hlt := Nat.mod_lt (n + (a - 1)) ha
  rw [alignUp, Nat.mul_comm]
  omega

/-- Rounding up stays below the next multiple. -/
theorem alignUp_lt {a : Nat} (ha : 0 < a) (n : Nat) : alignUp a n < n + a := by
  have h := Nat.div_add_mod (n + (a - 1)) a
  rw [alignUp, Nat.mul_comm]
  omega

/-! ## Filling ranges of an array -/

variable {β : Type}

/-- The array `f` with the range from `i` to before `j` filled from `g`. -/
def fill (g f : Nat → β) (i j : Nat) : Nat → β := fun k => if i ≤ k ∧ k < j then g k else f k

theorem fill_of_mem (g f : Nat → β) {i j k : Nat} (h : i ≤ k) (h' : k < j) : fill g f i j k = g k := if_pos ⟨h, h'⟩

theorem fill_of_lt (g f : Nat → β) {i j k : Nat} (h : k < i) : fill g f i j k = f k :=
  if_neg fun h' => absurd h (Nat.not_lt_of_le h'.1)

theorem fill_of_ge (g f : Nat → β) {i j k : Nat} (h : j ≤ k) : fill g f i j k = f k :=
  if_neg fun h' => absurd h'.2 (Nat.not_lt_of_le h)

/-- An empty range. -/
theorem fill_of_le (g f : Nat → β) {i j : Nat} (h : j ≤ i) : fill g f i j = f := by
  funext k
  rcases Nat.lt_or_ge k j with hk | hk
  · exact fill_of_lt g f (Nat.lt_of_lt_of_le hk h)
  · exact fill_of_ge g f hk

@[simp] theorem fill_self (g f : Nat → β) (i : Nat) : fill g f i i = f := fill_of_le g f (Nat.le_refl i)

/-- A range of one entry. -/
theorem fill_succ (g f : Nat → β) (i : Nat) : fill g f i (i + 1) = Function.update f i (g i) := by
  funext k
  rcases Nat.lt_trichotomy k i with hk | rfl | hk
  · rw [fill_of_lt g f hk, Function.update_of_ne (Nat.ne_of_lt hk)]
  · rw [fill_of_mem g f (Nat.le_refl k) (Nat.lt_succ_self k), Function.update_self]
  · rw [fill_of_ge g f hk, Function.update_of_ne (Nat.ne_of_gt hk)]

/-- Two ranges that meet. -/
theorem fill_fill (g f : Nat → β) {i m j : Nat} (h : i ≤ m) (h' : m ≤ j) :
    fill g (fill g f i m) m j = fill g f i j := by
  funext k
  rcases Nat.lt_or_ge k m with hk | hk
  · rw [fill_of_lt _ _ hk]
    rcases Nat.lt_or_ge k i with hi | hi
    · rw [fill_of_lt _ _ hi, fill_of_lt _ _ hi]
    · rw [fill_of_mem _ _ hi hk, fill_of_mem _ _ hi (Nat.lt_of_lt_of_le hk h')]
  · rcases Nat.lt_or_ge k j with hj | hj
    · rw [fill_of_mem _ _ hk hj, fill_of_mem _ _ (Nat.le_trans h hk) hj]
    · rw [fill_of_ge _ _ hj, fill_of_ge _ _ hk, fill_of_ge _ _ hj]

/-- The same range twice. -/
theorem fill_overwrite (g g' f : Nat → β) (i j : Nat) : fill g (fill g' f i j) i j = fill g f i j := by
  funext k
  by_cases hk : i ≤ k ∧ k < j
  · rw [fill_of_mem _ _ hk.1 hk.2, fill_of_mem _ _ hk.1 hk.2]
  · exact (if_neg hk).trans ((if_neg hk).trans (if_neg hk).symm)

/-- One entry and the rest. -/
theorem fill_update (g f : Nat → β) {i j : Nat} (h : i < j) :
    fill g (Function.update f i (g i)) (i + 1) j = fill g f i j := by
  rw [← fill_succ, fill_fill g f (Nat.le_succ i) h]

/-- Only the filled range of the source counts. -/
theorem fill_congr {g g' : Nat → β} (f : Nat → β) {i j : Nat} (h : ∀ k, i ≤ k → k < j → g k = g' k) :
    fill g f i j = fill g' f i j := by
  funext k
  by_cases hk : i ≤ k ∧ k < j
  · rw [fill_of_mem g f hk.1 hk.2, fill_of_mem g' f hk.1 hk.2, h k hk.1 hk.2]
  · exact (if_neg hk).trans (if_neg hk).symm

end Layout
