import Mathlib.Algebra.Order.Ring.Int
import Mathlib.Tactic.Linarith
import Mathlib.Tactic.Ring

/-!
# Range checks after wrapping arithmetic

A machine sum is the exact sum reduced into the symmetric window of the word, `Int.bmod`. Here a range check is made on the reduced
number: when does it accept what the exact number is, and nothing else.
-/

namespace Wrapping

variable {m : Nat} {lo hi n : Int}

/-- A number in a half-open range. -/
abbrev Within (lo hi n : Int) : Prop := lo ≤ n ∧ n < hi

/-- No other number with the same residue is in the range. -/
def NoAlias (m : Nat) (lo hi n : Int) : Prop := ∀ k : Int, k ≠ 0 → ¬ Within lo hi (n + k * m)

/-- The reduced number differs from the number by a multiple of the modulus. -/
theorem exists_bmod_eq (m : Nat) (n : Int) : ∃ k : Int, n.bmod m = n + k * m := by
  have h : (m : Int) ∣ n.bmod m - n := by
    rw [Int.dvd_iff_emod_eq_zero, Int.sub_emod, Int.bmod_emod, Int.sub_self, Int.zero_emod]
  obtain ⟨k, hk⟩ := h
  exact ⟨k, by rw [Int.mul_comm k]; omega⟩

/-- A number of the window is its own reduction. -/
theorem bmod_eq_self_of_within (hm : 0 < m) (h : Within (-(m / 2)) ((m + 1) / 2) n) : n.bmod m = n :=
  (Int.bmod_eq_iff hm).2 ⟨h.1, h.2, by simp⟩

/-- A number whose reduction is in a range of the window has a residue there. -/
theorem bmod_eq_of_within_add (hm : 0 < m) (hlo : -(m / 2) ≤ lo) (hhi : hi ≤ (m + 1) / 2) {k : Int}
    (h : Within lo hi (n + k * m)) : n.bmod m = n + k * m := by
  rw [← Int.add_mul_bmod_self_right n k m]
  exact bmod_eq_self_of_within hm ⟨Int.le_trans hlo h.1, Int.lt_of_lt_of_le h.2 hhi⟩

/-- The check on the reduced number is exact when no other number with that residue is in the range. -/
theorem check_exact_iff (hm : 0 < m) (hlo : -(m / 2) ≤ lo) (hhi : hi ≤ (m + 1) / 2) :
    (Within lo hi (n.bmod m) → n.bmod m = n) ↔ NoAlias m lo hi n := by
  constructor
  · intro h k hk hw
    have he := bmod_eq_of_within_add hm hlo hhi hw
    have h0 : k * m = 0 := by
      have := h (he ▸ hw)
      omega
    rcases Int.mul_eq_zero.1 h0 with h0 | h0
    · exact hk h0
    · omega
  · intro h hw
    obtain ⟨k, hk⟩ := exists_bmod_eq m n
    by_cases h0 : k = 0
    · rw [hk, h0, Int.zero_mul, Int.add_zero]
    · exact absurd (hk ▸ hw) (h k h0)

/-- What is in the range is accepted as it is. -/
theorem bmod_eq_of_within (hm : 0 < m) (hlo : -(m / 2) ≤ lo) (hhi : hi ≤ (m + 1) / 2) (h : Within lo hi n) : n.bmod m = n :=
  bmod_eq_self_of_within hm ⟨Int.le_trans hlo h.1, Int.lt_of_lt_of_le h.2 hhi⟩

end Wrapping
