import PgJitter.Lemmas.FloatCmp

/-!
# The three implementations of the float order

The operators and the emitted code agree on every pair of floats. The btree functions agree with them on numbers, and on NaNs, but not
on a number and a NaN, which they find equal.
-/

namespace PgJitter

open FloatCmpAux

variable {α β : Type} [LinearOrder α] [LinearOrder β]

namespace FloatCmpAux

/-- Where all or none of the floats are NaN, the btree functions are the comparison of the order. -/
theorem jitBtfloatcmp_of_unmixed (w : α ↪o β) {S : Set (AnyFloat α β)}
    (h : (∀ a ∈ S, a.isnan) ∨ ∀ a ∈ S, ¬ a.isnan) {a b : AnyFloat α β} (ha : a ∈ S) (hb : b ∈ S) :
    jitBtfloatcmp w a b = orderingToInt (cmp (toF8 w a).key (toF8 w b).key) := by
  have hnan : (toF8 w a).isnan = (toF8 w b).isnan := by
    rw [isnan_toF8, isnan_toF8]
    rcases h with h | h
    · rw [h a ha, h b hb]
    · rw [Bool.eq_false_iff.2 (h a ha), Bool.eq_false_iff.2 (h b hb)]
  rw [jitBtfloatcmp_eq, jitBtfloat8cmp_of_isnan_eq hnan, float8CmpJit_eq]

/-- The sign of a comparison that is not greater. -/
theorem orderingToInt_cmp_nonpos {γ : Type} [LinearOrder γ] (a b : γ) : orderingToInt (cmp a b) ≤ 0 ↔ a ≤ b := by
  rw [orderingToInt_cmp]
  rcases lt_trichotomy a b with h | rfl | h
  · simp [h, h.le]
  · simp
  · simp [h, h.not_gt, h.not_ge]

omit [LinearOrder β] in
/-- The key of a NaN. -/
theorem key_of_isnan {b : PgFloat β} (h : b.isnan) : b.key = ⊤ := by
  cases b with
  | nan => rfl
  | num b => nomatch h

end FloatCmpAux

/-- On a set of floats of both widths the three-way functions are a total preorder with NaN on top, and agree with the operators and
the inlined comparisons, if and only if the set does not hold both a NaN and a number. -/
theorem btfloat_right_iff (w : α ↪o β) (toF64 : Datum → PgFloat β) (S : Set (AnyFloat α β)) :
    BtfloatRight w toF64 S ↔ (∀ a ∈ S, a.isnan) ∨ ∀ a ∈ S, ¬ a.isnan := by
  constructor
  · intro h
    by_contra hmix
    rw [not_or] at hmix
    obtain ⟨hnum, hnan⟩ := hmix
    push Not at hnum hnan
    obtain ⟨b, hb, hbn⟩ := hnum
    obtain ⟨a, ha, han⟩ := hnan
    have hne : (toF8 w a).isnan ≠ (toF8 w b).isnan := by
      rw [isnan_toF8, isnan_toF8, han]
      exact fun he => hbn he.symm
    have htop := h.nanTop a ha b hb han hbn
    rw [jitBtfloatcmp_eq, jitBtfloat8cmp_of_isnan_ne hne] at htop
    exact absurd htop (by decide)
  · intro h
    have hcmp : ∀ a ∈ S, ∀ b ∈ S, jitBtfloatcmp w a b = orderingToInt (cmp (toF8 w a).key (toF8 w b).key) :=
      fun a ha b hb => jitBtfloatcmp_of_unmixed w h ha hb
    refine ⟨fun a ha => ?_, fun a ha b hb => ?_, fun a ha b hb c hc hab hbc => ?_, fun a ha b hb han hbn => ?_,
      fun a ha b hb han hbn => ?_, fun a ha b hb op => ?_, fun s ha hb op => ?_⟩
    · rw [hcmp a ha a ha, cmp_self_eq_eq]
      rfl
    · rw [hcmp a ha b hb, hcmp b hb a ha, orderingToInt_cmp_swap]
    · rw [hcmp a ha b hb, orderingToInt_cmp_nonpos] at hab
      rw [hcmp b hb c hc, orderingToInt_cmp_nonpos] at hbc
      rw [hcmp a ha c hc, orderingToInt_cmp_nonpos]
      exact hab.trans hbc
    · rw [hcmp a ha b hb, key_of_isnan (isnan_toF8 w a ▸ han), key_of_isnan (isnan_toF8 w b ▸ hbn), cmp_self_eq_eq]
      rfl
    · rcases h with h | h
      · exact absurd (h b hb) hbn
      · exact absurd han (h a ha)
    · rw [jitFloatOp_eq, hcmp a ha b hb, float8CmpJit_eq]
    · rw [hcmp _ ha _ hb]
      rw [← float8CmpJit_eq]
      exact float8Cmp_stores op s

namespace FloatCmpWitness

/-- NaN and zero compare equal in the btree function, so it is no order with NaN on top, and no agreement with `jit_float8gt`. -/
theorem nan_equals_zero :
    ¬ BtfloatRight (RelEmbedding.refl (· ≤ ·) : Int ↪o Int) (fun d => .num d.toInt) Set.univ ∧
    jitBtfloat8cmp (.nan : PgFloat Int) (.num 0) = 0 ∧ jitFloat8gt (.nan : PgFloat Int) (.num 0) = 1 := by
  refine ⟨fun h => ?_, by decide, by decide⟩
  have htop := h.nanTop (.f8 .nan) trivial (.f8 (.num 0)) trivial rfl (by decide)
  exact absurd htop (by decide)

end FloatCmpWitness

end PgJitter
