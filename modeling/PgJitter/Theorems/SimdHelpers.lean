import PgJitter.Lemmas.SimdHelpers

/-!
# The vectorised helpers are their scalar definitions

In every variant and for every length.
-/

namespace PgJitter

open StridedLoop SimdHelpersAux

namespace SimdHelpersAux

/-- The bitmap check says whether every bit is set. -/
theorem nullbitmap_iff (variant : SimdVariant) (bits : Nat → BitVec 8) (ncols : Nat) :
    variant.simdNullbitmapAllNotnull bits ncols = true ↔ ∀ k < ncols, (bits (k / 8)).getLsbD (k % 8) = true := by
  have hfull : ncols >>> 3 = ncols / 8 := Nat.shiftRight_eq_div_pow ncols 3
  have htrailing : ncols &&& 7 = ncols % 8 := Nat.and_two_pow_sub_one_eq_mod ncols 3
  have hlt : ncols % 8 < 8 := Nat.mod_lt ncols (by decide)
  have hsplit : (∀ k < ncols, (bits (k / 8)).getLsbD (k % 8) = true) ↔
      (∀ i < ncols / 8, bits i = 0xFF) ∧ ∀ k < ncols % 8, (bits (ncols / 8)).getLsbD k = true := by
    constructor
    · refine fun h => ⟨fun i hi => (full_iff (bits i)).2 fun k hk => ?_, fun k hk => ?_⟩
      · have hbit := h (8 * i + k) (by omega)
        rwa [show (8 * i + k) / 8 = i by omega, show (8 * i + k) % 8 = k by omega] at hbit
      · have hbit := h (8 * (ncols / 8) + k) (by omega)
        rwa [show (8 * (ncols / 8) + k) / 8 = ncols / 8 by omega, show (8 * (ncols / 8) + k) % 8 = k by omega] at hbit
    · rintro ⟨hbytes, htail⟩ k hk
      rcases Nat.lt_or_ge (k / 8) (ncols / 8) with hbyte | hlast
      · exact (full_iff _).1 (hbytes (k / 8) hbyte) (k % 8) (Nat.mod_lt k (by decide))
      · rw [show k / 8 = ncols / 8 by omega]
        exact htail (k % 8) (by omega)
  rw [hsplit, ← fullBytesSet_iff variant, ← tail_iff (bits (ncols / 8)) hlt]
  unfold SimdVariant.simdNullbitmapAllNotnull
  dsimp only
  rw [hfull, htrailing]
  cases variant.fullBytesSet bits (ncols / 8) with
  | false => simp
  | true =>
    by_cases hzero : ncols % 8 = 0
    · simp [hzero]
    · simp [hzero]

/-- A loop that writes a stride of elements at a turn. -/
theorem forStrided_extracted {tupdata : Nat → BitVec 8} {stride count : Nat} (body : Nat → (Nat → BitVec 64) → Nat → BitVec 64)
    (hstride : 0 < stride) (values : Nat → BitVec 64)
    (hbody : ∀ i, body i (extracted tupdata values i) = extracted tupdata values (i + stride)) {i : Nat} (hle : i ≤ count) :
    ∃ j, forStrided stride count (fun i values => some (body i values)) i (extracted tupdata values i) =
      some (j, extracted tupdata values j) ∧ j ≤ count ∧ count < j + stride := by
  have hkeep : ∀ i s s', i + stride ≤ count → s = extracted tupdata values i → some (body i s) = some s' →
      s' = extracted tupdata values (i + stride) := by
    rintro i s s' - rfl h
    rw [← Option.some.inj h, hbody]
  rcases forStrided_cases hstride (fun i s => s = extracted tupdata values i) hkeep hle rfl with
    ⟨j, s, heq, hj, hpast, rfl⟩ | ⟨j, s, -, -, -, hnone⟩
  · exact ⟨j, heq, hj, hpast⟩
  · exact nomatch hnone

/-- The single loop writes the elements that are left. -/
theorem extractLoop_extracted {tupdata : Nat → BitVec 8} {count i : Nat} (values : Nat → BitVec 64) (hle : i ≤ count) :
    SimdVariant.extractLoop tupdata count i (extracted tupdata values i) = some (count, extracted tupdata values count) := by
  obtain ⟨j, heq, hj, hpast⟩ := forStrided_extracted
    (fun i values => Function.update values i ((SimdVariant.int32At tupdata (i * 4)).signExtend 64)) Nat.zero_lt_one values
    (fun i => extracted_succ values i) hle
  obtain rfl : j = count := by omega
  exact heq

/-- The extraction writes exactly its elements. -/
theorem extract_eq (variant : SimdVariant) (tupdata : Nat → BitVec 8) (values : Nat → BitVec 64) (count : Nat) :
    variant.simdExtractInt32Values tupdata values count = some (extracted tupdata values count) := by
  have hstart : extracted tupdata values 0 = values := funext fun k => if_neg (Nat.not_lt_zero k)
  unfold SimdVariant.simdExtractInt32Values
  split
  · have hloop : SimdVariant.extractLoop tupdata count 0 (extracted tupdata values 0) = _ :=
      extractLoop_extracted values (Nat.zero_le count)
    rw [hstart] at hloop
    rw [hloop, Option.map_some]
  · rename_i stride body hvariant
    have hstride := (extractBody_extracted hvariant values 0).1
    obtain ⟨j, heq, hj, -⟩ := forStrided_extracted body hstride values (fun i => (extractBody_extracted hvariant values i).2)
      (Nat.zero_le count)
    rw [hstart] at heq
    rw [heq, Option.bind_some]
    dsimp only
    rw [extractLoop_extracted values hj, Option.map_some]

end SimdHelpersAux

/-- In every variant and for every length: the bitmap check is true exactly when each of the first `ncols` bits is set, the two searches
are true exactly when an element is the value, and the extraction writes the `count` elements with their signs, and nothing else. -/
theorem simd_helpers_right (variant : SimdVariant) :
    (∀ bits ncols, variant.simdNullbitmapAllNotnull bits ncols = true ↔ ∀ k < ncols, (bits (k / 8)).getLsbD (k % 8) = true) ∧
    (∀ val data nitems, variant.simdInt4ArrayEq val data nitems = true ↔ ∃ k < nitems, data k = val) ∧
    (∀ val data nitems, variant.simdInt8ArrayEq val data nitems = true ↔ ∃ k < nitems, data k = val) ∧
    ∀ tupdata values count, ∃ values', variant.simdExtractInt32Values tupdata values count = some values' ∧
      (∀ k < count, values' k = (SimdVariant.int32At tupdata (k * 4)).signExtend 64) ∧ ∀ k, count ≤ k → values' k = values k :=
  ⟨nullbitmap_iff variant, int4_array_iff variant, int8_array_iff variant, fun tupdata values count =>
    ⟨_, extract_eq variant tupdata values count, fun _ hk => if_pos hk, fun _ hk => if_neg (Nat.not_lt.2 hk)⟩⟩

end PgJitter
