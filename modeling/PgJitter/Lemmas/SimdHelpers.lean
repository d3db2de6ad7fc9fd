import PgJitter.SimdHelpers

/-!
# Helpers for `SimdHelpers.lean`: what a chunk tells, and what a chunk writes

A chunk of a search has a hit exactly when one of its elements has, so a search finds what is there; a chunk of the extraction writes
the elements that the single loop would write.
-/

namespace PgJitter
namespace SimdHelpersAux

open Lanes StridedLoop SimdVariant

/-! ## Searches -/

/-- A search whose chunks tell of their elements. -/
theorem searchLoop_cases {stride n i : Nat} {hit : Nat → Bool} (hstride : 0 < stride) (p : Nat → Prop)
    (hhit : ∀ i, i + stride ≤ n → (hit i = true ↔ ∃ k, i ≤ k ∧ k < i + stride ∧ p k)) (hle : i ≤ n) (hbefore : ∀ k < i, ¬ p k) :
    (∃ j, searchLoop stride n hit i = some j ∧ j ≤ n ∧ n < j + stride ∧ ∀ k < j, ¬ p k) ∨
      searchLoop stride n hit i = none ∧ ∃ k < n, p k := by
  have hbody : ∀ i, i + stride ≤ n →
      ((if hit i then none else some ()) = (none : Option Unit) ↔ ∃ k, i ≤ k ∧ k < i + stride ∧ p k) := by
    intro i hnext
    rw [← hhit i hnext]
    cases hit i <;> simp
  rcases search_cases (fun i _ => if hit i then none else some ()) hstride p hbody hle hbefore with ⟨j, heq, hj⟩ | ⟨heq, hfound⟩
  · exact .inl ⟨j, by rw [searchLoop, heq, Option.map_some], hj⟩
  · exact .inr ⟨by rw [searchLoop, heq, Option.map_none], hfound⟩

/-- The single loop finds what is there. -/
theorem scalarLoop_iff {n i : Nat} (hit : Nat → Bool) (hle : i ≤ n) (hbefore : ∀ k < i, ¬ hit k = true) :
    scalarLoop n hit i = true ↔ ∃ k < n, hit k = true := by
  have hhit : ∀ i, i + 1 ≤ n → (hit i = true ↔ ∃ k, i ≤ k ∧ k < i + 1 ∧ hit k = true) := by
    intro i _
    constructor
    · exact fun h => ⟨i, Nat.le_refl i, Nat.lt_succ_self i, h⟩
    · rintro ⟨k, hge, hlt, h⟩
      rwa [Nat.le_antisymm hge (Nat.le_of_lt_succ hlt)]
  rw [scalarLoop]
  rcases searchLoop_cases Nat.zero_lt_one (fun k => hit k = true) hhit hle hbefore with ⟨j, heq, hj, hpast, hnone⟩ | ⟨heq, hfound⟩
  · rw [heq]
    refine iff_of_false (by simp) fun ⟨k, hk, h⟩ => hnone k (by omega) h
  · rw [heq]
    exact iff_of_true rfl hfound

/-- A search by chunks and then by single elements finds what is there. -/
theorem vectorSearch_iff {stride : Nat} {hit : Nat → Bool} (n : Nat) (single : Nat → Bool) (hstride : 0 < stride)
    (hhit : ∀ i, i + stride ≤ n → (hit i = true ↔ ∃ k, i ≤ k ∧ k < i + stride ∧ single k = true)) :
    (match searchLoop stride n hit 0 with
      | none => true
      | some i => scalarLoop n single i) = true ↔ ∃ k < n, single k = true := by
  rcases searchLoop_cases hstride (fun k => single k = true) hhit (Nat.zero_le n) (fun k hk => absurd hk (Nat.not_lt_zero k)) with
    ⟨j, heq, hj, -, hnone⟩ | ⟨heq, hfound⟩
  · rw [heq]
    exact scalarLoop_iff single hj hnone
  · rw [heq]
    exact iff_of_true rfl hfound

/-- The search of an array, by single elements and by chunks whose test finds what is in them, finds what is there. -/
theorem array_search_iff {β : Type} [DecidableEq β] {stride : Nat} (hstride : 0 < stride) {hit : Nat → Bool} (data : Nat → β) (val : β)
    (hhit : ∀ i, hit i = true ↔ ∃ k, i ≤ k ∧ k < i + stride ∧ (data k == val) = true) (nitems : Nat) :
    (scalarLoop nitems (fun i => data i == val) 0 = true ↔ ∃ k < nitems, data k = val) ∧
      ((match searchLoop stride nitems hit 0 with
        | none => true
        | some i => scalarLoop nitems (fun i => data i == val) i) = true ↔ ∃ k < nitems, data k = val) := by
  have hscalar := scalarLoop_iff (fun i => data i == val) (Nat.zero_le nitems) (fun k hk => absurd hk (Nat.not_lt_zero k))
  have hvector := vectorSearch_iff nitems (fun i => data i == val) hstride fun i _ => hhit i
  simp only [beq_iff_eq] at hscalar hvector
  exact ⟨hscalar, hvector⟩

/-- The largest number of a list is not 0 when one of them is not. -/
theorem foldr_max_ne_zero (l : List Nat) : l.foldr max 0 ≠ 0 ↔ ∃ x ∈ l, x ≠ 0 := by
  induction l with
  | nil => simp
  | cons x l ih =>
    rw [List.foldr_cons, List.exists_mem_cons_iff, ← ih]
    omega

/-- The least number of a list is not the bound when one of them is not. -/
theorem foldr_min_ne {b : Nat} (l : List Nat) (hl : ∀ x ∈ l, x ≤ b) : l.foldr min b ≠ b ↔ ∃ x ∈ l, x ≠ b := by
  have hle : ∀ l : List Nat, l.foldr min b ≤ b := fun l => by
    induction l with
    | nil => exact Nat.le_refl b
    | cons x l ih => exact Nat.le_trans (Nat.min_le_right _ _) ih
  induction l with
  | nil => simp
  | cons x l ih =>
    have htail : l.foldr min b ≠ b ↔ ∃ x ∈ l, x ≠ b := ih fun y hy => hl y (List.mem_cons_of_mem x hy)
    rw [List.foldr_cons, List.exists_mem_cons_iff, ← htail]
    have hx := hl x List.mem_cons_self
    have hrest := hle l
    omega

/-- Some lane of a chunk. -/
theorem exists_lane {m i : Nat} (p : Nat → Prop) : (∃ k < m, p (i + k)) ↔ ∃ k, i ≤ k ∧ k < i + m ∧ p k := by
  constructor
  · rintro ⟨k, hk, h⟩
    exact ⟨i + k, by omega, by omega, h⟩
  · rintro ⟨k, hge, hlt, h⟩
    exact ⟨k - i, by omega, by rwa [Nat.add_sub_cancel' hge]⟩

/-- A lane of the comparison of a chunk with a value. -/
theorem lane_cmp {w m k i : Nat} (hw : w * m ≤ 128) (hk : k < m) (data : Nat → BitVec w) (val : BitVec w) :
    lane w k (vceqq w m (vld1q m data i) (vdupq m val)) = if data (i + k) = val then BitVec.allOnes w else 0 := by
  rw [vceqq, lane_ofLanes _ hk hw, vld1q, lane_ofLanes _ hk hw, vdupq, lane_ofLanes _ hk hw]

/-- A lane of a comparison is not 0 where the elements are equal. -/
theorem cmp_ne_zero {w : Nat} (hw : 0 < w) {c : Prop} [Decidable c] : (if c then BitVec.allOnes w else 0) ≠ 0 ↔ c := by
  have hones : BitVec.allOnes w ≠ 0 := fun h => by
    have hbit := congrArg (fun v => v.getLsbD 0) h
    simp [hw] at hbit
  split <;> simp_all

/-- A chunk of four integers has a hit when one of them is the value. -/
theorem int4_hit (data : Nat → BitVec 32) (val : BitVec 32) (i : Nat) :
    (vmaxvqU32 (vceqq 32 4 (vld1q 4 data i) (vdupq 4 val)) != 0) = true ↔ ∃ k, i ≤ k ∧ k < i + 4 ∧ (data k == val) = true := by
  rw [bne_iff_ne, vmaxvqU32, foldr_max_ne_zero, ← exists_lane]
  simp only [List.mem_map, List.mem_range, exists_exists_and_eq_and, beq_iff_eq]
  refine exists_congr fun k => and_congr_right fun hk => ?_
  rw [lane_cmp (by decide) hk]
  exact (not_congr (BitVec.toNat_inj (y := 0))).trans (cmp_ne_zero (by decide))

/-- A chunk of two integers has a hit when one of them is the value. -/
theorem int8_hit (data : Nat → BitVec 64) (val : BitVec 64) (i : Nat) :
    (lane 64 0 (vceqq 64 2 (vld1q 2 data i) (vdupq 2 val)) ||| lane 64 1 (vceqq 64 2 (vld1q 2 data i) (vdupq 2 val)) != 0) = true ↔
      ∃ k, i ≤ k ∧ k < i + 2 ∧ (data k == val) = true := by
  rw [bne_iff_ne, ← exists_lane, lane_cmp (by decide) (by decide), lane_cmp (by decide) (by decide)]
  simp only [beq_iff_eq]
  have htwo : (∃ k < 2, data (i + k) = val) ↔ data (i + 0) = val ∨ data (i + 1) = val := by
    constructor
    · rintro ⟨k, hk, h⟩
      obtain rfl | rfl : k = 0 ∨ k = 1 := by omega
      · exact .inl h
      · exact .inr h
    · rintro (h | h)
      · exact ⟨0, by decide, h⟩
      · exact ⟨1, by decide, h⟩
  rw [htwo]
  by_cases h0 : data (i + 0) = val <;> by_cases h1 : data (i + 1) = val <;> simp_all

/-- The search for an integer finds what is there. -/
theorem int4_array_iff (variant : SimdVariant) (val : BitVec 32) (data : Nat → BitVec 32) (nitems : Nat) :
    variant.simdInt4ArrayEq val data nitems = true ↔ ∃ k < nitems, data k = val := by
  obtain ⟨hscalar, hneon⟩ := array_search_iff (by decide : 0 < 4) data val (int4_hit data val) nitems
  cases variant with
  | neon => exact hneon
  | sse41 => exact hscalar
  | sse2 => exact hscalar
  | plain => exact hscalar

/-- The search for a wide integer finds what is there. -/
theorem int8_array_iff (variant : SimdVariant) (val : BitVec 64) (data : Nat → BitVec 64) (nitems : Nat) :
    variant.simdInt8ArrayEq val data nitems = true ↔ ∃ k < nitems, data k = val := by
  obtain ⟨hscalar, hneon⟩ := array_search_iff (by decide : 0 < 2) data val (int8_hit data val) nitems
  cases variant with
  | neon => exact hneon
  | sse41 => exact hscalar
  | sse2 => exact hscalar
  | plain => exact hscalar

/-- A chunk of sixteen bytes has a hit when one of them is not full. -/
theorem byte_hit (bits : Nat → BitVec 8) (i : Nat) :
    (vminvqU8 (vld1q 16 bits i) != 0xFF) = true ↔ ∃ k, i ≤ k ∧ k < i + 16 ∧ (bits k != 0xFF) = true := by
  have hbyte : ∀ k < 16, lane 8 k (vld1q 16 bits i) = bits (i + k) := fun k hk => lane_ofLanes _ hk (by decide)
  rw [bne_iff_ne, vminvqU8, foldr_min_ne, ← exists_lane]
  · simp only [List.mem_map, List.mem_range, exists_exists_and_eq_and, bne_iff_ne]
    refine exists_congr fun k => and_congr_right fun hk => ?_
    rw [hbyte k hk, ne_eq, ne_eq, not_iff_not]
    exact BitVec.toNat_inj (y := 0xFF)
  · intro x hx
    obtain ⟨k, -, rfl⟩ := List.mem_map.1 hx
    exact Nat.le_of_lt_succ (lane 8 k (vld1q 16 bits i)).isLt

/-! ## The bitmap -/

/-- All whole bytes are set. -/
theorem fullBytesSet_iff (variant : SimdVariant) (bits : Nat → BitVec 8) (n : Nat) :
    variant.fullBytesSet bits n = true ↔ ∀ k < n, bits k = 0xFF := by
  have hsome : (∃ k < n, (bits k != 0xFF) = true) ↔ ¬ ∀ k < n, bits k = 0xFF := by simp
  have hplain : (!scalarLoop n (fun i => bits i != 0xFF) 0) = true ↔ ∀ k < n, bits k = 0xFF := by
    rw [Bool.not_eq_true', ← Bool.not_eq_true, scalarLoop_iff _ (Nat.zero_le n) (fun k hk => absurd hk (Nat.not_lt_zero k)), hsome, not_not]
  have hneon := vectorSearch_iff n (fun i => bits i != 0xFF) (by decide : 0 < 16) (fun i _ => byte_hit bits i)
  cases variant with
  | neon =>
    rw [hsome] at hneon
    rw [fullBytesSet, ← not_not (a := ∀ k < n, bits k = 0xFF), ← hneon]
    cases searchLoop 16 n (fun i => vminvqU8 (vld1q 16 bits i) != 0xFF) 0 <;> simp
  | sse41 => exact hplain
  | sse2 => exact hplain
  | plain => exact hplain

/-- The masked tail is set when its bits are. -/
theorem tail_iff (b : BitVec 8) {m : Nat} (hm : m < 8) :
    (b &&& BitVec.ofNat 8 ((1 <<< m) - 1) == BitVec.ofNat 8 ((1 <<< m) - 1)) = true ↔ ∀ k < m, b.getLsbD k = true := by
  have hmask : ∀ k, (BitVec.ofNat 8 ((1 <<< m) - 1)).getLsbD k = decide (k < m) := by
    intro k
    rw [BitVec.getLsbD_ofNat, Nat.one_shiftLeft, Nat.testBit_two_pow_sub_one]
    by_cases hk : k < m
    · simp [hk, show k < 8 by omega]
    · simp [hk]
  rw [beq_iff_eq]
  constructor
  · intro h k hk
    have hbit := congrArg (fun v => v.getLsbD k) h
    simpa [hmask, hk] using hbit
  · intro h
    refine BitVec.eq_of_getLsbD_eq fun k _ => ?_
    rw [BitVec.getLsbD_and, hmask]
    by_cases hk : k < m
    · simp [hk, h k hk]
    · simp [hk]

/-- A byte is full when its bits are set. -/
theorem full_iff (b : BitVec 8) : b = 0xFF ↔ ∀ k < 8, b.getLsbD k = true := by
  constructor
  · rintro rfl k hk
    have hall : ∀ k < 8, (0xFF : BitVec 8).getLsbD k = true := by decide
    exact hall k hk
  · intro h
    refine BitVec.eq_of_getLsbD_eq fun k hk => ?_
    have hall : ∀ k < 8, (0xFF : BitVec 8).getLsbD k = true := by decide
    rw [h k hk, hall k hk]

/-! ## Extraction -/

variable {tupdata : Nat → BitVec 8}

/-- The array after the elements below `i` were written. -/
def extracted (tupdata : Nat → BitVec 8) (values : Nat → BitVec 64) (i : Nat) : Nat → BitVec 64 :=
  fun k => if k < i then (int32At tupdata (k * 4)).signExtend 64 else values k

/-- One more element. -/
theorem extracted_succ (values : Nat → BitVec 64) (i : Nat) :
    Function.update (extracted tupdata values i) i ((int32At tupdata (i * 4)).signExtend 64) = extracted tupdata values (i + 1) := by
  funext k
  by_cases hk : k = i
  · subst hk
    simp [extracted]
  · have hlt : k < i ↔ k < i + 1 := by omega
    simp [extracted, hk, hlt]

/-- A register of two elements with their signs. -/
theorem storeu_extracted {values : Nat → BitVec 64} {i : Nat} {v : Vec} (h0 : lane 64 0 v = (int32At tupdata (i * 4)).signExtend 64)
    (h1 : lane 64 1 v = (int32At tupdata ((i + 1) * 4)).signExtend 64) :
    storeu (extracted tupdata values i) i v = extracted tupdata values (i + 2) := by
  rw [storeu, h0, extracted_succ, h1, extracted_succ]

/-- The 32-bit lanes of a register that was loaded. -/
theorem lane_loadu {k : Nat} (hk : k < 4) (off : Nat) : lane 32 k (loadu tupdata off) = int32At tupdata (off + 4 * k) := by
  have hgroup : lane 32 k (loadu tupdata off) = ofLanes 32 8 4 fun j => tupdata (off + (4 * k + j)) :=
    lane_ofLanes_group (w := 8) (g := 4) _ (by omega) (by decide)
  simp only [hgroup, int32At, Nat.add_assoc]

/-- The 32-bit lanes of a register whose lower half was loaded. -/
theorem lane_loadl {k : Nat} (hk : k < 2) (off : Nat) : lane 32 k (loadl tupdata off) = int32At tupdata (off + 4 * k) := by
  have hgroup : lane 32 k (loadl tupdata off) = ofLanes 32 8 4 fun j => tupdata (off + (4 * k + j)) :=
    lane_ofLanes_group (w := 8) (g := 4) _ (by omega) (by decide)
  simp only [hgroup, int32At, Nat.add_assoc]

/-- The lanes of a half register that was widened. -/
theorem lane_vmovlS32 {j k : Nat} (hk : k < 2) (v : Vec) :
    lane 64 k (vmovlS32 (lane 64 j v)) = (lane 32 (2 * j + k) v).signExtend 64 := by
  have hlane : lane 32 k (lane 64 j v) = lane 32 (2 * j + k) v := lane_lane (w := 32) (g := 2) hk v
  rw [vmovlS32, lane_ofLanes _ hk (by decide), hlane]

/-- The lanes of the low half of a register that was widened. -/
theorem lane_cvtepi32Epi64 {k : Nat} (hk : k < 2) (v : Vec) : lane 64 k (cvtepi32Epi64 v) = (lane 32 k v).signExtend 64 :=
  lane_ofLanes _ hk (by decide)

/-- The lanes of the high half of a register. -/
theorem lane_srliSi128 (k : Nat) (v : Vec) : lane 32 k (srliSi128 v) = lane 32 (2 + k) v :=
  lane_ushiftRight (w := 32) (j := 2) v

/-- The lanes of a register interleaved with its signs. -/
theorem lane_unpackloEpi32 {k : Nat} (hk : k < 2) (v : Vec) :
    lane 64 k (unpackloEpi32 v (sraiEpi32 v)) = (lane 32 k v).signExtend 64 := by
  have hgroup : lane 64 k (unpackloEpi32 v (sraiEpi32 v)) =
      ofLanes 64 32 2 fun j => if (2 * k + j) % 2 = 0 then lane 32 ((2 * k + j) / 2) v else lane 32 ((2 * k + j) / 2) (sraiEpi32 v) :=
    lane_ofLanes_group (w := 32) (g := 2) _ (by omega) (by decide)
  have hsign : lane 32 k (sraiEpi32 v) = (lane 32 k v).sshiftRight 31 := lane_ofLanes _ (by omega) (by decide)
  have hpair : (ofLanes 64 32 2 fun j => if (2 * k + j) % 2 = 0 then lane 32 ((2 * k + j) / 2) v
      else lane 32 ((2 * k + j) / 2) (sraiEpi32 v)) =
      ofLanes 64 32 2 fun j => if j = 0 then lane 32 k v else (lane 32 k v).sshiftRight 31 := by
    simp [ofLanes, Nat.add_mod, Nat.mul_add_div, hsign]
  rw [hgroup, hpair]
  exact ofLanes_sign 32 (lane 32 k v)

/-- A turn of a vector loop writes the elements of its stride. -/
theorem extractBody_extracted {variant : SimdVariant} {stride : Nat} {body : Nat → (Nat → BitVec 64) → Nat → BitVec 64}
    (h : variant.extractBody tupdata = some (stride, body)) (values : Nat → BitVec 64) (i : Nat) :
    0 < stride ∧ body i (extracted tupdata values i) = extracted tupdata values (i + stride) := by
  cases variant with
  | plain => exact nomatch h
  | neon =>
    cases h
    refine ⟨by decide, ?_⟩
    dsimp only
    rw [storeu_extracted, storeu_extracted]
    all_goals rw [lane_vmovlS32 (by decide), lane_loadu (by decide)]
    all_goals congr 2
    all_goals omega
  | sse41 =>
    cases h
    refine ⟨by decide, ?_⟩
    dsimp only
    rw [storeu_extracted, storeu_extracted]
    all_goals rw [lane_cvtepi32Epi64 (by decide)]
    all_goals try rw [lane_srliSi128]
    all_goals rw [lane_loadu (by decide)]
    all_goals congr 2
    all_goals omega
  | sse2 =>
    cases h
    refine ⟨by decide, ?_⟩
    dsimp only
    rw [storeu_extracted]
    all_goals rw [lane_unpackloEpi32 (by decide), lane_loadl (by decide)]
    all_goals congr 2
    all_goals omega

end SimdHelpersAux
end PgJitter
