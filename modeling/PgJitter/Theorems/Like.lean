import PgJitter.Lemmas.LikeOverlap

/-!
# The compiled LIKE matcher against the language of the pattern

The matcher never rejects a subject of the language, and accepts only such subjects unless the pattern lets the last floating
segment lie over the tail (`OverlapsTail`). The cause is one assignment: after a floating segment has been found, `remaining` is
set to what is left of the whole subject, and the bytes reserved for the tail are searched again.
-/

namespace PgJitter

open Glob

/-- The pattern ends in a tail after its last `%`, has a floating segment with a literal before its last floating segment, and
that last one can end inside the tail: ending some `t ≥ 1` bytes into it, it agrees with it on every byte both ask for. -/
def OverlapsTail (pattern : List Byte) : Prop :=
  ∃ (kinds : List PatChar) (mids : List (Mask Byte)) (e : Mask Byte) (pre : List (Mask Byte)) (f : Mask Byte) (t : Nat),
    decodePattern pattern = some kinds ∧ (blocks kinds).2 = mids ++ [e] ∧ mids.filter (fun m => !m.isEmpty) = pre ++ [f] ∧
      HasLiteral pre ∧ LiesOver f e t

namespace LikeAux

/-- A pattern without full blocks: the object matches everything, or the empty subject. -/
theorem match_no_blocks {pattern : List Byte} {kinds : List PatChar} (hd : decodePattern pattern = some kinds)
    (hnil : fullBlocks kinds = []) (data : List Byte) :
    simdLikeMatchCompiled ⟨0, decide (kinds = []), decide (kinds = []), []⟩ data = true ↔ SqlLike pattern data := by
  have hall : ∀ m ∈ allBlocks kinds, m = [] := by
    intro m hm
    by_contra hne
    have : m ∈ fullBlocks kinds := List.mem_filter.mpr ⟨hm, by simp [hne]⟩
    simp [hnil] at this
  have hhead : (blocks kinds).1 = [] := hall _ (by simp [allBlocks])
  rcases List.eq_nil_or_concat (blocks kinds).2 with htail | ⟨mids, e, htail⟩
  · have hkinds : kinds = [] := by
      cases kinds with
      | nil => rfl
      | cons c cs => by_cases hp : c.kind = .percent <;> simp [blocks, hp] at hhead htail
    rw [sqlLike_iff_mask hd htail, hhead, hkinds]
    cases data <;> simp [simdLikeMatchCompiled]
  · rw [List.concat_eq_append] at htail
    have he : e = [] := hall _ (by simp [allBlocks, htail])
    have hmids : mids.filter (fun m => !m.isEmpty) = [] := by
      rw [List.filter_eq_nil_iff]
      intro m hm
      simp [hall m (by simp [allBlocks, htail, hm])]
    have hkinds : kinds ≠ [] := by
      rintro rfl
      simp [blocks] at htail
    rw [sqlLike_iff_placeable hd htail, ← placeable_filter _ _ _ _ (Nat.sub_le _ _), hmids, hhead, he]
    simp [simdLikeMatchCompiled, hkinds, Placeable]

end LikeAux

/-- The language of a pattern with a `%`, with its floating blocks without the empty ones. -/
theorem sqlLike_iff_placeable_filter {p s : List Byte} {kinds : List PatChar} {mids : List (Mask Byte)} {e : Mask Byte}
    (hd : decodePattern p = some kinds) (hb : (blocks kinds).2 = mids ++ [e]) :
    SqlLike p s ↔ FitsAt (blocks kinds).1 s 0 ∧ e.length ≤ s.length ∧ FitsAt e s (s.length - e.length) ∧
      Placeable s (mids.filter (fun m => !m.isEmpty)) (blocks kinds).1.length (s.length - e.length) := by
  rw [sqlLike_iff_placeable hd hb, placeable_filter _ _ _ _ (Nat.sub_le _ _)]

/-- A string of the language has room for every block of the pattern. -/
theorem width_le_of_sqlLike {p s : List Byte} {kinds : List PatChar} {mids : List (Mask Byte)} {e : Mask Byte}
    (hd : decodePattern p = some kinds) (hb : (blocks kinds).2 = mids ++ [e]) (h : SqlLike p s) :
    ((allBlocks kinds).map List.length).sum ≤ s.length := by
  obtain ⟨-, he, -, hplace⟩ := (sqlLike_iff_placeable hd hb).mp h
  have := hplace.width_le
  simp only [allBlocks, hb, List.map_cons, List.map_append, List.sum_cons, List.sum_append, List.map_nil, List.sum_nil]
  omega

/-- The matcher accepts every subject of the language. -/
theorem match_of_sqlLike {enc : DatabaseEncoding} {pattern : List Byte} {c : SzLikeCompiled}
    (h : simdLikeCompile enc pattern = .compiled c) (data : List Byte) (hlike : SqlLike pattern data) :
    simdLikeMatchCompiled c data = true := by
  obtain ⟨kinds, hd, ⟨hnil, rfl⟩ | ⟨hfull, hstores⟩⟩ := compiled_blocks h
  · exact (LikeAux.match_no_blocks hd hnil data).mpr hlike
  · rcases List.eq_nil_or_concat (blocks kinds).2 with htail | ⟨mids, e, htail⟩
    · exact (match_single_block hstores hfull htail data).mpr ((sqlLike_iff_mask hd htail).mp hlike)
    · rw [List.concat_eq_append] at htail
      obtain ⟨hb, he, hfit, hplace⟩ := (sqlLike_iff_placeable_filter hd htail).mp hlike
      exact (match_blocks hstores hfull htail data).mpr
        ⟨width_le_of_sqlLike hd htail hlike, hb, hfit, CodePlaceable.of_placeable hplace (Nat.sub_le _ _)⟩

/-- A subject the matcher accepts is in the language, unless the pattern's last floating segment can lie over its tail. -/
theorem sqlLike_of_match {enc : DatabaseEncoding} {pattern : List Byte} {c : SzLikeCompiled}
    (h : simdLikeCompile enc pattern = .compiled c) (hover : ¬OverlapsTail pattern) (data : List Byte)
    (hmatch : simdLikeMatchCompiled c data = true) : SqlLike pattern data := by
  obtain ⟨kinds, hd, ⟨hnil, rfl⟩ | ⟨hfull, hstores⟩⟩ := compiled_blocks h
  · exact (LikeAux.match_no_blocks hd hnil data).mp hmatch
  · rcases List.eq_nil_or_concat (blocks kinds).2 with htail | ⟨mids, e, htail⟩
    · exact (sqlLike_iff_mask hd htail).mpr ((match_single_block hstores hfull htail data).mp hmatch)
    · rw [List.concat_eq_append] at htail
      obtain ⟨hwidth, hb, he, hcode⟩ := (match_blocks hstores hfull htail data).mp hmatch
      have hsum : ((allBlocks kinds).map List.length).sum =
          (blocks kinds).1.length + (mids.map List.length).sum + e.length := by
        simp [allBlocks, htail, Nat.add_assoc]
      refine (sqlLike_iff_placeable_filter hd htail).mpr ⟨hb, by omega, he, ?_⟩
      rcases codePlaceable_cases (by omega) (Nat.sub_le _ _) hcode with hplace | ⟨pre, f, q, hpre, hlit, hfit, hlt⟩
      · exact hplace
      · exact absurd ⟨kinds, mids, e, pre, f, _, hd, htail, hpre, hlit, liesOver_of_fitsAt hfit he hlt⟩ hover

/-- When the last floating segment can lie over the tail, the matcher accepts a subject outside the language. -/
theorem exists_wrong_match {enc : DatabaseEncoding} {pattern : List Byte} {c : SzLikeCompiled}
    (h : simdLikeCompile enc pattern = .compiled c) (hover : OverlapsTail pattern) :
    ∃ data, simdLikeMatchCompiled c data = true ∧ ¬SqlLike pattern data := by
  obtain ⟨kinds, mids, e, pre, f, t, hd, htail, hpre, hlit, hover⟩ := hover
  obtain ⟨kinds', hd', hcase⟩ := compiled_blocks h
  obtain rfl : kinds' = kinds := Option.some.inj (hd'.symm.trans hd)
  have hmem : f ∈ mids.filter (fun m => !m.isEmpty) := by simp [hpre]
  have hf : f ≠ [] := by
    have := (List.mem_filter.mp hmem).2
    simpa using this
  have hfull : fullBlocks kinds' ≠ [] := by
    have : f ∈ fullBlocks kinds' := by
      rw [fullBlocks, List.mem_filter, allBlocks, htail]
      exact ⟨by simp [(List.mem_filter.mp hmem).1], by simp [hf]⟩
    exact List.ne_nil_of_mem this
  have hstores : StoresBlocks c kinds' := by
    rcases hcase with ⟨hnil, -⟩ | ⟨-, hstores⟩
    · exact absurd hnil hfull
    · exact hstores
  obtain ⟨i, a, hi, hfirst⟩ := exists_first_literal hlit
  have hfree := overlapSubject_free (blocks kinds').1 (a + 1) hover hf hi hfirst
  have hlen := length_overlapSubject (blocks kinds').1 pre (a + 1) hover
  obtain ⟨hfb, hfpre, hfe, hff⟩ := overlapSubject_fits (blocks kinds').1 pre (a + 1) hover
  revert hfree hlen hfb hfpre hfe hff
  generalize overlapSubject (a + 1) (blocks kinds').1 pre f e t = s
  intro hfree hlen hfb hfpre hfe hff
  have hmidsum : (mids.map List.length).sum = pre.flatten.length + f.length := by
    rw [← sum_length_filter, hpre, List.map_append, List.sum_append, List.length_flatten]
    simp
  have hsum : ((allBlocks kinds').map List.length).sum = s.length := by
    rw [hlen, allBlocks, htail]
    simp only [List.map_cons, List.map_append, List.sum_cons, List.sum_append, List.map_nil, List.sum_nil, hmidsum]
    omega
  have hlim : s.length - e.length = (blocks kinds').1.length + pre.flatten.length + f.length := by omega
  refine ⟨s, ?_, ?_⟩
  · rw [match_blocks hstores hfull htail, hlim, hpre]
    refine ⟨by omega, hfb, hfe, ?_⟩
    refine codePlaceable_append hlit ((placeable_of_fitsAt_flatten hfpre).mono_left (by omega)) (by omega) ?_
    exact ⟨_, by have := hover.1; omega, hff, hff.1⟩
  · intro hlike
    obtain ⟨-, -, -, hplace⟩ := (sqlLike_iff_placeable_filter hd htail).mp hlike
    have hside := fitsAt_flatten_of_placeable hplace (Nat.sub_le _ _) (by
      rw [hlim, hpre, List.flatten_append, List.length_append]
      simp [Nat.add_assoc])
    rw [hpre, List.flatten_append, fitsAt_append] at hside
    have := hside.1.2 i a hi
    rw [hfree] at this
    simp at this

/-- The compiled matcher accepts every subject of the pattern's language, whatever the pattern; it accepts only those, for every
subject, exactly when the last floating segment of the pattern cannot lie over its tail. -/
theorem like_compiled_correct_iff (enc : DatabaseEncoding) (pattern : List Byte) (c : SzLikeCompiled)
    (h : simdLikeCompile enc pattern = .compiled c) :
    (∀ data, SqlLike pattern data → simdLikeMatchCompiled c data = true) ∧
      ((∀ data, simdLikeMatchCompiled c data = true ↔ SqlLike pattern data) ↔ ¬OverlapsTail pattern) := by
  refine ⟨fun data => match_of_sqlLike h data, ?_, ?_⟩
  · intro hall hover
    obtain ⟨data, hmatch, hnot⟩ := exists_wrong_match h hover
    exact hnot ((hall data).mp hmatch)
  · intro hover data
    exact ⟨sqlLike_of_match h hover data, match_of_sqlLike h data⟩

/-- The pattern `a%b%c` is compiled, and is one of those the theorem is about. -/
theorem like_compiled_correct_iff_abc :
    ∃ c, (∀ data, SqlLike [0x61, 0x25, 0x62, 0x25, 0x63] data → simdLikeMatchCompiled c data = true) ∧
      ((∀ data, simdLikeMatchCompiled c data = true ↔ SqlLike [0x61, 0x25, 0x62, 0x25, 0x63] data) ↔
        ¬OverlapsTail [0x61, 0x25, 0x62, 0x25, 0x63]) :=
  ⟨⟨3, true, true, [⟨1, [⟨0, [0x61]⟩], 0⟩, ⟨1, [⟨0, [0x62]⟩], 0⟩, ⟨1, [⟨0, [0x63]⟩], 0⟩]⟩,
    like_compiled_correct_iff ⟨1, false⟩ [0x61, 0x25, 0x62, 0x25, 0x63] _ (by decide)⟩

/-- The subject `xacab` is accepted for the pattern `x%a%b%ab` and is not in its language: the matcher finds the second floating
segment `b` in the last byte, which the tail `ab` already takes. -/
theorem like_compiled_overlaps_tail :
    ¬∀ (enc : DatabaseEncoding) (pattern : List Byte) (c : SzLikeCompiled), simdLikeCompile enc pattern = .compiled c →
      ∀ data, simdLikeMatchCompiled c data = true ↔ SqlLike pattern data := by
  intro h
  have hmatch := h ⟨1, false⟩ [0x78, 0x25, 0x61, 0x25, 0x62, 0x25, 0x61, 0x62]
    ⟨5, true, true, [⟨1, [⟨0, [0x78]⟩], 0⟩, ⟨1, [⟨0, [0x61]⟩], 0⟩, ⟨1, [⟨0, [0x62]⟩], 0⟩, ⟨2, [⟨0, [0x61, 0x62]⟩], 0⟩]⟩
    (by decide) [0x78, 0x61, 0x63, 0x61, 0x62]
  have hdecode : decodePattern [0x78, 0x25, 0x61, 0x25, 0x62, 0x25, 0x61, 0x62] = some [⟨.literal, 0x78⟩, ⟨.percent, 0x25⟩,
    ⟨.literal, 0x61⟩, ⟨.percent, 0x25⟩, ⟨.literal, 0x62⟩, ⟨.percent, 0x25⟩, ⟨.literal, 0x61⟩, ⟨.literal, 0x62⟩] := by decide
  have hlike := (sqlLike_iff_matches hdecode).mp (hmatch.mp (by decide))
  exact absurd hlike (by decide)

end PgJitter
