import PgJitter.Lemmas.LikeRegex

/-!
# The regex of a LIKE pattern

`like_to_regex` refuses exactly the patterns that end in an escape with nothing to escape, stays inside its buffer, and writes a
PCRE2 pattern that an unanchored search finds in exactly the subjects of the LIKE pattern, in every server encoding.
-/

namespace PgJitter

open Glob LikeRegexAux

namespace LikeRegexAux

/-! ## Refusal -/

/-- The number of backslashes at the end. -/
def trailing (p : List Byte) : Nat := (p.reverse.takeWhile (· == backslash)).length

/-- A byte in front counts only when everything behind it does. -/
theorem trailing_cons (b : Byte) (p : List Byte) :
    trailing (b :: p) = if trailing p = p.length ∧ b = backslash then trailing p + 1 else trailing p := by
  unfold trailing
  rw [List.reverse_cons, List.takeWhile_append, List.length_reverse]
  by_cases hall : (p.reverse.takeWhile (· == backslash)).length = p.length
  · by_cases hb : b = backslash
    · simp [hall, hb]
    · simp [hall, hb]
  · simp [hall]

theorem trailing_le (p : List Byte) : trailing p ≤ p.length := by
  have h := (List.takeWhile_prefix (l := p.reverse) (· == backslash)).length_le
  rwa [List.length_reverse] at h

/-- Another byte in front leaves the count. -/
theorem trailing_cons_of_ne {b : Byte} (hb : b ≠ backslash) (p : List Byte) : trailing (b :: p) = trailing p := by
  rw [trailing_cons, if_neg (fun h => hb h.2)]

/-- An escaped byte in front leaves the parity of the count. -/
theorem trailing_escaped (c : Byte) (p : List Byte) : trailing (backslash :: c :: p) % 2 = trailing p % 2 := by
  have hle := trailing_le p
  by_cases hall : trailing p = p.length ∧ c = backslash
  · have hinner : trailing (c :: p) = trailing p + 1 := by rw [trailing_cons, if_pos hall]
    have hfull : trailing (c :: p) = (c :: p).length := by rw [hinner, hall.1, List.length_cons]
    rw [trailing_cons, if_pos ⟨hfull, rfl⟩, hinner]
    omega
  · have hinner : trailing (c :: p) = trailing p := by rw [trailing_cons, if_neg hall]
    have hpart : ¬ (trailing (c :: p) = (c :: p).length ∧ backslash = backslash) := by
      rintro ⟨h, -⟩
      rw [hinner, List.length_cons] at h
      omega
    rw [trailing_cons, if_neg hpart, hinner]

/-- The decoding loop stops exactly at an escape with nothing behind it. -/
theorem decodePattern_eq_none (p : List Byte) : decodePattern p = none ↔ EndsUnpaired p := by
  show _ ↔ trailing p % 2 = 1
  induction p using decodePattern.induct with
  | case1 => simp [decodePattern, trailing]
  | case2 => simp [decodePattern, trailing]
  | case3 b hb =>
    have hne : (b == backslash) = false := by simpa using hb
    simp [decodePattern, hb, trailing, hne]
  | case4 c rest ih =>
    rw [decodePattern_escaped, Option.map_eq_none_iff, ih, trailing_escaped]
  | case5 b c rest hb ih =>
    rw [decodePattern_cons hb, Option.map_eq_none_iff, ih, trailing_cons_of_ne hb]

/-! ## Size -/

/-- There are no more tokens than bytes. -/
theorem length_le_of_decodePattern {p : List Byte} {ts : List PatChar} (h : decodePattern p = some ts) : ts.length ≤ p.length := by
  induction p using decodePattern.induct generalizing ts with
  | case1 =>
    obtain rfl : ts = [] := by simpa [decodePattern, eq_comm] using h
    exact Nat.le_refl _
  | case2 => simp [decodePattern] at h
  | case3 b hb =>
    obtain rfl : [patCharOf b] = ts := by simpa [decodePattern, hb] using h
    exact Nat.le_refl _
  | case4 c rest ih =>
    rw [decodePattern_escaped, Option.map_eq_some_iff] at h
    obtain ⟨ts', hts', rfl⟩ := h
    have := ih hts'
    simp only [List.length_cons]
    omega
  | case5 b c rest hb ih =>
    rw [decodePattern_cons hb, Option.map_eq_some_iff] at h
    obtain ⟨ts', hts', rfl⟩ := h
    exact Nat.succ_le_succ (ih hts')

theorem length_skipPercents_le (anchored : Bool) (ts : List PatChar) : (skipPercents anchored ts).2.length ≤ ts.length := by
  fun_induction skipPercents anchored ts with
  | case1 => exact Nat.le_refl _
  | case2 _ _ _ _ ih => exact Nat.le_succ_of_le ih
  | case3 => exact Nat.le_refl _

/-- A token takes at most two bytes. -/
theorem length_regexOfToken_le (t : PatChar) : (regexOfToken t).length ≤ 2 := by
  unfold regexOfToken
  split
  · exact Nat.le_refl _
  · exact Nat.le_succ _
  · split
    · exact Nat.le_refl _
    · exact Nat.le_succ _

theorem length_flatMap_regexOfToken_le (ts : List PatChar) : (ts.flatMap regexOfToken).length ≤ 2 * ts.length := by
  induction ts with
  | nil => exact Nat.le_refl _
  | cons t ts ih =>
    have := length_regexOfToken_le t
    rw [List.flatMap_cons, List.length_append, List.length_cons]
    omega

/-- The anchors and two bytes a token. -/
theorem length_regexOfTokens_le (ts : List PatChar) : (regexOfTokens ts).length ≤ 2 * ts.length + 3 := by
  have h1 := length_skipPercents_le true ts
  have h2 := length_skipPercents_le true (skipPercents true ts).2.reverse
  have h3 := length_flatMap_regexOfToken_le (skipPercents true (skipPercents true ts).2.reverse).2.reverse
  have hs : ∀ a : Bool, (if a then [0x5e] else [] : List Byte).length ≤ 1 := by decide
  have he : ∀ a : Bool, (if a then [backslash, 0x7a] else [] : List Byte).length ≤ 2 := by decide
  have h4 := hs (skipPercents true ts).1
  have h5 := he (skipPercents true (skipPercents true ts).2.reverse).1
  rw [List.length_reverse] at h2 h3
  unfold regexOfTokens
  dsimp only
  rw [List.length_append, List.length_append]
  omega

/-! ## Characters of the output -/

/-- The characters of the regex are characters of the encoding. -/
theorem isChar_regexChars {enc : CharEncoding} {ts : List (Tok Character)} (hts : ∀ c, .lit c ∈ ts → enc.IsChar c) :
    ∀ c ∈ regexChars ts, enc.IsChar c := by
  have hbody : ∀ t ∈ (stripStars ts).2.2, ∀ c ∈ regexOfTok t, enc.IsChar c := by
    intro t ht c hc
    have hmem := stripStars_subset ts t ht
    cases t with
    | one =>
      rw [List.mem_singleton.1 hc]
      exact isChar_ascii (by decide)
    | star =>
      rcases List.mem_cons.1 hc with rfl | hc
      · exact isChar_ascii (by decide)
      · rw [List.mem_singleton.1 hc]
        exact isChar_ascii (by decide)
    | lit c' =>
      rw [regexOfTok_lit] at hc
      split at hc
      · rcases List.mem_cons.1 hc with rfl | hc
        · exact isChar_ascii (by decide)
        · rw [List.mem_singleton.1 hc]
          exact hts c' hmem
      · rw [List.mem_singleton.1 hc]
        exact hts c' hmem
  intro c hc
  unfold regexChars at hc
  dsimp only at hc
  rcases List.mem_append.1 hc with hc | hc
  · rcases List.mem_append.1 hc with hc | hc
    · split at hc
      · rw [List.mem_singleton.1 hc]
        exact isChar_ascii (by decide)
      · exact nomatch hc
    · obtain ⟨t, ht, hct⟩ := List.mem_flatMap.1 hc
      exact hbody t ht c hct
  · split at hc
    · rcases List.mem_cons.1 hc with rfl | hc
      · exact isChar_ascii (by decide)
      · rw [List.mem_singleton.1 hc]
        exact isChar_ascii (by decide)
    · exact nomatch hc

end LikeRegexAux

/-- With allocations that succeed and a pattern within the limit, `like_to_regex` returns NULL exactly for a pattern that ends in an
unpaired backslash; otherwise the output fits its buffer with the terminator, and, read as a PCRE2 pattern with the options it is
compiled with, an unanchored search finds it in exactly the subjects of the LIKE pattern. -/
theorem like_to_regex_right (enc : CharEncoding) (alloc : Nat → Bool) (halloc : ∀ n, alloc n = true) (pattern : List Byte)
    (pcs : List Character) (htext : enc.IsText pattern pcs) (hlen : pattern.length ≤ maxAllocSize / sizeofLikeToken) :
    (likeToRegex alloc pattern = none ↔ EndsUnpaired pattern) ∧
      ∀ out, likeToRegex alloc pattern = some out →
        out.length + 1 ≤ regexMaxLen pattern.length ∧
          ∃ rcs items, enc.IsText out rcs ∧ parsePcre2 rcs = some items ∧
            ∀ denc scs, Pcre2Finds (pcre2CompileFlags denc false) items scs ↔ SqlLikeText pcs scs := by
  have hlimit : ¬ pattern.length > (maxAllocSize - 4) / 2 := by
    have : maxAllocSize / sizeofLikeToken ≤ (maxAllocSize - 4) / 2 := by decide
    omega
  have htokens : ¬ (if pattern.length > 0 then pattern.length else 1) > maxAllocSize / sizeofLikeToken := by
    have : 1 ≤ maxAllocSize / sizeofLikeToken := by decide
    split <;> omega
  have hcode : likeToRegex alloc pattern = (decodePattern pattern).map regexOfTokens := by
    unfold likeToRegex
    dsimp only
    rw [if_neg hlimit, if_neg htokens, halloc, halloc, if_neg (by decide), if_neg (by decide)]
  rw [hcode]
  refine ⟨by rw [Option.map_eq_none_iff, decodePattern_eq_none], ?_⟩
  intro out hout
  obtain ⟨tokens, hd, rfl⟩ := Option.map_eq_some_iff.1 hout
  refine ⟨?_, ?_⟩
  · have h1 := length_regexOfTokens_le tokens
    have h2 := length_le_of_decodePattern hd
    unfold regexMaxLen
    omega
  · rw [htext.1, decodePattern_flatten htext.2, Option.map_eq_some_iff] at hd
    obtain ⟨ts, hts, rfl⟩ := hd
    have hlit : ∀ c, .lit c ∈ ts → enc.IsChar c := fun c hc => htext.2 c (mem_of_mem_likeToks hts c hc)
    refine ⟨regexChars ts, regexItems ts, ⟨regexOfTokens_flatMap hlit, isChar_regexChars hlit⟩, parsePcre2_regexChars ts, ?_⟩
    intro denc scs
    rw [finds_iff_matches rfl, sqlLikeText_iff_matches hts]

namespace LikeRegexWitness

/-- `%é_` in UTF-8. -/
def pattern : List Byte := [percentSign, 0xc3, 0xa9, underscoreSign]

/-- Its characters. -/
def characters : List Character := [[percentSign], [0xc3, 0xa9], [underscoreSign]]

theorem pattern_isText : CharEncoding.utf8.IsText pattern characters := by
  refine ⟨by decide, ?_⟩
  intro c hc
  simp only [characters, List.mem_cons, List.not_mem_nil, or_false] at hc
  rcases hc with rfl | rfl | rfl
  · exact isChar_ascii (by decide)
  · exact ⟨0xc3, [0xa9], rfl, by decide, by decide +kernel⟩
  · exact isChar_ascii (by decide)

/-- The pattern is translated. -/
theorem suffix_pattern_translated :
    ((∀ n, (fun _ : Nat => true) n = true) ∧ pattern.length ≤ maxAllocSize / sizeofLikeToken) ∧
      (likeToRegex (fun _ => true) pattern = none ↔ EndsUnpaired pattern) ∧
        ∀ out, likeToRegex (fun _ => true) pattern = some out →
          out.length + 1 ≤ regexMaxLen pattern.length ∧
            ∃ rcs items, CharEncoding.utf8.IsText out rcs ∧ parsePcre2 rcs = some items ∧
              ∀ denc scs, Pcre2Finds (pcre2CompileFlags denc false) items scs ↔ SqlLikeText characters scs :=
  ⟨⟨fun _ => rfl, by decide⟩,
    like_to_regex_right .utf8 (fun _ => true) (fun _ => rfl) pattern characters pattern_isText (by decide)⟩

end LikeRegexWitness

end PgJitter
