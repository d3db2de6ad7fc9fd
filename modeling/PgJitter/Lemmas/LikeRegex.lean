import PgJitter.LikeRegex
import PgJitter.Lemmas.LikePattern

/-!
# The regex of a LIKE pattern, character by character

A LIKE pattern is a list of wildcard tokens over characters (`likeToks`), and what `like_to_regex` writes for it, byte by byte, is
the text of what these tokens stand for in PCRE2 (`regexOfTokens_flatMap`). The stripped ends are runs of string wildcards, whose
place the missing anchors take (`finds_iff_matches`).
-/

namespace PgJitter

open Glob

namespace LikeRegexAux

/-! ## Tokens over characters -/

/-- The token of an unescaped character. -/
def tokOfChar (c : Character) : Tok Character :=
  if c = [percentSign] then .star else if c = [underscoreSign] then .one else .lit c

/-- The tokens of a pattern; `none` for an escape at its end. -/
def likeToks : List Character → Option (List (Tok Character))
  | [] => some []
  | [c] => if c = [backslash] then none else some [tokOfChar c]
  | c :: c' :: cs =>
    if c = [backslash] then (likeToks cs).map (.lit c' :: ·) else (likeToks (c' :: cs)).map (tokOfChar c :: ·)

attribute [local simp] likeToks

theorem likeToks_escaped (c : Character) (cs : List Character) :
    likeToks ([backslash] :: c :: cs) = (likeToks cs).map (.lit c :: ·) := by
  simp

theorem likeToks_cons {c : Character} (hc : c ≠ [backslash]) (cs : List Character) :
    likeToks (c :: cs) = (likeToks cs).map (tokOfChar c :: ·) := by
  cases cs <;> simp [hc]

/-- A text of the pattern's language matches its tokens. -/
theorem matches_of_sqlLikeText {p s : List Character} {ts : List (Tok Character)} (ht : likeToks p = some ts)
    (h : SqlLikeText p s) : Matches ts s := by
  induction h generalizing ts with
  | done =>
    obtain rfl : ts = [] := by simpa [eq_comm] using ht
    rfl
  | escaped c _ ih =>
    rw [likeToks_escaped, Option.map_eq_some_iff] at ht
    obtain ⟨ts', hts', rfl⟩ := ht
    exact ⟨_, rfl, ih hts'⟩
  | percent s₁ _ ih =>
    rw [likeToks_cons (by decide), Option.map_eq_some_iff] at ht
    obtain ⟨ts', hts', rfl⟩ := ht
    exact ⟨s₁, _, rfl, ih hts'⟩
  | underscore c _ ih =>
    rw [likeToks_cons (by decide), Option.map_eq_some_iff] at ht
    obtain ⟨ts', hts', rfl⟩ := ht
    exact ⟨c, _, rfl, ih hts'⟩
  | literal c hc _ ih =>
    rw [likeToks_cons hc.1, Option.map_eq_some_iff] at ht
    obtain ⟨ts', hts', rfl⟩ := ht
    rw [tokOfChar, if_neg hc.2.1, if_neg hc.2.2]
    exact ⟨_, rfl, ih hts'⟩

/-- An unescaped character in front of a pattern reads what its token stands for. -/
theorem sqlLikeText_cons {c : Character} {p s : List Character} {ts : List (Tok Character)} (hc : c ≠ [backslash])
    (hp : ∀ s', Matches ts s' → SqlLikeText p s') (h : Matches (tokOfChar c :: ts) s) : SqlLikeText (c :: p) s := by
  unfold tokOfChar at h
  by_cases hpct : c = [percentSign]
  · rw [if_pos hpct] at h
    obtain ⟨s₁, s₂, rfl, ht⟩ := h
    rw [hpct]
    exact .percent s₁ (hp s₂ ht)
  · rw [if_neg hpct] at h
    by_cases hund : c = [underscoreSign]
    · rw [if_pos hund] at h
      obtain ⟨c', s', rfl, ht⟩ := h
      rw [hund]
      exact .underscore c' (hp s' ht)
    · rw [if_neg hund] at h
      obtain ⟨s', rfl, ht⟩ := h
      exact .literal c ⟨hc, hpct, hund⟩ (hp s' ht)

/-- A text that matches the tokens is in the pattern's language. -/
theorem sqlLikeText_of_matches {p s : List Character} {ts : List (Tok Character)} (ht : likeToks p = some ts)
    (h : Matches ts s) : SqlLikeText p s := by
  induction p using likeToks.induct generalizing ts s with
  | case1 =>
    obtain rfl : ts = [] := by simpa [eq_comm] using ht
    obtain rfl : s = [] := h
    exact .done
  | case2 => simp at ht
  | case3 c hc =>
    obtain rfl : [tokOfChar c] = ts := by simpa [hc] using ht
    refine sqlLikeText_cons hc (fun s' hs' => ?_) h
    obtain rfl : s' = [] := hs'
    exact .done
  | case4 c cs ih =>
    rw [likeToks_escaped, Option.map_eq_some_iff] at ht
    obtain ⟨ts', hts', rfl⟩ := ht
    obtain ⟨s', rfl, hm⟩ := h
    exact .escaped c (ih hts' hm)
  | case5 c c' cs hc ih =>
    rw [likeToks_cons hc, Option.map_eq_some_iff] at ht
    obtain ⟨ts', hts', rfl⟩ := ht
    exact sqlLikeText_cons hc (fun s' hs' => ih hts' hs') h

/-- The language of a pattern is that of its tokens. -/
theorem sqlLikeText_iff_matches {p s : List Character} {ts : List (Tok Character)} (ht : likeToks p = some ts) :
    SqlLikeText p s ↔ Matches ts s :=
  ⟨matches_of_sqlLikeText ht, sqlLikeText_of_matches ht⟩

/-! ## From characters to bytes -/

variable {enc : CharEncoding}

/-- The decoded bytes of a token. -/
def bytesOfTok : Tok Character → List PatChar
  | .lit c => c.map (⟨.literal, ·⟩)
  | .one => [⟨.underscore, underscoreSign⟩]
  | .star => [⟨.percent, percentSign⟩]

/-- A byte that is not ASCII decodes as a literal. -/
theorem patCharOf_high {b : Byte} (hb : ¬ b < 0x80) : patCharOf b = ⟨.literal, b⟩ := by
  apply patCharOf_literal
  · rintro rfl
    exact hb (by decide)
  · rintro rfl
    exact hb (by decide)

/-- Bytes that are not ASCII decode as literals, whatever follows. -/
theorem decodePattern_high {l : List Byte} (hl : ∀ x ∈ l, ¬ x < 0x80) (p : List Byte) :
    decodePattern (l ++ p) = (decodePattern p).map (l.map (⟨.literal, ·⟩) ++ ·) := by
  induction l with
  | nil => simp
  | cons b l ih =>
    have hb := hl b List.mem_cons_self
    have hne : b ≠ backslash := by
      rintro rfl
      exact hb (by decide)
    rw [List.cons_append, decodePattern_cons hne, ih (fun x hx => hl x (List.mem_cons_of_mem _ hx)), patCharOf_high hb,
      Option.map_map]
    rfl

/-- A character is one ASCII byte, or starts with a byte that is not ASCII. -/
theorem isChar_cases {c : Character} (hc : enc.IsChar c) :
    (∃ b, b < 0x80 ∧ c = [b]) ∨ ∃ b rest, ¬ b < 0x80 ∧ c = b :: rest ∧ ∀ x ∈ rest, ¬ x < 0x80 := by
  obtain ⟨b, rest, rfl, hlen, hrest⟩ := hc
  by_cases hb : b < 0x80
  · have hnil : rest = [] := by
      have := enc.ascii b hb
      exact List.length_eq_zero_iff.1 (by omega)
    subst hnil
    exact Or.inl ⟨b, hb, rfl⟩
  · exact Or.inr ⟨b, rest, hb, rfl, hrest⟩

/-- An ASCII byte is a character. -/
theorem isChar_ascii {b : Byte} (hb : b < 0x80) : enc.IsChar [b] :=
  ⟨b, [], rfl, enc.ascii b hb, fun _ h => nomatch h⟩

/-- The bytes of a character that is not the escape decode to its token. -/
theorem decodePattern_char {c : Character} (hc : enc.IsChar c) (hne : c ≠ [backslash]) (p : List Byte) :
    decodePattern (c ++ p) = (decodePattern p).map (bytesOfTok (tokOfChar c) ++ ·) := by
  rcases isChar_cases hc with ⟨b, _, rfl⟩ | ⟨b, rest, hb, rfl, hrest⟩
  · have hb' : b ≠ backslash := fun h => hne (by rw [h])
    rw [List.singleton_append, decodePattern_cons hb']
    have htok : bytesOfTok (tokOfChar [b]) = [patCharOf b] := by
      unfold tokOfChar patCharOf
      simp only [List.cons.injEq, and_true]
      split
      · rename_i h
        rw [h]
        rfl
      · split
        · rename_i h
          rw [h]
          rfl
        · rfl
    rw [htok]
    rfl
  · have hlit : tokOfChar (b :: rest) = .lit (b :: rest) := by
      have h1 : b :: rest ≠ [percentSign] := by
        intro h
        exact hb (by rw [(List.cons.inj h).1]; decide)
      have h2 : b :: rest ≠ [underscoreSign] := by
        intro h
        exact hb (by rw [(List.cons.inj h).1]; decide)
      rw [tokOfChar, if_neg h1, if_neg h2]
    rw [hlit]
    exact decodePattern_high (fun x hx => (List.mem_cons.1 hx).elim (fun h => h ▸ hb) (hrest x)) p

/-- The bytes of an escaped character decode to a literal. -/
theorem decodePattern_escaped_char {c : Character} (hc : enc.IsChar c) (p : List Byte) :
    decodePattern (backslash :: (c ++ p)) = (decodePattern p).map (bytesOfTok (.lit c) ++ ·) := by
  obtain ⟨b, rest, rfl, -, hrest⟩ := hc
  rw [List.cons_append, decodePattern_escaped, decodePattern_high hrest, Option.map_map]
  rfl

/-- The decoding loop on a text. -/
theorem decodePattern_flatten {cs : List Character} (hcs : ∀ c ∈ cs, enc.IsChar c) :
    decodePattern cs.flatten = (likeToks cs).map (·.flatMap bytesOfTok) := by
  induction cs using likeToks.induct with
  | case1 => rfl
  | case2 => rfl
  | case3 c hc =>
    have h := decodePattern_char (hcs c List.mem_cons_self) hc []
    rw [List.append_nil] at h
    rw [List.flatten_singleton, h, likeToks, if_neg hc]
    simp [decodePattern]
  | case4 c cs ih =>
    have h := ih (fun x hx => hcs x (by simp [hx]))
    rw [likeToks_escaped, List.flatten_cons, List.singleton_append, List.flatten_cons,
      decodePattern_escaped_char (hcs c (by simp)), h, Option.map_map, Option.map_map]
    rfl
  | case5 c c' cs hc ih =>
    have h := ih (fun x hx => hcs x (List.mem_cons_of_mem _ hx))
    rw [likeToks_cons hc, List.flatten_cons, decodePattern_char (hcs c List.mem_cons_self) hc, h, Option.map_map,
      Option.map_map]
    rfl

/-- The token of a character is that character or a wildcard. -/
theorem tokOfChar_eq_lit {c c' : Character} (h : tokOfChar c = .lit c') : c' = c := by
  unfold tokOfChar at h
  split at h
  · exact nomatch h
  · split at h
    · exact nomatch h
    · exact (Tok.lit.inj h).symm

/-- The literals of the tokens are characters of the pattern. -/
theorem mem_of_mem_likeToks {cs : List Character} {ts : List (Tok Character)} (ht : likeToks cs = some ts) :
    ∀ c, .lit c ∈ ts → c ∈ cs := by
  induction cs using likeToks.induct generalizing ts with
  | case1 =>
    obtain rfl : ts = [] := by simpa [eq_comm] using ht
    intro c hc
    exact nomatch hc
  | case2 => simp at ht
  | case3 c hc =>
    obtain rfl : [tokOfChar c] = ts := by simpa [hc] using ht
    intro c' hc'
    rw [tokOfChar_eq_lit (List.mem_singleton.1 hc').symm]
    exact List.mem_singleton_self c
  | case4 c cs ih =>
    rw [likeToks_escaped, Option.map_eq_some_iff] at ht
    obtain ⟨ts', hts', rfl⟩ := ht
    intro c' hc'
    rcases List.mem_cons.1 hc' with h | h
    · rw [Tok.lit.inj h]
      simp
    · have := ih hts' c' h
      simp [this]
  | case5 c c' cs hc ih =>
    rw [likeToks_cons hc, Option.map_eq_some_iff] at ht
    obtain ⟨ts', hts', rfl⟩ := ht
    intro c'' hc''
    rcases List.mem_cons.1 hc'' with h | h
    · rw [tokOfChar_eq_lit h.symm]
      exact List.mem_cons_self
    · exact List.mem_cons_of_mem _ (ih hts' c'' h)

/-! ## What the tokens are written as -/

/-- A literal that is escaped. -/
def needsEscape (c : Character) : Bool :=
  match c with
  | [b] => isRegexMeta b
  | _ => false

/-- The characters of the regex for a token. -/
def regexOfTok : Tok Character → List Character
  | .lit c => if needsEscape c then [[backslash], c] else [c]
  | .one => [[0x2e]]
  | .star => [[0x2e], [0x2a]]

theorem regexOfTok_lit (c : Character) : regexOfTok (.lit c) = if needsEscape c then [[backslash], c] else [c] := rfl

/-- The metacharacters are ASCII, and no letters or digits. -/
theorem isRegexMeta_ascii {b : Byte} (h : isRegexMeta b = true) : b < 0x80 ∧ isAlnum b = false := by
  unfold isRegexMeta at h
  simp only [Bool.or_eq_true, beq_iff_eq] at h
  rcases h with ((((((((((((rfl | rfl) | rfl) | rfl) | rfl) | rfl) | rfl) | rfl) | rfl) | rfl) | rfl) | rfl) | rfl) | rfl <;>
    decide

/-- A byte that is not ASCII is written as it is. -/
theorem flatMap_regexOfToken_high {l : List Byte} (hl : ∀ x ∈ l, ¬ x < 0x80) :
    (l.map (PatChar.mk .literal)).flatMap regexOfToken = l := by
  induction l with
  | nil => rfl
  | cons b l ih =>
    have hb : isRegexMeta b = false := by
      rw [Bool.eq_false_iff]
      intro h
      exact hl b List.mem_cons_self (isRegexMeta_ascii h).1
    rw [List.map_cons, List.flatMap_cons, ih (fun x hx => hl x (List.mem_cons_of_mem _ hx))]
    simp [regexOfToken, hb]

/-- The bytes written for the decoded bytes of a token are the text of its regex. -/
theorem flatMap_regexOfToken (enc : CharEncoding) {t : Tok Character} (ht : ∀ c, t = .lit c → enc.IsChar c) :
    (bytesOfTok t).flatMap regexOfToken = (regexOfTok t).flatten := by
  cases t with
  | one => rfl
  | star => rfl
  | lit c =>
    rcases isChar_cases (ht c rfl) with ⟨b, _, rfl⟩ | ⟨b, rest, hb, rfl, hrest⟩
    · cases h : isRegexMeta b <;> simp [bytesOfTok, regexOfToken, regexOfTok, needsEscape, h]
    · have hall : ∀ x ∈ b :: rest, ¬ x < 0x80 := fun x hx => (List.mem_cons.1 hx).elim (fun h => h ▸ hb) (hrest x)
      have hno : needsEscape (b :: rest) = false := by
        rw [Bool.eq_false_iff]
        intro h
        cases rest with
        | nil => exact hb (isRegexMeta_ascii h).1
        | cons b' rest => exact nomatch h
      rw [bytesOfTok, flatMap_regexOfToken_high hall, regexOfTok, hno]
      simp

/-- Strip string wildcards from the front. -/
def skipStars (anchored : Bool) : List (Tok Character) → Bool × List (Tok Character)
  | [] => (anchored, [])
  | .star :: ts => skipStars false ts
  | t :: ts => (anchored, t :: ts)

/-- Stripping the decoded bytes strips the tokens, as the bytes of a token other than `%` are not empty and hold no `%`. -/
theorem skipPercents_flatMap (f : Tok Character → List PatChar) (hstar : f .star = [⟨.percent, percentSign⟩])
    (anchored : Bool) (ts : List (Tok Character)) (hf : ∀ t ∈ ts, t ≠ .star → ∃ c cs, f t = c :: cs ∧ c.kind ≠ .percent) :
    skipPercents anchored (ts.flatMap f) = ((skipStars anchored ts).1, (skipStars anchored ts).2.flatMap f) := by
  induction ts generalizing anchored with
  | nil => rfl
  | cons t ts ih =>
    by_cases ht : t = .star
    · subst ht
      rw [List.flatMap_cons, hstar, List.singleton_append, skipPercents, if_pos rfl, skipStars]
      exact ih false (fun t ht => hf t (List.mem_cons_of_mem _ ht))
    · obtain ⟨c, cs, hc, hk⟩ := hf t List.mem_cons_self ht
      have hskip : skipStars anchored (t :: ts) = (anchored, t :: ts) := by
        cases t with
        | star => exact absurd rfl ht
        | one => rfl
        | lit c => rfl
      rw [hskip, List.flatMap_cons, hc, List.cons_append, skipPercents, if_neg hk]

/-- The tokens that are left, and whether the ends were anchored. -/
def stripStars (ts : List (Tok Character)) : Bool × Bool × List (Tok Character) :=
  let front := skipStars true ts
  let back := skipStars true front.2.reverse
  (front.1, back.1, back.2.reverse)

/-- The characters of the regex. -/
def regexChars (ts : List (Tok Character)) : List Character :=
  let (anchoredStart, anchoredEnd, body) := stripStars ts
  (if anchoredStart then [[0x5e]] else []) ++ body.flatMap regexOfTok ++ (if anchoredEnd then [[backslash], [0x7a]] else [])

/-- What is left was there. -/
theorem skipStars_subset (anchored : Bool) (ts : List (Tok Character)) : ∀ t ∈ (skipStars anchored ts).2, t ∈ ts := by
  fun_induction skipStars anchored ts with
  | case1 => exact fun _ h => h
  | case2 anchored ts ih => exact fun t h => List.mem_cons_of_mem _ (ih t h)
  | case3 => exact fun _ h => h

theorem stripStars_subset (ts : List (Tok Character)) : ∀ t ∈ (stripStars ts).2.2, t ∈ ts := by
  intro t ht
  have h1 := skipStars_subset true _ t (List.mem_reverse.1 ht)
  exact skipStars_subset true ts t (List.mem_reverse.1 h1)

/-- `like_to_regex` writes, byte by byte, the text of the regex over characters. -/
theorem regexOfTokens_flatMap {ts : List (Tok Character)} (hts : ∀ c, .lit c ∈ ts → enc.IsChar c) :
    regexOfTokens (ts.flatMap bytesOfTok) = (regexChars ts).flatten := by
  have nonempty : ∀ t ∈ ts, t ≠ .star → bytesOfTok t ≠ [] ∧ ∀ c ∈ bytesOfTok t, c.kind ≠ .percent := by
    intro t ht hne
    cases t with
    | star => exact absurd rfl hne
    | one => exact ⟨List.cons_ne_nil _ _, by simp [bytesOfTok]⟩
    | lit c =>
      obtain ⟨b, rest, rfl, -, -⟩ := hts c ht
      refine ⟨List.cons_ne_nil _ _, ?_⟩
      intro x hx
      obtain ⟨y, -, rfl⟩ := List.mem_map.1 hx
      exact nofun
  have front := skipPercents_flatMap bytesOfTok rfl true ts (by
    intro t ht hne
    obtain ⟨h1, h2⟩ := nonempty t ht hne
    obtain ⟨c, cs, hc⟩ := List.exists_cons_of_ne_nil h1
    exact ⟨c, cs, hc, h2 c (by rw [hc]; exact List.mem_cons_self)⟩)
  have back := skipPercents_flatMap (List.reverse ∘ bytesOfTok) rfl true (skipStars true ts).2.reverse (by
    intro t ht hne
    obtain ⟨h1, h2⟩ := nonempty t (skipStars_subset true ts t (List.mem_reverse.1 ht)) hne
    obtain ⟨c, cs, hc⟩ := List.exists_cons_of_ne_nil (List.reverse_ne_nil_iff.2 h1)
    exact ⟨c, cs, hc, h2 c (List.mem_reverse.1 (by rw [hc]; exact List.mem_cons_self))⟩)
  have hbody : ∀ body : List (Tok Character), (∀ t ∈ body, t ∈ ts) →
      (body.flatMap (List.reverse ∘ List.reverse ∘ bytesOfTok)).flatMap regexOfToken = (body.flatMap regexOfTok).flatten := by
    intro body hsub
    induction body with
    | nil => rfl
    | cons t body ih =>
      rw [List.flatMap_cons, List.flatMap_append, ih (fun x hx => hsub x (List.mem_cons_of_mem _ hx)), List.flatMap_cons,
        List.flatten_append, Function.comp_apply, Function.comp_apply, List.reverse_reverse,
        flatMap_regexOfToken enc (fun c hc => hts c (hc ▸ hsub t List.mem_cons_self))]
  have hanchor : ∀ (a : Bool) (cs : List Character), (if a then cs.flatten else []) = (if a then cs else []).flatten := by
    intro a cs
    cases a <;> rfl
  unfold regexOfTokens
  rw [front]
  dsimp only
  rw [List.reverse_flatMap, back]
  dsimp only
  rw [List.reverse_flatMap, hbody (skipStars true (skipStars true ts).2.reverse).2.reverse (stripStars_subset ts)]
  unfold regexChars stripStars
  dsimp only
  rw [List.flatten_append, List.flatten_append, ← hanchor, ← hanchor]
  rfl

/-! ## How PCRE2 reads it -/

/-- The item of a token. -/
def itemOf : Tok Character → Pcre2Item
  | .lit c => .lit c
  | .one => .any
  | .star => .anyStar

/-- The items of the regex. -/
def regexItems (ts : List (Tok Character)) : List Pcre2Item :=
  let (anchoredStart, anchoredEnd, body) := stripStars ts
  (if anchoredStart then [.bol] else []) ++ body.map itemOf ++ (if anchoredEnd then [.eos] else [])

/-- A character that is written without a backslash reads as itself. -/
theorem parsePcre2_plain {c : Character} (h : needsEscape c = false) (cs : List Character) :
    parsePcre2 (c :: cs) = (parsePcre2 cs).map (.lit c :: ·) := by
  have hmeta : isPcre2Meta c = false := by
    rw [Bool.eq_false_iff]
    intro hm
    unfold isPcre2Meta at hm
    simp only [List.mem_cons, List.not_mem_nil, or_false, decide_eq_true_eq] at hm
    rcases hm with rfl | rfl | rfl | rfl | rfl | rfl | rfl | rfl | rfl | rfl | rfl | rfl <;> exact absurd h (by decide)
  have h1 : c ≠ [0x5e] := by rintro rfl; exact absurd h (by decide)
  have h2 : c ≠ [0x2e] := by rintro rfl; exact absurd h (by decide)
  have h3 : c ≠ [0x5c] := by rintro rfl; exact absurd h (by decide)
  rw [parsePcre2, hmeta]
  · rfl
  · exact h1
  · exact fun _ h _ => h2 h
  · exact h2
  · exact fun _ _ h _ => h3 h

/-- A character that is written with a backslash reads as itself. -/
theorem parsePcre2_quoted {c : Character} (h : needsEscape c = true) (cs : List Character) :
    parsePcre2 ([backslash] :: c :: cs) = (parsePcre2 cs).map (.lit c :: ·) := by
  have hq : isQuotable c = true ∧ c ≠ [0x7a] := by
    rcases c with _ | ⟨b, _ | ⟨b', rest⟩⟩
    · exact Bool.noConfusion h
    · obtain ⟨ha, hn⟩ := isRegexMeta_ascii h
      refine ⟨?_, ?_⟩
      · unfold isQuotable
        simp [ha, hn]
      · intro hz
        rw [(List.cons.inj hz).1] at hn
        exact absurd hn (by decide)
    · exact Bool.noConfusion h
  show parsePcre2 ([0x5c] :: c :: cs) = _
  rw [parsePcre2, if_neg hq.2, if_pos hq.1]

/-- What is written for a token does not start with a bare `*`. -/
theorem head_regexOfTok (t : Tok Character) : (regexOfTok t).head? ≠ some [0x2a] := by
  cases t with
  | one => decide
  | star => decide
  | lit c =>
    rw [regexOfTok_lit]
    cases h : needsEscape c with
    | true =>
      intro hc
      exact absurd (Option.some.inj hc) (by decide)
    | false =>
      intro hc
      rw [Option.some.inj hc] at h
      exact absurd h (by decide)

/-- Nor does what is written for several. -/
theorem head_flatMap_regexOfTok (body : List (Tok Character)) {tail : List Character} (ht : tail.head? ≠ some [0x2a]) :
    (body.flatMap regexOfTok ++ tail).head? ≠ some [0x2a] := by
  cases body with
  | nil => exact ht
  | cons t body =>
    have hne : regexOfTok t ≠ [] := by
      cases t with
      | one => decide
      | star => decide
      | lit c =>
        rw [regexOfTok_lit]
        split <;> exact List.cons_ne_nil _ _
    obtain ⟨c, cs, hc⟩ := List.exists_cons_of_ne_nil hne
    have := head_regexOfTok t
    rw [hc] at this
    rw [List.flatMap_cons, hc]
    exact this

/-- A dot that no `*` follows. -/
theorem parsePcre2_dot {cs : List Character} (h : cs.head? ≠ some [0x2a]) :
    parsePcre2 ([0x2e] :: cs) = (parsePcre2 cs).map (.any :: ·) := by
  cases cs with
  | nil => rfl
  | cons c cs =>
    rw [parsePcre2]
    intro cs' he
    exact h (by rw [he]; rfl)

/-- The text of the tokens reads as their items. -/
theorem parsePcre2_body (body : List (Tok Character)) {tail : List Character} (ht : tail.head? ≠ some [0x2a]) :
    parsePcre2 (body.flatMap regexOfTok ++ tail) = (parsePcre2 tail).map (body.map itemOf ++ ·) := by
  induction body with
  | nil => simp
  | cons t body ih =>
    have hcons : parsePcre2 ((t :: body).flatMap regexOfTok ++ tail) =
        (parsePcre2 (body.flatMap regexOfTok ++ tail)).map (itemOf t :: ·) := by
      rw [List.flatMap_cons, List.append_assoc]
      cases t with
      | one => exact parsePcre2_dot (head_flatMap_regexOfTok body ht)
      | star => rfl
      | lit c =>
        rw [regexOfTok_lit]
        cases h : needsEscape c with
        | true => exact parsePcre2_quoted h _
        | false => exact parsePcre2_plain h _
    rw [hcons, ih, Option.map_map]
    rfl

/-- The regex reads as its items. -/
theorem parsePcre2_regexChars (ts : List (Tok Character)) : parsePcre2 (regexChars ts) = some (regexItems ts) := by
  unfold regexChars regexItems
  obtain ⟨a, e, body⟩ := stripStars ts
  dsimp only
  have hbody : parsePcre2 (body.flatMap regexOfTok ++ (if e then [[backslash], [0x7a]] else [])) =
      some (body.map itemOf ++ (if e then [.eos] else [])) := by
    cases e with
    | true => exact parsePcre2_body body (by decide)
    | false => exact parsePcre2_body body (by decide)
  rw [List.append_assoc, List.append_assoc]
  cases a with
  | true =>
    rw [if_pos rfl, if_pos rfl, List.singleton_append, parsePcre2, hbody]
    rfl
  | false => exact hbody

/-! ## What the regex finds -/

/-- Items that consume read a stretch of the subject as their tokens do. -/
theorem pcre2MatchAt_body {flags : Pcre2Flags} (hdot : flags.dotall = true) (body : List (Tok Character))
    (tail : List Pcre2Item) (before rest : List Character) :
    pcre2MatchAt flags (body.map itemOf ++ tail) before rest ↔
      ∃ x y, rest = x ++ y ∧ Matches body x ∧ pcre2MatchAt flags tail (before ++ x) y := by
  have takes : ∀ c, flags.dotTakes c = true := by
    intro c
    rw [Pcre2Flags.dotTakes, hdot, Bool.true_or]
  induction body generalizing before rest with
  | nil =>
    constructor
    · intro h
      exact ⟨[], rest, rfl, rfl, by rwa [List.append_nil]⟩
    · rintro ⟨x, y, rfl, rfl, h⟩
      rwa [List.append_nil] at h
  | cons t body ih =>
    cases t with
    | lit c =>
      constructor
      · rintro ⟨rest', rfl, h⟩
        obtain ⟨x, y, rfl, hx, hy⟩ := (ih _ _).1 h
        exact ⟨c :: x, y, rfl, ⟨x, rfl, hx⟩, by simpa using hy⟩
      · rintro ⟨x, y, rfl, ⟨x', rfl, hx⟩, hy⟩
        exact ⟨x' ++ y, rfl, (ih _ _).2 ⟨x', y, rfl, hx, by simpa using hy⟩⟩
    | one =>
      constructor
      · rintro ⟨c, rest', rfl, -, h⟩
        obtain ⟨x, y, rfl, hx, hy⟩ := (ih _ _).1 h
        exact ⟨c :: x, y, rfl, ⟨c, x, rfl, hx⟩, by simpa using hy⟩
      · rintro ⟨x, y, rfl, ⟨c, x', rfl, hx⟩, hy⟩
        exact ⟨c, x' ++ y, rfl, takes c, (ih _ _).2 ⟨x', y, rfl, hx, by simpa using hy⟩⟩
    | star =>
      constructor
      · rintro ⟨taken, rest', rfl, -, h⟩
        obtain ⟨x, y, rfl, hx, hy⟩ := (ih _ _).1 h
        exact ⟨taken ++ x, y, by rw [List.append_assoc], ⟨taken, x, rfl, hx⟩, by rwa [← List.append_assoc]⟩
      · rintro ⟨x, y, rfl, ⟨taken, x', rfl, hx⟩, hy⟩
        exact ⟨taken, x' ++ y, by rw [List.append_assoc], fun c _ => takes c,
          (ih _ _).2 ⟨x', y, rfl, hx, by rwa [List.append_assoc]⟩⟩

/-- What was stripped from the front: a run of string wildcards, empty when the front stays anchored. -/
theorem skipStars_spec (anchored : Bool) (ts : List (Tok Character)) :
    ∃ stars, ts = stars ++ (skipStars anchored ts).2 ∧ (∀ o ∈ stars, o = .star) ∧
      (skipStars anchored ts).1 = (anchored && decide (stars = [])) := by
  fun_induction skipStars anchored ts with
  | case1 anchored => exact ⟨[], rfl, (fun _ h => nomatch h), by simp⟩
  | case2 anchored ts ih =>
    obtain ⟨stars, hts, hall, hflag⟩ := ih
    refine ⟨.star :: stars, by rw [List.cons_append, ← hts], ?_, by simpa using hflag⟩
    intro o ho
    exact (List.mem_cons.1 ho).elim id (hall o)
  | case3 anchored t ts hne => exact ⟨[], rfl, (fun _ h => nomatch h), by simp⟩

/-- A start anchor, when there is one. -/
theorem pcre2MatchAt_bol (flags : Pcre2Flags) (a : Bool) (items : List Pcre2Item) (before rest : List Character) :
    pcre2MatchAt flags ((if a then [.bol] else []) ++ items) before rest ↔
      (a = true → before = []) ∧ pcre2MatchAt flags items before rest := by
  cases a with
  | true => simp [pcre2MatchAt]
  | false => simp

/-- An end anchor, when there is one. -/
theorem pcre2MatchAt_eos (flags : Pcre2Flags) (e : Bool) (before rest : List Character) :
    pcre2MatchAt flags (if e then [.eos] else []) before rest ↔ (e = true → rest = []) := by
  cases e with
  | true => simp [pcre2MatchAt]
  | false => simp [pcre2MatchAt]

/-- A run of string wildcards reads anything, and an empty one the empty string. -/
theorem matches_run {stars : List (Tok Character)} (h : ∀ o ∈ stars, o = .star) (s : List Character) :
    Matches stars s ↔ (stars = [] → s = []) := by
  constructor
  · rintro hm rfl
    exact hm
  · intro hs
    by_cases hnil : stars = []
    · rw [hnil, hs hnil]
      exact rfl
    · exact matches_stars h hnil s

/-- An unanchored search for the regex finds a match exactly when the tokens match the whole subject: where an anchor is left
out, the run of wildcards that was stripped takes what the search leaves unread. -/
theorem finds_iff_matches {flags : Pcre2Flags} (hdot : flags.dotall = true) (ts : List (Tok Character))
    (s : List Character) : Pcre2Finds flags (regexItems ts) s ↔ Matches ts s := by
  obtain ⟨stars₁, hfront, hall₁, ha⟩ := skipStars_spec true ts
  obtain ⟨stars₂, hback, hall₂, he⟩ := skipStars_spec true (skipStars true ts).2.reverse
  unfold regexItems stripStars
  dsimp only
  rw [ha, he]
  generalize (skipStars true (skipStars true ts).2.reverse).2 = back at *
  have hts : ts = stars₁ ++ (back.reverse ++ stars₂.reverse) := by
    have h := congrArg List.reverse hback
    rw [List.reverse_reverse, List.reverse_append] at h
    rw [← h]
    exact hfront
  have hall₂' : ∀ o ∈ stars₂.reverse, o = .star := fun o ho => hall₂ o (List.mem_reverse.1 ho)
  rw [hts, matches_append]
  unfold Pcre2Finds
  simp only [List.append_assoc, pcre2MatchAt_bol, pcre2MatchAt_body hdot, pcre2MatchAt_eos, Bool.true_and]
  simp only [decide_eq_true_eq, matches_append, matches_run hall₁, matches_run hall₂', List.reverse_eq_nil_iff]

end LikeRegexAux
end PgJitter
