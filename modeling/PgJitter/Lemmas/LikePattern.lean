import PgJitter.Like

/-!
# The blocks of a LIKE pattern

A decoded pattern is a head block and the blocks that follow a `%` (`blocks`), each a mask over bytes. The language of the
pattern (`SqlLike`) is the language of these blocks (`sqlLike_iff_blocks`), so a pattern with a `%` is a placement problem of
the wildcard library (`sqlLike_iff_placeable`).
-/

namespace PgJitter

open Glob

/-- The wildcard token of a decoded character. -/
def PatChar.tok (c : PatChar) : Tok Byte :=
  match c.kind with
  | .literal => .lit c.ch
  | .percent => .star
  | .underscore => .one

/-- What a decoded character other than `%` asks of one byte. -/
def PatChar.mask (c : PatChar) : Option Byte := if c.kind = .underscore then none else some c.ch

/-- The head block of a decoded pattern and the blocks after each `%`. -/
def blocks : List PatChar → Mask Byte × List (Mask Byte)
  | [] => ([], [])
  | c :: cs =>
    if c.kind = .percent then ([], (blocks cs).1 :: (blocks cs).2) else (c.mask :: (blocks cs).1, (blocks cs).2)

/-! ## The language of the decoded pattern -/

theorem patCharOf_percentSign : patCharOf percentSign = ⟨.percent, percentSign⟩ := by decide

theorem patCharOf_underscoreSign : patCharOf underscoreSign = ⟨.underscore, underscoreSign⟩ := by decide

theorem patCharOf_literal {b : Byte} (hp : b ≠ percentSign) (hu : b ≠ underscoreSign) : patCharOf b = ⟨.literal, b⟩ := by
  simp [patCharOf, hp, hu]

attribute [local simp] decodePattern

/-- Decoding takes an escaped byte as a literal. -/
theorem decodePattern_escaped (b : Byte) (p : List Byte) :
    decodePattern (backslash :: b :: p) = (decodePattern p).map (⟨.literal, b⟩ :: ·) := by
  simp

/-- Decoding takes any byte but the escape by its class. -/
theorem decodePattern_cons {b : Byte} (hb : b ≠ backslash) (p : List Byte) :
    decodePattern (b :: p) = (decodePattern p).map (patCharOf b :: ·) := by
  cases p <;> simp [hb]

/-- A string of the pattern's language matches the decoded pattern. -/
theorem matches_of_sqlLike {p s : List Byte} {kinds : List PatChar} (hd : decodePattern p = some kinds) (h : SqlLike p s) :
    Matches (kinds.map PatChar.tok) s := by
  induction h generalizing kinds with
  | done =>
    obtain rfl : kinds = [] := by simpa [eq_comm] using hd
    rfl
  | escaped b _ ih =>
    rw [decodePattern_escaped, Option.map_eq_some_iff] at hd
    obtain ⟨ks, hks, rfl⟩ := hd
    exact ⟨_, rfl, ih hks⟩
  | percent s₁ _ ih =>
    rw [decodePattern_cons (by decide), patCharOf_percentSign, Option.map_eq_some_iff] at hd
    obtain ⟨ks, hks, rfl⟩ := hd
    exact ⟨s₁, _, rfl, ih hks⟩
  | underscore b _ ih =>
    rw [decodePattern_cons (by decide), patCharOf_underscoreSign, Option.map_eq_some_iff] at hd
    obtain ⟨ks, hks, rfl⟩ := hd
    exact ⟨b, _, rfl, ih hks⟩
  | literal b hb _ ih =>
    rw [decodePattern_cons hb.1, patCharOf_literal hb.2.1 hb.2.2, Option.map_eq_some_iff] at hd
    obtain ⟨ks, hks, rfl⟩ := hd
    exact ⟨_, rfl, ih hks⟩

/-- An unescaped byte in front of a pattern reads what its class stands for. -/
theorem sqlLike_cons_of_matches {b : Byte} {p s : List Byte} {t : List (Tok Byte)} (hb : b ≠ backslash)
    (hp : ∀ s', Matches t s' → SqlLike p s') (h : Matches ((patCharOf b).tok :: t) s) : SqlLike (b :: p) s := by
  by_cases hpct : b = percentSign
  · subst hpct
    rw [patCharOf_percentSign] at h
    obtain ⟨s₁, s₂, rfl, ht⟩ := h
    exact .percent s₁ (hp s₂ ht)
  · by_cases hund : b = underscoreSign
    · subst hund
      rw [patCharOf_underscoreSign] at h
      obtain ⟨c, s', rfl, ht⟩ := h
      exact .underscore c (hp s' ht)
    · rw [patCharOf_literal hpct hund] at h
      obtain ⟨s', rfl, ht⟩ := h
      exact .literal b ⟨hb, hpct, hund⟩ (hp s' ht)

/-- A string that matches the decoded pattern is in the pattern's language. -/
theorem sqlLike_of_matches {p s : List Byte} {kinds : List PatChar} (hd : decodePattern p = some kinds)
    (h : Matches (kinds.map PatChar.tok) s) : SqlLike p s := by
  induction p using decodePattern.induct generalizing kinds s with
  | case1 =>
    obtain rfl : kinds = [] := by simpa [eq_comm] using hd
    obtain rfl : s = [] := h
    exact .done
  | case2 => simp at hd
  | case3 b hb =>
    obtain rfl : [patCharOf b] = kinds := by simpa [hb] using hd
    refine sqlLike_cons_of_matches hb (fun s' hs' => ?_) h
    obtain rfl : s' = [] := hs'
    exact .done
  | case4 c rest ih =>
    rw [decodePattern_escaped, Option.map_eq_some_iff] at hd
    obtain ⟨ks, hks, rfl⟩ := hd
    obtain ⟨s', rfl, ht⟩ := h
    exact .escaped c (ih hks ht)
  | case5 b c rest hb ih =>
    rw [decodePattern_cons hb, Option.map_eq_some_iff] at hd
    obtain ⟨ks, hks, rfl⟩ := hd
    exact sqlLike_cons_of_matches hb (fun s' hs' => ih hks hs') h

/-- The language of a pattern is the language of its decoded characters. -/
theorem sqlLike_iff_matches {p s : List Byte} {kinds : List PatChar} (hd : decodePattern p = some kinds) :
    SqlLike p s ↔ Matches (kinds.map PatChar.tok) s :=
  ⟨matches_of_sqlLike hd, sqlLike_of_matches hd⟩

/-! ## Blocks -/

/-- The tokens of a decoded pattern are those of its blocks. -/
theorem map_tok_eq_blocks (kinds : List PatChar) :
    kinds.map PatChar.tok = (blocks kinds).1.toks ++ starJoin (blocks kinds).2 := by
  induction kinds with
  | nil => rfl
  | cons c cs ih =>
    by_cases hp : c.kind = .percent
    · simp [blocks, hp, ih, PatChar.tok, starJoin]
    · cases hk : c.kind <;> simp_all [blocks, PatChar.tok, PatChar.mask, Mask.toks]

/-- A pattern without `%` is one block, which the whole string has to fit. -/
theorem sqlLike_iff_mask {p s : List Byte} {kinds : List PatChar} (hd : decodePattern p = some kinds)
    (hb : (blocks kinds).2 = []) : SqlLike p s ↔ FitsAt (blocks kinds).1 s 0 ∧ (blocks kinds).1.length = s.length := by
  rw [sqlLike_iff_matches hd, map_tok_eq_blocks, hb, starJoin, List.flatMap_nil, List.append_nil, matches_mask]

/-- A pattern with a `%` is a placement problem: its head block fits the start, its tail block the end, and the blocks between
can be placed one after another in between. -/
theorem sqlLike_iff_placeable {p s : List Byte} {kinds : List PatChar} {mids : List (Mask Byte)} {e : Mask Byte}
    (hd : decodePattern p = some kinds) (hb : (blocks kinds).2 = mids ++ [e]) :
    SqlLike p s ↔ FitsAt (blocks kinds).1 s 0 ∧ e.length ≤ s.length ∧ FitsAt e s (s.length - e.length) ∧
      Placeable s mids (blocks kinds).1.length (s.length - e.length) := by
  rw [sqlLike_iff_matches hd, map_tok_eq_blocks, hb, matches_starJoin]

end PgJitter
