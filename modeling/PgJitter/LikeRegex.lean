import PgJitter.Like

/-!
# LIKE patterns as PCRE2 patterns

`like_to_regex` and the compile flags that go with it (`src/pg_jitter_pcre2.c`). Next to them, what the result is compared with:
the language of a LIKE pattern over the characters of a database encoding, and the part of PCRE2's pattern language that the
translation writes, as PCRE2 documents it: literals, escaped characters, `.`, `.*`, `^` and `\z`, searched unanchored.
-/

namespace PgJitter

/-! ## The translation -/

/-- The PCRE2 options that are used. -/
structure Pcre2Flags where
  dotall : Bool
  dollarEndonly : Bool
  utf : Bool
  caseless : Bool
  deriving DecidableEq, Repr

/-- `pg_jitter_pcre2_compile_flags`. -/
def pcre2CompileFlags (enc : DatabaseEncoding) (caseInsensitive : Bool) : Pcre2Flags :=
  ⟨true, true, enc.isUtf8, caseInsensitive⟩

/-- `sizeof(LikeToken)`: a byte and an enumeration. -/
def sizeofLikeToken : Nat := 8

/-- The characters that the translation puts a backslash before. -/
def isRegexMeta (c : Byte) : Bool :=
  c == 0x2e || c == 0x2b || c == 0x2a || c == 0x3f || c == 0x5b || c == 0x5d || c == 0x28 || c == 0x29 || c == 0x7b ||
    c == 0x7d || c == 0x5e || c == 0x24 || c == 0x7c || c == 0x5c

/-- The loops over `%` at an end, from the end on: the anchor flag, and the tokens that are left. -/
def skipPercents (anchored : Bool) : List PatChar → Bool × List PatChar
  | [] => (anchored, [])
  | t :: ts => if t.kind = .percent then skipPercents false ts else (anchored, t :: ts)

/-- What one token writes. -/
def regexOfToken (t : PatChar) : List Byte :=
  match t.kind with
  | .percent => [0x2e, 0x2a]
  | .underscore => [0x2e]
  | .literal => if isRegexMeta t.ch then [backslash, t.ch] else [t.ch]

/-- The part of `like_to_regex` after the tokens: strip the ends, write the anchors and the tokens. -/
def regexOfTokens (tokens : List PatChar) : List Byte :=
  let (anchoredStart, fromStart) := skipPercents true tokens
  let (anchoredEnd, reversed) := skipPercents true fromStart.reverse
  (if anchoredStart then [0x5e] else []) ++ reversed.reverse.flatMap regexOfToken ++
    (if anchoredEnd then [backslash, 0x7a] else [])

/-- The size of the output buffer. -/
def regexMaxLen (likeLen : Nat) : Nat := likeLen * 2 + 4

/-- `like_to_regex`, without the terminator it adds; `alloc` says which allocations succeed. -/
def likeToRegex (alloc : Nat → Bool) (likePat : List Byte) : Option (List Byte) :=
  let likeLen := likePat.length
  if likeLen > (maxAllocSize - 4) / 2 then none
  else
    let ntokensAlloc := if likeLen > 0 then likeLen else 1
    if ntokensAlloc > maxAllocSize / sizeofLikeToken then none
    else if alloc (regexMaxLen likeLen) = false then none
    else if alloc (ntokensAlloc * sizeofLikeToken) = false then none
    else (decodePattern likePat).map regexOfTokens

/-! ## Characters -/

/-- A character of a database encoding, as its bytes. -/
abbrev Character := List Byte

/-- An encoding that can be used in a server: the first byte of a character gives its length, and ASCII stands for itself. -/
structure CharEncoding where
  /-- `pg_mblen`. -/
  mblen : Byte → Nat
  ascii : ∀ b, b < 0x80 → mblen b = 1

/-- UTF-8, by `pg_utf_mblen`. -/
def CharEncoding.utf8 : CharEncoding where
  mblen b := if b < 0x80 then 1 else if b &&& 0xe0 = 0xc0 then 2 else if b &&& 0xf0 = 0xe0 then 3
    else if b &&& 0xf8 = 0xf0 then 4 else 1
  ascii := fun _ h => if_pos h

/-- A character: its first byte announces its length, and the bytes that follow are not ASCII. -/
def CharEncoding.IsChar (enc : CharEncoding) (c : Character) : Prop :=
  ∃ b rest, c = b :: rest ∧ enc.mblen b = rest.length + 1 ∧ ∀ x ∈ rest, ¬ x < 0x80

/-- The bytes are the text of these characters. -/
def CharEncoding.IsText (enc : CharEncoding) (bytes : List Byte) (cs : List Character) : Prop :=
  bytes = cs.flatten ∧ ∀ c ∈ cs, enc.IsChar c

/-! ## LIKE over characters -/

/-- The language of an SQL LIKE pattern over characters: `SqlLike` where a wildcard takes whole characters. -/
inductive SqlLikeText : List Character → List Character → Prop where
  | done : SqlLikeText [] []
  | escaped {p s : List Character} (c : Character) : SqlLikeText p s → SqlLikeText ([backslash] :: c :: p) (c :: s)
  | percent {p s₂ : List Character} (s₁ : List Character) :
      SqlLikeText p s₂ → SqlLikeText ([percentSign] :: p) (s₁ ++ s₂)
  | underscore {p s : List Character} (c : Character) : SqlLikeText p s → SqlLikeText ([underscoreSign] :: p) (c :: s)
  | literal {p s : List Character} (c : Character) (hc : c ≠ [backslash] ∧ c ≠ [percentSign] ∧ c ≠ [underscoreSign]) :
      SqlLikeText p s → SqlLikeText (c :: p) (c :: s)

/-- The backslashes at the end of the pattern are odd in number, so the last of them escapes nothing. -/
def EndsUnpaired (pattern : List Byte) : Prop := (pattern.reverse.takeWhile (· == backslash)).length % 2 = 1

/-! ## PCRE2 patterns -/

/-- An item of a pattern. -/
inductive Pcre2Item where
  /-- `^` -/
  | bol
  /-- `\z` -/
  | eos
  /-- `.` -/
  | any
  /-- `.*` -/
  | anyStar
  | lit (c : Character)
  deriving DecidableEq, Repr

/-- The characters with a meaning of their own outside a character class. -/
def isPcre2Meta (c : Character) : Bool :=
  c ∈ [[0x5c], [0x5e], [0x24], [0x2e], [0x5b], [0x7c], [0x28], [0x29], [0x3f], [0x2a], [0x2b], [0x7b]]

/-- A letter or digit: a backslash before one has a meaning of its own. -/
def isAlnum (b : Byte) : Bool := (0x30 ≤ b && b ≤ 0x39) || (0x41 ≤ b && b ≤ 0x5a) || (0x61 ≤ b && b ≤ 0x7a)

/-- A backslash before a character that is no letter or digit takes its meaning away. -/
def isQuotable (c : Character) : Bool :=
  match c with
  | [b] => b < 0x80 && !isAlnum b
  | _ => false

/-- Read a pattern as its items; `none` for anything outside the part of the language that is modelled. -/
def parsePcre2 : List Character → Option (List Pcre2Item)
  | [] => some []
  | [0x5e] :: cs => (parsePcre2 cs).map (.bol :: ·)
  | [0x2e] :: [0x2a] :: cs => (parsePcre2 cs).map (.anyStar :: ·)
  | [0x2e] :: cs => (parsePcre2 cs).map (.any :: ·)
  | [0x5c] :: c :: cs =>
    if c = [0x7a] then (parsePcre2 cs).map (.eos :: ·)
    else if isQuotable c then (parsePcre2 cs).map (.lit c :: ·)
    else none
  | c :: cs => if isPcre2Meta c then none else (parsePcre2 cs).map (.lit c :: ·)

/-- A character that `.` takes: any one under DOTALL, else any but a newline. -/
def Pcre2Flags.dotTakes (flags : Pcre2Flags) (c : Character) : Bool := flags.dotall || c != [0x0a]

/-- The items match at a place of the subject: the characters before it are given, and those after it. -/
def pcre2MatchAt (flags : Pcre2Flags) : List Pcre2Item → (before rest : List Character) → Prop
  | [], _, _ => True
  | .bol :: t, before, rest => before = [] ∧ pcre2MatchAt flags t before rest
  | .eos :: t, before, rest => rest = [] ∧ pcre2MatchAt flags t before rest
  | .any :: t, before, rest =>
    ∃ c rest', rest = c :: rest' ∧ flags.dotTakes c = true ∧ pcre2MatchAt flags t (before ++ [c]) rest'
  | .anyStar :: t, before, rest =>
    ∃ taken rest', rest = taken ++ rest' ∧ (∀ c ∈ taken, flags.dotTakes c = true) ∧
      pcre2MatchAt flags t (before ++ taken) rest'
  | .lit c :: t, before, rest => ∃ rest', rest = c :: rest' ∧ pcre2MatchAt flags t (before ++ [c]) rest'

/-- An unanchored search finds a match. -/
def Pcre2Finds (flags : Pcre2Flags) (items : List Pcre2Item) (subject : List Character) : Prop :=
  ∃ before rest, subject = before ++ rest ∧ pcre2MatchAt flags items before rest

end PgJitter
