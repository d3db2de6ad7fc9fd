import PgJitter.Pcre2Cache

/-!
# PostgreSQL regular expressions as PCRE2 patterns

`raw_regex_to_pcre2` (`src/pg_jitter_pcre2.c`), with what it calls: the loop over the text of a regular expression, which copies it,
rewrites what PCRE2 reads differently and gives up where it cannot. A position of the text is given by the text from it on. Next to it,
the bracket expressions of the text under POSIX rules.
-/

namespace PgJitter

/-! ## Characters -/

/-- A character of the source text. -/
def ch (c : Char) : Byte := UInt8.ofNat c.toNat

/-- `[`. -/
def openBracket : Byte := 0x5b

/-- `]`. -/
def closeBracket : Byte := 0x5d

/-- `(`. -/
def openParen : Byte := 0x28

/-- `)`. -/
def closeParen : Byte := 0x29

/-- `$`. -/
def dollar : Byte := 0x24

/-- `^`. -/
def caret : Byte := 0x5e

/-- `:`. -/
def colon : Byte := 0x3a

/-- `?`. -/
def question : Byte := 0x3f

/-- `{`. -/
def openBrace : Byte := 0x7b

/-- `}`. -/
def closeBrace : Byte := 0x7d

/-- `raw_regex_ascii_is_alnum`. -/
def rawRegexAsciiIsAlnum (c : Byte) : Bool :=
  (c ≥ ch 'A' && c ≤ ch 'Z') || (c ≥ ch 'a' && c ≤ ch 'z') || (c ≥ ch '0' && c ≤ ch '9')

/-- `raw_regex_ascii_is_digit`. -/
def rawRegexAsciiIsDigit (c : Byte) : Bool := c ≥ ch '0' && c ≤ ch '9'

/-! ## The output -/

/-- `pcre2_regex_append`, to a buffer of `cap` bytes. -/
def pcre2RegexAppend (cap : Nat) (buf str : List Byte) : Option (List Byte) :=
  if buf.length > cap ∨ str.length > cap - buf.length then none else some (buf ++ str)

/-- `pcre2_regex_append_byte`. -/
def pcre2RegexAppendByte (cap : Nat) (buf : List Byte) (c : Byte) : Option (List Byte) :=
  if buf.length ≥ cap then none else some (buf ++ [c])

/-- Several bytes, appended one by one. -/
def pcre2RegexAppendBytes (cap : Nat) (buf bytes : List Byte) : Option (List Byte) :=
  bytes.foldlM (pcre2RegexAppendByte cap) buf

/-- The digits of `%X`. -/
def hexUpper (n : Nat) : List Byte := (Nat.toDigits 16 n).map fun c => ch c.toUpper

/-- `raw_regex_append_codepoint`; the text is short enough for `tmp`. -/
def rawRegexAppendCodepoint (cap : Nat) (buf : List Byte) (codepoint : Nat) : Option (List Byte) :=
  if codepoint > 0x10FFFF then none
  else pcre2RegexAppend cap buf ([backslash, ch 'x', openBrace] ++ hexUpper codepoint ++ [closeBrace])

/-! ## Bounds and quantifiers -/

/-- The digits of a number of a bound, after the value `n`: the number, and the text after it. -/
def boundDigits (n : Nat) : List Byte → Option (Nat × List Byte)
  | [] => some (n, [])
  | c :: rest =>
    if rawRegexAsciiIsDigit c then
      let n' := n * 10 + (c.toNat - (ch '0').toNat)
      if n' > 255 then none else boundDigits n' rest
    else some (n, c :: rest)

/-- `raw_regex_parse_bound_number`. -/
def rawRegexParseBoundNumber (rest : List Byte) : Option (Nat × List Byte) :=
  if (rest.head?.map rawRegexAsciiIsDigit).getD false then boundDigits 0 rest else none

/-- `raw_regex_bound_is_supported`, at a `{`. -/
def rawRegexBoundIsSupported (rest : List Byte) : Bool :=
  if ((rest[1]?).map rawRegexAsciiIsDigit).getD false = false then true
  else
    match rawRegexParseBoundNumber rest.tail with
    | none => false
    | some (lower, after) =>
      if after.head? = some (ch ',') then
        if ((after[1]?).map rawRegexAsciiIsDigit).getD false then
          match rawRegexParseBoundNumber after.tail with
          | none => false
          | some (upper, after') => if lower > upper then false else after'.head? == some closeBrace
        else after[1]? == some closeBrace
      else after.head? == some closeBrace

/-- `raw_regex_starts_quantifier`. -/
def rawRegexStartsQuantifier (rest : List Byte) : Bool :=
  match rest with
  | [] => false
  | c :: after =>
    c == ch '*' || c == ch '+' || c == question || c == openBrace && (after.head?.map rawRegexAsciiIsDigit).getD false

/-! ## Escapes -/

/-- `raw_regex_hex_value`. -/
def rawRegexHexValue (c : Byte) : Option Nat :=
  if c ≥ ch '0' ∧ c ≤ ch '9' then some (c.toNat - (ch '0').toNat)
  else if c ≥ ch 'a' ∧ c ≤ ch 'f' then some (c.toNat - (ch 'a').toNat + 10)
  else if c ≥ ch 'A' ∧ c ≤ ch 'F' then some (c.toNat - (ch 'A').toNat + 10)
  else none

/-- The loop of `raw_regex_parse_fixed_hex_escape`: the value of so many digits, modulo 2³² as in a `uint32`. -/
def fixedHexDigits : Nat → Nat → List Byte → Option Nat
  | 0, value, _ => some value
  | _ + 1, _, [] => none
  | digits + 1, value, c :: rest =>
    (rawRegexHexValue c).bind fun hex => fixedHexDigits digits ((value <<< 4 ||| hex) % 2 ^ 32) rest

/-- `raw_regex_parse_fixed_hex_escape`, on the text after the escape letter: the code point, and how many bytes it takes. -/
def rawRegexParseFixedHexEscape (after : List Byte) (digits : Nat) : Option (Nat × Nat) :=
  if after.length < digits then none
  else (fixedHexDigits digits 0 after).bind fun value => if value > 0x10FFFF then none else some (value, digits)

/-- The loop of `raw_regex_parse_variable_hex_escape`, with `fuel` digits of its 255 left: the value, and how many digits it read. -/
def variableHexDigits : Nat → Nat → Nat → List Byte → Option (Nat × Nat)
  | fuel + 1, value, digits, c :: rest =>
    match rawRegexHexValue c with
    | none => some (value, digits)
    | some hex =>
      if value > (0x10FFFF - hex) / 16 then none else variableHexDigits fuel (value * 16 + hex) (digits + 1) rest
  | _, value, digits, _ => some (value, digits)

/-- `raw_regex_parse_variable_hex_escape`. -/
def rawRegexParseVariableHexEscape (after : List Byte) : Option (Nat × Nat) :=
  (variableHexDigits 255 0 0 after).bind fun (value, digits) =>
    if digits = 0 ∨ value > 0x10FFFF then none else some (value, digits)

/-- The loop of `raw_regex_parse_octal_escape`, with `fuel` digits of its 3 left. -/
def octalDigits : Nat → Nat → Nat → List Byte → Nat × Nat
  | fuel + 1, value, digits, c :: rest =>
    if c ≥ ch '0' ∧ c ≤ ch '7' then octalDigits fuel ((value <<< 3) + (c.toNat - (ch '0').toNat)) (digits + 1) rest
    else (value, digits)
  | _, value, digits, _ => (value, digits)

/-- `raw_regex_parse_octal_escape`, on the text from the first digit on: the code point, and how many bytes after that digit it takes. -/
def rawRegexParseOctalEscape (rest : List Byte) : Option (Nat × Nat) :=
  let (value, digits) := octalDigits 3 0 0 rest
  if digits = 0 then none
  else
    let (value, digits) := if value > 0xFF ∧ digits = 3 then (value >>> 3, digits - 1) else (value, digits)
    if value > 0xFF ∨ digits = 0 then none else some (value, digits - 1)

/-- The code point of an escape, and how many bytes it takes after its letter. -/
def plainEscape (escape : Byte) (after : List Byte) : Option (Nat × Nat) :=
  if escape = ch 'a' then some (0o7, 0)
  else if escape = ch 'b' then some (0x8, 0)
  else if escape = ch 'B' then some (0x5c, 0)
  else if escape = ch 'c' then after.head?.map fun c => ((c &&& 0o37).toNat, 1)
  else if escape = ch 'e' then some (0o33, 0)
  else if escape = ch 'f' then some (0xc, 0)
  else if escape = ch 'n' then some (0xa, 0)
  else if escape = ch 'r' then some (0xd, 0)
  else if escape = ch 't' then some (0x9, 0)
  else if escape = ch 'u' then rawRegexParseFixedHexEscape after 4
  else if escape = ch 'U' then rawRegexParseFixedHexEscape after 8
  else if escape = ch 'v' then some (0xb, 0)
  else if escape = ch 'x' then rawRegexParseVariableHexEscape after
  else if escape = ch '0' then rawRegexParseOctalEscape (escape :: after)
  else none

/-- `raw_regex_append_plain_escape`. -/
def rawRegexAppendPlainEscape (cap : Nat) (buf : List Byte) (escape : Byte) (after : List Byte) : Option (List Byte × Nat) :=
  (plainEscape escape after).bind fun (codepoint, n) => (rawRegexAppendCodepoint cap buf codepoint).map fun buf => (buf, n)

/-! ## Groups and brackets -/

/-- `raw_regex_supported_group_intro`: its length, and whether it is a lookaround. -/
def rawRegexSupportedGroupIntro (rest : List Byte) : Option (Nat × Bool) :=
  if rest[0]? = some openParen ∧ rest[1]? = some question then
    if rest[2]? = some colon then some (3, false)
    else if rest[2]? = some (ch '=') ∨ rest[2]? = some (ch '!') then some (3, true)
    else if rest[2]? = some (ch '<') ∧ (rest[3]? = some (ch '=') ∨ rest[3]? = some (ch '!')) then some (4, true)
    else none
  else none

/-- `raw_regex_class_start_is_unsupported`. -/
def rawRegexClassStartIsUnsupported (rest : List Byte) : Bool :=
  rest[1]? = some openBracket ∧ (rest[2]? = some (ch '.') ∨ rest[2]? = some (ch '=') ∨
    rest[2]? = some colon ∧ (rest[3]? = some (ch '<') ∨ rest[3]? = some (ch '>')) ∧ rest[4]? = some colon)

/-- `raw_regex_word_constraint`: its kind. -/
def rawRegexWordConstraint (rest : List Byte) : Option Byte :=
  if rest.take 3 = [openBracket, openBracket, colon] ∧ (rest.drop 4).take 3 = [colon, closeBracket, closeBracket] then
    if rest[3]? = some (ch '<') then some (ch '<') else if rest[3]? = some (ch '>') then some (ch '>') else none
  else none

/-! ## The loop -/

/-- `[[:alnum:]_]`. -/
def wordClass : List Byte :=
  [openBracket, openBracket, colon, ch 'a', ch 'l', ch 'n', ch 'u', ch 'm', colon, closeBracket, ch '_', closeBracket]

/-- What stands for the start of a word. -/
def wordStartText : List Byte :=
  [openParen, question, ch '<', ch '!'] ++ wordClass ++ [closeParen, openParen, question, ch '='] ++ wordClass ++ [closeParen]

/-- What stands for the end of a word. -/
def wordEndText : List Byte :=
  [openParen, question, ch '<', ch '='] ++ wordClass ++ [closeParen, openParen, question, ch '!'] ++ wordClass ++ [closeParen]

/-- `\z`. -/
def endText : List Byte := [backslash, ch 'z']

/-- The variables of the loop; the stack of groups has its top first. -/
structure RawRegexState where
  i : Nat
  buf : List Byte
  inClass : Bool
  classFirst : Bool
  classAfterLeadingCaret : Bool
  lastAtomWasConstraint : Bool
  groupLookaround : List Bool
  lookaroundDepth : Nat
  deriving DecidableEq, Repr

/-- The escapes of a class: the new output, and how many bytes are taken after the letter. -/
def rawRegexClassEscape (cap : Nat) (buf : List Byte) (e : Byte) (after : List Byte) : Option (List Byte × Nat) :=
  if e ∈ [ch 'd', ch 'D', ch 's', ch 'S', ch 'w', ch 'W'] then (pcre2RegexAppendBytes cap buf [backslash, e]).map fun buf => (buf, 0)
  else if e ∈ [ch 'a', ch 'b', ch 'B', ch 'c', ch 'e', ch 'f', ch 'n', ch 'r', ch 't', ch 'u', ch 'U', ch 'v', ch 'x', ch '0'] then
    rawRegexAppendPlainEscape cap buf e after
  else if rawRegexAsciiIsAlnum e then none
  else (rawRegexAppendCodepoint cap buf e.toNat).map fun buf => (buf, 0)

/-- The body of the loop in a class, at the text `rest`. -/
def rawRegexClassStep (cap : Nat) (rest : List Byte) (s : RawRegexState) : Option RawRegexState :=
  match rest with
  | [] => none
  | c :: after =>
    if c = backslash then
      match after with
      | [] => none
      | e :: after => (rawRegexClassEscape cap s.buf e after).map fun (buf, n) =>
          { s with i := s.i + 2 + n, buf := buf, classFirst := false }
    else if c = openBracket ∧ rawRegexClassStartIsUnsupported rest = true then none
    else
      (pcre2RegexAppendByte cap s.buf c).map fun buf =>
        if c = closeBracket ∧ s.classFirst = false then
          { s with
            i := s.i + 1, buf := buf, inClass := false, classFirst := false, classAfterLeadingCaret := false
            lastAtomWasConstraint := false }
        else if s.classFirst = true ∧ c = caret ∧ s.classAfterLeadingCaret = false then
          { s with i := s.i + 1, buf := buf, classAfterLeadingCaret := true }
        else { s with i := s.i + 1, buf := buf, classFirst := false }

/-- The escapes outside a class: the new output, how many bytes are taken after the letter, and whether it is a constraint. -/
def rawRegexAtomEscape (cap : Nat) (buf : List Byte) (e : Byte) (after : List Byte) (lookaroundDepth : Nat) :
    Option (List Byte × Nat × Bool) :=
  if e = ch 'A' then (pcre2RegexAppend cap buf [backslash, ch 'A']).map fun buf => (buf, 0, true)
  else if e = ch 'Z' then (pcre2RegexAppend cap buf endText).map fun buf => (buf, 0, true)
  else if e = ch 'y' then (pcre2RegexAppend cap buf [backslash, ch 'b']).map fun buf => (buf, 0, true)
  else if e = ch 'Y' then (pcre2RegexAppend cap buf [backslash, ch 'B']).map fun buf => (buf, 0, true)
  else if e = ch 'm' then (pcre2RegexAppend cap buf wordStartText).map fun buf => (buf, 0, true)
  else if e = ch 'M' then (pcre2RegexAppend cap buf wordEndText).map fun buf => (buf, 0, true)
  else if e ∈ [ch 'a', ch 'b', ch 'B', ch 'c', ch 'e', ch 'f', ch 'u', ch 'U', ch 'v', ch 'x', ch '0'] then
    (rawRegexAppendPlainEscape cap buf e after).map fun (buf, n) => (buf, n, false)
  else if e ∈ [ch 'd', ch 'D', ch 's', ch 'S', ch 'w', ch 'W', ch 'n', ch 'r', ch 't'] ∨ e ≥ ch '1' ∧ e ≤ ch '9' then
    if e ≥ ch '1' ∧ e ≤ ch '9' ∧ lookaroundDepth > 0 then none
    else if e ≥ ch '1' ∧ e ≤ ch '9' ∧ (after.head?.map rawRegexAsciiIsDigit).getD false = true then none
    else (pcre2RegexAppendBytes cap buf [backslash, e]).map fun buf => (buf, 0, false)
  else if rawRegexAsciiIsAlnum e then none
  else (pcre2RegexAppendBytes cap buf [backslash, e]).map fun buf => (buf, 0, false)

/-- A `(` outside a class. -/
def rawRegexOpenGroup (cap patlen : Nat) (rest : List Byte) (s : RawRegexState) : Option RawRegexState :=
  if s.groupLookaround.length ≥ patlen then none
  else if rest[1]? = some (ch '*') then none
  else if rest[1]? = some question then
    (rawRegexSupportedGroupIntro rest).bind fun (introLen, isLookaround) =>
      (pcre2RegexAppendBytes cap s.buf (rest.take introLen)).map fun buf =>
        { s with
          i := s.i + introLen, buf := buf, groupLookaround := isLookaround :: s.groupLookaround
          lookaroundDepth := if isLookaround then s.lookaroundDepth + 1 else s.lookaroundDepth, lastAtomWasConstraint := false }
  else
    (if s.lookaroundDepth > 0 then pcre2RegexAppend cap s.buf [openParen, question, colon]
      else pcre2RegexAppendByte cap s.buf openParen).map fun buf =>
        { s with
          i := s.i + 1, buf := buf, groupLookaround := false :: s.groupLookaround, lastAtomWasConstraint := false }

/-- A `)` outside a class. -/
def rawRegexCloseGroup (cap : Nat) (s : RawRegexState) : Option RawRegexState :=
  let closingLookaround := s.groupLookaround.head?.getD false
  (pcre2RegexAppendByte cap s.buf closeParen).map fun buf =>
    { s with
      i := s.i + 1, buf := buf, groupLookaround := s.groupLookaround.tail
      lookaroundDepth := if closingLookaround then s.lookaroundDepth - 1 else s.lookaroundDepth
      lastAtomWasConstraint := closingLookaround }

/-- The body of the loop outside a class, at the text `rest`. -/
def rawRegexAtomStep (cap patlen : Nat) (rest : List Byte) (s : RawRegexState) : Option RawRegexState :=
  match rest with
  | [] => none
  | c :: after =>
    if s.lastAtomWasConstraint = true ∧ rawRegexStartsQuantifier rest = true then none
    else if c = openBracket then
      match rawRegexWordConstraint rest with
      | some kind =>
        (pcre2RegexAppend cap s.buf (if kind = ch '<' then wordStartText else wordEndText)).map fun buf =>
          { s with i := s.i + 7, buf := buf, lastAtomWasConstraint := true }
      | none =>
        if rawRegexClassStartIsUnsupported rest = true then none
        else
          (pcre2RegexAppendByte cap s.buf c).map fun buf =>
            { s with
              i := s.i + 1, buf := buf, inClass := true, classFirst := true, classAfterLeadingCaret := false
              lastAtomWasConstraint := false }
    else if c = dollar then
      (pcre2RegexAppend cap s.buf endText).map fun buf => { s with i := s.i + 1, buf := buf, lastAtomWasConstraint := true }
    else if c = caret then
      (pcre2RegexAppendByte cap s.buf c).map fun buf => { s with i := s.i + 1, buf := buf, lastAtomWasConstraint := true }
    else if c = openBrace ∧ rawRegexBoundIsSupported rest = false then none
    else if c = backslash then
      match after with
      | [] => none
      | e :: after =>
        (rawRegexAtomEscape cap s.buf e after s.lookaroundDepth).map fun (buf, n, constraint) =>
          { s with i := s.i + 2 + n, buf := buf, lastAtomWasConstraint := constraint }
    else if c = openParen then rawRegexOpenGroup cap patlen rest s
    else if c = closeParen then rawRegexCloseGroup cap s
    else if (c = ch '*' ∨ c = ch '+' ∨ c = question ∨ c = closeBrace) ∧ after.head? = some (ch '+') then none
    else (pcre2RegexAppendByte cap s.buf c).map fun buf => { s with i := s.i + 1, buf := buf, lastAtomWasConstraint := false }

/-- The room in the buffer. -/
def rawRegexCap (patlen : Nat) : Nat := min (patlen * 32 + 1) pcre2MaxPatternBytes

/-- The body of the loop; `none` is the jump to `fallback`. -/
def rawRegexStep (pattern : List Byte) (s : RawRegexState) : Option RawRegexState :=
  let rest := pattern.drop s.i
  if s.inClass then rawRegexClassStep (rawRegexCap pattern.length) rest s
  else rawRegexAtomStep (rawRegexCap pattern.length) pattern.length rest s

/-- The variables before the loop. -/
def RawRegexState.start : RawRegexState := ⟨0, [], false, false, false, false, [], 0⟩

/-- The variables after so many iterations; the loop ends at the end of the text. -/
def rawRegexLoop (pattern : List Byte) : Nat → Option RawRegexState
  | 0 => some .start
  | n + 1 => (rawRegexLoop pattern n).bind fun s => if s.i < pattern.length then rawRegexStep pattern s else some s

/-- `raw_regex_to_pcre2`; `alloc` says which allocations succeed. Every iteration moves on, so there are no more of them than bytes. -/
def rawRegexToPcre2 (alloc : Nat → Bool) (pattern : List Byte) : Option (List Byte) :=
  if pattern.length > pcre2MaxPatternBytes then none
  else if alloc (rawRegexCap pattern.length + 1) = false then none
  else if alloc (if pattern.length > 0 then pattern.length else 1) = false then none
  else
    (rawRegexLoop pattern pattern.length).bind fun s =>
      if s.inClass = true ∨ s.buf.length > pcre2MaxPatternBytes then none else some s.buf

/-! ## Bracket expressions -/

/-- The length of the character class that the text starts with, inside a bracket expression: `[:`, a name and `:]`. -/
def classElementLength (rest : List Byte) : Option Nat :=
  let name := (rest.drop 2).takeWhile rawRegexAsciiIsAlnum
  if rest.take 2 = [openBracket, colon] ∧ (rest.drop (2 + name.length)).take 2 = [colon, closeBracket] then
    some (name.length + 4)
  else none

/-- The length of the escape that the text starts with. -/
def escapeLength (rest : List Byte) : Nat :=
  2 + (((rest.drop 1).head?.bind fun e => plainEscape e (rest.drop 2)).map Prod.snd).getD 0

/-- Where an item of the text stands: outside the bracket expressions, first in one (after its `^` or not), at a later item of one
(after a character class of it or not), or at one of the bytes of a character class that are left. -/
inductive BracketMode where
  | outside
  | first (afterCaret : Bool)
  | inside (afterClass : Bool)
  | element (left : Nat)
  deriving DecidableEq, Repr

/-- The rules of POSIX: how long the item is that the text starts with, and where the next one stands. Of what starts with two
brackets, character classes and word constraints are known; collating elements (`[.`) and equivalence classes (`[=`) are not. -/
def BracketMode.next (mode : BracketMode) (rest : List Byte) : Nat × BracketMode :=
  match mode with
  | outside =>
    if rest.head? = some openBracket then if (rawRegexWordConstraint rest).isSome then (7, outside) else (1, first false)
    else if rest.head? = some backslash then (escapeLength rest, outside)
    else if rest.head? = some openParen then (((rawRegexSupportedGroupIntro rest).map Prod.fst).getD 1, outside)
    else (1, outside)
  | first afterCaret =>
    if rest.head? = some caret ∧ afterCaret = false then (1, first true)
    else if rest.head? = some backslash then (escapeLength rest, inside false)
    else
      match classElementLength rest with
      | some length => (1, element (length - 1))
      | none => (1, inside false)
  | inside afterClass =>
    if rest.head? = some closeBracket then (1, outside)
    else if rest.head? = some backslash then (escapeLength rest, inside afterClass)
    else
      match classElementLength rest with
      | some length => (1, element (length - 1))
      | none => (1, inside afterClass)
  | element left => (1, if left ≤ 1 then inside true else element (left - 1))

/-- The position and the place of the item after so many. -/
def posixScan (pattern : List Byte) : Nat → Nat × BracketMode
  | 0 => (0, .outside)
  | n + 1 =>
    let (i, mode) := posixScan pattern n
    if i < pattern.length then
      let (length, mode') := mode.next (pattern.drop i)
      (i + length, mode')
    else (i, mode)

/-- The bytes from `i` up to `j`. -/
def slice (pattern : List Byte) (i j : Nat) : List Byte := (pattern.drop i).take (j - i)

/-- A complete bracket expression from `i` up to `j`; a word constraint is none. -/
def BracketExpr (pattern : List Byte) (i j : Nat) : Prop :=
  ∃ n k, 0 < k ∧ posixScan pattern n = (i, .outside) ∧ (posixScan pattern (n + 1)).2 = .first false ∧
    posixScan pattern (n + k) = (j, .outside) ∧ ∀ l, 0 < l → l < k → (posixScan pattern (n + l)).2 ≠ .outside

/-- A `$` outside the bracket expressions and escapes. -/
def DollarOutside (pattern : List Byte) (i : Nat) : Prop :=
  pattern[i]? = some dollar ∧ ∃ n, posixScan pattern n = (i, .outside)

/-! ## What the translation keeps -/

/-- The loop comes to the position `i` with the output `o`. -/
def Writes (pattern : List Byte) (i : Nat) (o : List Byte) : Prop :=
  ∃ n s, rawRegexLoop pattern n = some s ∧ s.i = i ∧ s.buf = o

/-- The bracket expressions without a backslash are copied, no byte in one is read as an anchor or a group, and every `$` outside is
rewritten; `out` is the output. -/
structure BracketsKept (pattern out : List Byte) : Prop where
  copied : ∀ i j, BracketExpr pattern i j → backslash ∉ slice pattern i j →
    ∃ o, Writes pattern i o ∧ Writes pattern j (o ++ slice pattern i j) ∧ o ++ slice pattern i j <+: out
  quiet : ∀ i j, BracketExpr pattern i j → backslash ∉ slice pattern i j →
    ∀ n s, rawRegexLoop pattern n = some s → i < s.i → s.i < j → s.inClass = false →
      pattern[s.i]? ≠ some dollar ∧ pattern[s.i]? ≠ some openParen
  dollars : ∀ i, DollarOutside pattern i →
    ∃ o, Writes pattern i o ∧ Writes pattern (i + 1) (o ++ endText) ∧ o ++ endText <+: out

/-- What follows a character class in its bracket expression: no `$`, no `(`, and no `[` but that of another class. -/
def TailPlain (rest : List Byte) : Prop :=
  rest.head? ≠ some dollar ∧ rest.head? ≠ some openParen ∧
    (rest.head? = some openBracket → (classElementLength rest).isSome = true)

instance (rest : List Byte) : Decidable (TailPlain rest) := inferInstanceAs (Decidable (_ ∧ _ ∧ (_ → _)))

/-- Every complete bracket expression goes on plainly after its first character class. -/
def ClassTailsPlain (pattern : List Byte) : Prop :=
  ∀ n n', n < n' → (posixScan pattern n).2 = .inside true → (posixScan pattern n').2 = .outside →
    TailPlain (pattern.drop (posixScan pattern n).1)

/-- The item is a `$` or a `(` after a character class, in a complete bracket expression without a backslash, and every bracket
expression goes on plainly up to it. -/
structure FirstTrigger (pattern : List Byte) (n : Nat) : Prop where
  mode : (posixScan pattern n).2 = .inside true
  trigger : pattern[(posixScan pattern n).1]? = some dollar ∨ pattern[(posixScan pattern n).1]? = some openParen
  before : ∀ m < n, (posixScan pattern m).2 = .inside true → TailPlain (pattern.drop (posixScan pattern m).1)
  bracket : ∃ i j, BracketExpr pattern i j ∧ backslash ∉ slice pattern i j ∧ i < (posixScan pattern n).1 ∧
    (posixScan pattern n).1 < j

end PgJitter
