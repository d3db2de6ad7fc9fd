import PgJitter.Lib.Glob

/-!
# Compiled LIKE patterns

`simd_like_compile` and `simd_like_match_compiled` (`src/pg_jitter_simd.c`), and the language of an SQL LIKE pattern they are
meant to decide. The compiler decodes the pattern, strips an unescaped `%` at either end, cuts the rest at the inner `%` into
segments of fixed width, and stores the literal runs (pieces) of each segment at their offsets. The matcher checks the first
segment at the start of the subject, the last one at its end, and searches the segments between from left to right.
-/

namespace PgJitter

/-- A byte of a pattern or a subject. -/
abbrev Byte := UInt8

/-- The database encoding, as far as the LIKE compiler asks: `pg_database_encoding_max_length()` and whether
`GetDatabaseEncoding()` is `PG_UTF8`. -/
structure DatabaseEncoding where
  maxLength : Nat
  isUtf8 : Bool
  deriving DecidableEq, Repr

/-- The classes `PC_LITERAL`, `PC_PERCENT` and `PC_UNDERSCORE` of a decoded pattern character. -/
inductive PatKind where
  | literal
  | percent
  | underscore
  deriving DecidableEq, Repr

/-- A decoded pattern character: an entry of the `kinds` and `chars` arrays. -/
structure PatChar where
  kind : PatKind
  ch : Byte
  deriving DecidableEq, Repr

/-- The escape character of a LIKE pattern. -/
def backslash : Byte := 0x5c

/-- The wildcard for any byte string. -/
def percentSign : Byte := 0x25

/-- The wildcard for one byte. -/
def underscoreSign : Byte := 0x5f

/-- The language of an SQL LIKE pattern: an unescaped `%` stands for any byte string, an unescaped `_` for one byte, every other
or escaped byte for itself. -/
inductive SqlLike : List Byte → List Byte → Prop where
  | done : SqlLike [] []
  | escaped {p s : List Byte} (b : Byte) : SqlLike p s → SqlLike (backslash :: b :: p) (b :: s)
  | percent {p s₂ : List Byte} (s₁ : List Byte) : SqlLike p s₂ → SqlLike (percentSign :: p) (s₁ ++ s₂)
  | underscore {p s : List Byte} (b : Byte) : SqlLike p s → SqlLike (underscoreSign :: p) (b :: s)
  | literal {p s : List Byte} (b : Byte) (hb : b ≠ backslash ∧ b ≠ percentSign ∧ b ≠ underscoreSign) :
      SqlLike p s → SqlLike (b :: p) (b :: s)

/-! ## The compiler -/

/-- The class of an unescaped byte. -/
def patCharOf (b : Byte) : PatChar :=
  if b = percentSign then ⟨.percent, b⟩ else if b = underscoreSign then ⟨.underscore, b⟩ else ⟨.literal, b⟩

/-- The decoding loop; `none` is the NULL returned for an escape at the end of the pattern. -/
def decodePattern : List Byte → Option (List PatChar)
  | [] => some []
  | [b] => if b = backslash then none else some [patCharOf b]
  | b :: c :: rest =>
    if b = backslash then (decodePattern rest).map (⟨.literal, c⟩ :: ·)
    else (decodePattern (c :: rest)).map (patCharOf b :: ·)

/-- A run of literal bytes of a segment, at a fixed offset from the segment's start. -/
structure SzPiece where
  offset : Nat
  data : List Byte
  deriving DecidableEq, Repr

/-- A stretch of the pattern without `%`: its width, its pieces, and the index of the longest one. -/
structure SzSegment where
  width : Nat
  pieces : List SzPiece
  longestIdx : Nat
  deriving DecidableEq, Repr

/-- A compiled pattern. -/
structure SzLikeCompiled where
  minLen : Nat
  anchoredStart : Bool
  anchoredEnd : Bool
  segments : List SzSegment
  deriving DecidableEq, Repr

/-- What `simd_like_compile` returns: NULL, the sentinel `SIMD_LIKE_USE_V1`, or a compiled object. -/
inductive LikeCompileResult where
  | null
  | useV1
  | compiled (c : SzLikeCompiled)
  deriving DecidableEq, Repr

/-- `SZ_LIKE_MAX_SEGMENTS`. -/
def szLikeMaxSegments : Nat := 16

/-- `SZ_LIKE_MAX_PIECES`. -/
def szLikeMaxPieces : Nat := 8

/-- `MaxAllocSize`: the largest size `palloc` takes. -/
def maxAllocSize : Nat := 0x3fffffff

/-- `sizeof(SzLikeCompiled)`: an 8-byte head and sixteen segments of 136 bytes. -/
def sizeofSzLikeCompiled : Nat := 2184

/-- Strip a leading unescaped `%`: `anchored_start` and the characters from `start` on. -/
def stripLeading : List PatChar → Bool × List PatChar
  | [] => (true, [])
  | c :: cs => if c.kind = .percent then (false, cs) else (true, c :: cs)

/-- Strip a trailing unescaped `%`: `anchored_end` and the characters before `end`. -/
def stripTrailing (cs : List PatChar) : Bool × List PatChar :=
  match cs.getLast? with
  | none => (true, cs)
  | some c => if c.kind = .percent then (false, cs.dropLast) else (true, cs)

/-- The segment loop: cut at every `%`, and keep the stretches that are not empty; `cur` is the stretch from `seg_start` on. -/
def cutSegments (cur : List PatChar) : List PatChar → List (List PatChar)
  | [] => if cur = [] then [] else [cur]
  | c :: cs =>
    if c.kind = .percent then (if cur = [] then cutSegments [] cs else cur :: cutSegments [] cs)
    else cutSegments (cur ++ [c]) cs

/-- The piece loop over a segment from index `j` on: `piece` is the literal run that started at `piece_start`, if one did. -/
def extractPieces (j : Nat) (piece : Option SzPiece) : List PatChar → List SzPiece
  | [] => piece.toList
  | c :: cs =>
    if c.kind = .underscore then piece.toList ++ extractPieces (j + 1) none cs
    else match piece with
      | none => extractPieces (j + 1) (some ⟨j, [c.ch]⟩) cs
      | some p => extractPieces (j + 1) (some ⟨p.offset, p.data ++ [c.ch]⟩) cs

/-- The index of the first longest piece: `idx` is the number of the next piece, `best` and `longestLen` the choice so far. -/
def longestPiece (idx best longestLen : Nat) : List SzPiece → Nat
  | [] => best
  | p :: ps =>
    if p.data.length > longestLen then longestPiece (idx + 1) idx p.data.length ps
    else longestPiece (idx + 1) best longestLen ps

/-- The second pass for one segment; `none` is the NULL returned for more than `SZ_LIKE_MAX_PIECES` pieces. -/
def buildSegment (cs : List PatChar) : Option SzSegment :=
  let pieces := extractPieces 0 none cs
  if pieces.length > szLikeMaxPieces then none
  else some ⟨cs.length, pieces, longestPiece 0 0 0 pieces⟩

/-- `num_floating`: the segments that are anchored at neither end. -/
def numFloating (anchoredStart anchoredEnd : Bool) (numSegments : Nat) : Nat :=
  let atStart := if anchoredStart then 1 else 0
  let anchoredCount := if anchoredEnd ∧ numSegments > atStart then atStart + 1 else atStart
  numSegments - anchoredCount

/-- `simd_like_compile`. -/
def simdLikeCompile (enc : DatabaseEncoding) (pattern : List Byte) : LikeCompileResult :=
  if enc.maxLength ≠ 1 ∧ enc.isUtf8 = false then .null
  else match decodePattern pattern with
    | none => .null
    | some kinds =>
      let (anchoredStart, tail) := stripLeading kinds
      let (anchoredEnd, body) := stripTrailing tail
      let segs := cutSegments [] body
      let totalLiteral := (segs.flatten.filter (fun c => c.kind = .literal)).length
      let hasUnderscore := segs.flatten.any (fun c => c.kind = .underscore)
      if segs.length > szLikeMaxSegments then .null
      -- "_" advances by one byte, so a multibyte encoding is left to the other matchers
      else if hasUnderscore ∧ enc.maxLength ≠ 1 then .null
      else if segs.length = 0 then
        let matchAll := decide (kinds.length > 0)
        .compiled ⟨0, !matchAll, !matchAll, []⟩
      else if totalLiteral > maxAllocSize - sizeofSzLikeCompiled then .null
      else
        if numFloating anchoredStart anchoredEnd segs.length > 0 ∧ segs.length = 1 ∧ hasUnderscore = false then
          (if totalLiteral < 5 then .useV1 else .null)
        else match segs.mapM buildSegment with
          | none => .null
          | some segments => .compiled ⟨(segs.map List.length).sum, anchoredStart, anchoredEnd, segments⟩

/-! ## The matcher -/

/-- The inline byte comparison of a piece, for a segment placed at `pos`. -/
def SzPiece.matchesAt (pc : SzPiece) (data : List Byte) (pos : Nat) : Bool :=
  pc.data.isPrefixOf (data.drop (pos + pc.offset))

/-- All pieces of a segment placed at `pos`. -/
def SzSegment.piecesOk (seg : SzSegment) (data : List Byte) (pos : Nat) : Bool :=
  seg.pieces.all (fun pc => pc.matchesAt data pos)

/-- The pieces other than the search anchor, of a segment placed at `pos`. -/
def SzSegment.otherPiecesOk (seg : SzSegment) (data : List Byte) (pos : Nat) : Bool :=
  (seg.pieces.eraseIdx seg.longestIdx).all (fun pc => pc.matchesAt data pos)

/-- `memchr`: the first of the `n` bytes from `scan` on that is `b`. -/
def memchr (data : List Byte) (b : Byte) : (scan n : Nat) → Option Nat
  | _, 0 => none
  | scan, n + 1 => if data[scan]? = some b then some scan else memchr data b (scan + 1) n

/-- The search loop of a floating segment with the given anchor piece, `n` bytes from `scan` on being left to search: the first
place where the anchor's first byte, then the anchor, then the other pieces are found. `fuel` bounds the number of hits. -/
def searchSegment (data : List Byte) (seg : SzSegment) (anchor : SzPiece) : (fuel scan n : Nat) → Option Nat
  | 0, _, _ => none
  | fuel + 1, scan, n =>
    match anchor.data with
    | [] => none
    | b :: _ =>
      match memchr data b scan n with
      | none => none
      | some hit =>
        let segPos := hit - anchor.offset
        if anchor.matchesAt data segPos ∧ seg.otherPiecesOk data segPos then some segPos
        else searchSegment data seg anchor fuel (hit + 1) (scan + n - (hit + 1))

/-- The loop over the floating segments, from position `pos` with `remaining` bytes left: the position reached, or `none` when a
segment is not found. -/
def matchFloating (data : List Byte) : List SzSegment → (pos remaining : Nat) → Option Nat
  | [], pos, _ => some pos
  | seg :: segs, pos, remaining =>
    if remaining < seg.width then none
    else match seg.pieces with
      -- all underscores: no piece to search
      | [] => matchFloating data segs (pos + seg.width) (remaining - seg.width)
      | first :: _ =>
        let anchor := seg.pieces.getD seg.longestIdx first
        let maxPos := pos + remaining - seg.width
        match searchSegment data seg anchor (maxPos + 1 - pos) (pos + anchor.offset) (maxPos + 1 - pos) with
        | none => none
        | some segPos =>
          let pos' := segPos + seg.width
          matchFloating data segs pos' (data.length - pos')

/-- The matcher after the anchored start, from `pos` with `remaining` bytes left and the segments not yet matched. -/
def matchAfterStart (c : SzLikeCompiled) (data : List Byte) (pos remaining : Nat) (segs : List SzSegment) : Bool :=
  match c.anchoredEnd, segs.getLast? with
  | true, some seg =>
    if remaining < seg.width then false
    else
      let endPos := data.length - seg.width
      if endPos < pos then false
      else if seg.piecesOk data endPos = false then false
      else (matchFloating data segs.dropLast pos (remaining - seg.width)).isSome
  | anchoredEnd, _ =>
    match matchFloating data segs pos remaining with
    | none => false
    -- the end segment was not handled separately: the length must be exact
    | some pos' => !(anchoredEnd && pos' != data.length)

/-- `simd_like_match_compiled` on the subject's bytes: whether it returns 1. -/
def simdLikeMatchCompiled (c : SzLikeCompiled) (data : List Byte) : Bool :=
  if data.length < c.minLen then false
  else match c.segments with
    | [] => (!c.anchoredStart && !c.anchoredEnd) || data.length == 0
    | seg :: segs =>
      if c.anchoredStart then
        if data.length < seg.width then false
        else if seg.piecesOk data 0 = false then false
        else matchAfterStart c data seg.width (data.length - seg.width) segs
      else matchAfterStart c data 0 data.length (seg :: segs)

end PgJitter
