import PgJitter.Expr
import PgJitter.Lib.Assembly
import PgJitter.Lib.ByteMemory
import PgJitter.Like

/-!
# Simple LIKE patterns

A pattern that is a literal with at most a `%` before it and one after it is told apart by `simd_like_classify` and matched by
`simd_like_match_text` (`src/pg_jitter_simd.c`); for a short literal before a `%`, `sljit_compile_expr` (`src/pg_jitter_sljit.c`)
emits the test itself. The bytes are little-endian.
-/

namespace PgJitter

open Assembly

/-! ## Text values -/

/-- The memory as the bytes at its addresses, and the address at which `pg_detoast_datum_packed` puts what a compressed or an
external value stands for. -/
structure TextMemory where
  byte : Datum → Byte
  detoast : Datum → Datum

namespace TextMemory

variable (m : TextMemory)

/-- The `n` bytes from an address on. -/
def bytes (p : Datum) (n : Nat) : List Byte := (List.range n).map fun i => m.byte (p + BitVec.ofNat 64 i)

/-- The unsigned number in `n` bytes. -/
def leNat (p : Datum) (n : Nat) : Nat := ByteMemory.leNat ((m.bytes p n).map UInt8.toBitVec)

/-- `VARATT_IS_1B`. -/
def varattIs1B (p : Datum) : Bool := (m.byte p).toNat &&& 0x01 == 0x01

/-- `VARATT_IS_1B_E`. -/
def varattIs1BE (p : Datum) : Bool := (m.byte p).toNat == 0x01

/-- `VARATT_IS_4B_C`. -/
def varattIs4BC (p : Datum) : Bool := (m.byte p).toNat &&& 0x03 == 0x02

/-- `DatumGetTextPP`. -/
def datumGetTextPP (p : Datum) : Datum := if m.varattIs4BC p || m.varattIs1BE p then m.detoast p else p

/-- `VARDATA_ANY`. -/
def vardataAny (p : Datum) : Datum := if m.varattIs1B p then p + 1 else p + 4

/-- `VARSIZE_ANY_EXHDR` of a value that is not external. -/
def varsizeAnyExhdr (p : Datum) : Nat :=
  if m.varattIs1B p then (m.byte p).toNat >>> 1 - 1 else (m.leNat p 4 >>> 2 &&& 0x3fffffff) - 4

end TextMemory

/-! ## The helpers -/

/-- `LIKE_MATCH_EXACT`, `LIKE_MATCH_PREFIX`, `LIKE_MATCH_SUFFIX` and `LIKE_MATCH_INTERIOR`. -/
inductive LikeMatchType where
  | exactMatch
  | prefixMatch
  | suffixMatch
  | interiorMatch
  deriving DecidableEq, Repr

/-- What is used of StringZilla: whether two strings of one length are equal, and where a string that is not empty is found in
another. -/
structure StringZilla where
  equal : List Byte → List Byte → Bool
  find : List Byte → List Byte → Option Nat
  equal_iff : ∀ a b, a.length = b.length → (equal a b = true ↔ a = b)
  find_isSome : ∀ haystack needle, needle ≠ [] → ((find haystack needle).isSome ↔ needle <:+: haystack)

/-- The search for a string at one place after the other. -/
def findNaive (haystack needle : List Byte) : Option Nat :=
  (List.range (haystack.length + 1)).find? fun i => needle.isPrefixOf (haystack.drop i)

/-- The library without its speed. -/
def StringZilla.naive : StringZilla where
  equal a b := a == b
  find := findNaive
  equal_iff a b _ := beq_iff_eq
  find_isSome haystack needle _ := by
    simp only [findNaive, List.find?_isSome, List.mem_range, List.isPrefixOf_iff_prefix]
    constructor
    · rintro ⟨i, _, hpre⟩
      exact hpre.isInfix.trans (List.drop_suffix i haystack).isInfix
    · rintro ⟨s, t, rfl⟩
      refine ⟨s.length, by rw [List.length_append, List.length_append]; omega, ?_⟩
      rw [List.append_assoc, List.drop_left]
      exact List.prefix_append needle t

/-- `simd_like_match_text`. -/
def simdLikeMatchText (sz : StringZilla) (m : TextMemory) (datum : Datum) (pat : List Byte) (ty : LikeMatchType) : Nat :=
  let t := m.datumGetTextPP datum
  let data := m.bytes (m.vardataAny t) (m.varsizeAnyExhdr t)
  let result := match ty with
    | .exactMatch => data.length = pat.length && sz.equal data pat
    | .prefixMatch => data.length ≥ pat.length && data.take pat.length == pat
    | .suffixMatch => data.length ≥ pat.length && data.drop (data.length - pat.length) == pat
    | .interiorMatch => (sz.find data pat).isSome
  if result then 1 else 0

/-- `simd_like_classify`: the type and the literal, which is `none` for NULL; `none` for -1. -/
def simdLikeClassify (enc : DatabaseEncoding) (pattern : List Byte) : Option (LikeMatchType × Option (List Byte)) :=
  if enc.maxLength ≠ 1 ∧ enc.isUtf8 = false then none
  else
    let hasLeadingPct := pattern.head? = some percentSign
    let start := if hasLeadingPct then 1 else 0
    let hasTrailingPct := pattern.length > start ∧ pattern[pattern.length - 1]? = some percentSign
    let stop := if hasTrailingPct then pattern.length - 1 else pattern.length
    let literal := (pattern.drop start).take (stop - start)
    if literal.any fun b => b = percentSign ∨ b = underscoreSign ∨ b = backslash then none
    else if literal.length = 0 ∧ (hasLeadingPct ∨ hasTrailingPct) then some (.exactMatch, none)
    else if ¬hasLeadingPct ∧ ¬hasTrailingPct then some (.exactMatch, some literal)
    else if ¬hasLeadingPct ∧ hasTrailingPct then some (.prefixMatch, some literal)
    else if hasLeadingPct ∧ ¬hasTrailingPct then some (.suffixMatch, some literal)
    else some (.interiorMatch, some literal)

/-! ## The inline test -/

/-- The instructions of the inline test, some of them two machine instructions long. -/
inductive LikeInstr where
  /-- The first argument into `R0`. -/
  | loadArg
  /-- `SLJIT_MOV_U8` of the byte at `R0` into `R1`. -/
  | loadHeader
  /-- A jump when no bit of the mask is set in `R1`. -/
  | jumpIfClear (mask : Datum)
  | cmpEqual (imm : Datum)
  | cmpLess (imm : Datum)
  | shiftRight (n : Nat)
  | sub (imm : Datum)
  /-- `SLJIT_MOV` of the eight bytes at `R0 + 1` into `R1`. -/
  | loadPayload
  | and (imm : Datum)
  | movR0 (imm : Datum)
  | jump
  /-- The call of `simd_like_match_text` with `R0` and the literal. -/
  | callMatchText (literal : List Byte) (ty : LikeMatchType)
  | xorR0 (imm : Datum)
  /-- The result into `resvalue`, and false into `resnull`. -/
  | storeRes

/-- The registers, and the location of the result. -/
structure LikeState where
  r0 : Datum
  r1 : Datum
  res : NullableDatum

/-- A conditional jump. -/
def likeJumpIf (c : Bool) (s : LikeState) : Outcome LikeState := if c then .jump s else .next s

/-- An instruction, with the first argument of the call. -/
def LikeInstr.exec (sz : StringZilla) (m : TextMemory) (arg0 : Datum) (i : LikeInstr) (s : LikeState) : Outcome LikeState :=
  match i with
  | loadArg => .next { s with r0 := arg0 }
  | loadHeader => .next { s with r1 := BitVec.ofNat 64 (m.byte s.r0).toNat }
  | jumpIfClear mask => likeJumpIf (s.r1 &&& mask == 0) s
  | cmpEqual imm => likeJumpIf (s.r1 == imm) s
  | cmpLess imm => likeJumpIf (s.r1.ult imm) s
  | shiftRight n => .next { s with r1 := s.r1 >>> n }
  | sub imm => .next { s with r1 := s.r1 - imm }
  | loadPayload => .next { s with r1 := BitVec.ofNat 64 (m.leNat (s.r0 + 1) 8) }
  | and imm => .next { s with r1 := s.r1 &&& imm }
  | movR0 imm => .next { s with r0 := imm }
  | jump => .jump s
  | callMatchText literal ty => .next { s with r0 := BitVec.ofNat 64 (simdLikeMatchText sz m s.r0 literal ty) }
  | xorR0 imm => .next { s with r0 := s.r0 ^^^ imm }
  | storeRes => .next { s with res := ⟨s.r0, false⟩ }

/-- The literal as an immediate: its bytes, and zeros after them. -/
def patImm (literal : List Byte) : Datum := BitVec.ofNat 64 (ByteMemory.leNat (literal.map UInt8.toBitVec))

/-- The mask of the bytes that the literal has. -/
def likeMask (literalLen : Nat) : Datum := 1 <<< (literalLen * 8) - 1

/-- The inline test of a prefix; the bytes after the literal are masked out of a word that is longer than it. -/
def emitPrefixTest (literal : List Byte) (masked negate : Bool) : Program LikeInstr :=
  let P := Program.empty.emit [.loadArg, .loadHeader]
  let slow1 := P.here
  let P := P.emit [.jumpIfClear 0x01]
  let slow2 := P.here
  let P := P.emit [.cmpEqual 0x01]
  let P := P.emit [.shiftRight 1, .sub 1]
  let tooShort := P.here
  let P := P.emit [.cmpLess (BitVec.ofNat 64 literal.length)]
  let shortPayload := P.here
  let P := P.emit [.cmpLess 8]
  let P := P.emit [.loadPayload]
  let P := if masked then P.emit [.and (likeMask literal.length)] else P
  let patImm := if masked then patImm literal &&& likeMask literal.length else patImm literal
  let match1 := P.here
  let P := P.emit [.cmpEqual patImm]
  -- no match
  let P := P.setLabel tooShort P.here
  let P := P.emit [.movR0 (if negate then 1 else 0)]
  let store1 := P.here
  let P := P.emit [.jump]
  -- match
  let P := P.setLabel match1 P.here
  let P := P.emit [.movR0 (if negate then 0 else 1)]
  let store2 := P.here
  let P := P.emit [.jump]
  -- slow path
  let P := P.setLabels [slow1, slow2, shortPayload] P.here
  let P := P.emit [.loadArg, .callMatchText literal .prefixMatch]
  let P := if negate then P.emit [.xorR0 1] else P
  let P := P.setLabels [store1, store2] P.here
  P.emit [.storeRes]

/-- The inline test that `sljit_compile_expr` emits for a prefix of one to eight bytes. -/
def emitInlinePrefix (literal : List Byte) (negate : Bool) : Program LikeInstr :=
  emitPrefixTest literal (literal.length < 8) negate

/-! ## What a value holds -/

/-- A text with a short or a long header. -/
inductive TextMemory.IsPlain (m : TextMemory) (p : Datum) (data : List Byte) : Prop
  | short (hlen : data.length ≤ 126) (header : (m.byte p).toNat = 2 * (data.length + 1) + 1)
      (payload : m.bytes (p + 1) data.length = data)
  | long (hlen : data.length + 4 < 2 ^ 30) (header : m.leNat p 4 = 4 * (data.length + 4))
      (payload : m.bytes (p + 4) data.length = data)

/-- The text at an address: plain, or toasted and plain where the detoasting puts it. -/
inductive TextMemory.Holds (m : TextMemory) (p : Datum) (data : List Byte) : Prop
  | plain (h : m.IsPlain p data)
  | toasted (ht : (m.varattIs4BC p || m.varattIs1BE p) = true) (h : m.IsPlain (m.detoast p) data)

/-- What the inline test leaves: the answer, the other way for NOT LIKE. -/
def likeAnswer (negate matched : Bool) : NullableDatum := ⟨boolGetDatum (negate ^^ matched), false⟩

end PgJitter
