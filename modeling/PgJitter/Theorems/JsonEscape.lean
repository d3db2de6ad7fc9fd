import PgJitter.Lemmas.JsonString
import PgJitter.Lib.Utf8

/-!
# The `\u` escapes of JSON strings, read and written as UTF-8

An escape of a scalar value other than zero is read as that value, behind which the cursor then is, and the value is appended in UTF-8.
Whatever else stands behind `\u` is refused where it is.
-/

namespace PgJitter

open JsonGrammar JsonStringAux

namespace JsonEscapeAux

/-! ## Appending -/

section Append

variable {o : PgTextOptions} {r r' : PgReader} {buf buf' : KeyBuf}

/-- A byte that is appended stands at the end. -/
theorem appendByte_bytes {c : Byte} (h : appendByte o r buf c = (true, r', buf')) : buf'.bytes = buf.bytes ++ [c] := by
  unfold appendByte at h
  split at h
  · cases h
  · split at h
    · split at h <;> cases h
      rfl
    · cases h
      rfl

/-- A byte is appended when memory can be had. -/
theorem appendByte_ok (halloc : ∀ n, o.allocOk n = true) (hfit : buf.bytes.length < usizeMax) (c : Byte) :
    ∃ r' buf', appendByte o r buf c = (true, r', buf') := by
  unfold appendByte PgReader.realloc PgReader.malloc
  rw [if_neg (Nat.ne_of_lt hfit), if_pos (halloc _)]
  split <;> exact ⟨_, _, rfl⟩

/-- All bytes of a chain of calls are appended, when the last of them is. -/
theorem appendBytes_bytes {bytes : List Byte} (h : appendBytes o r buf bytes = (true, r', buf')) : buf'.bytes = buf.bytes ++ bytes := by
  induction bytes generalizing r buf with
  | nil =>
    cases h
    exact (List.append_nil _).symm
  | cons c bytes ih =>
    rw [appendBytes] at h
    split at h
    · cases h
    · next r₁ buf₁ hbyte =>
      rw [ih h, appendByte_bytes hbyte, List.append_assoc, List.singleton_append]

/-- The calls of a chain all succeed when memory can be had. -/
theorem appendBytes_ok (halloc : ∀ n, o.allocOk n = true) {bytes : List Byte} (hfit : buf.bytes.length + bytes.length ≤ usizeMax) :
    ∃ r' buf', appendBytes o r buf bytes = (true, r', buf') := by
  induction bytes generalizing r buf with
  | nil => exact ⟨r, buf, rfl⟩
  | cons c bytes ih =>
    rw [List.length_cons] at hfit
    obtain ⟨r₁, buf₁, hbyte⟩ := appendByte_ok (r := r) halloc (show buf.bytes.length < usizeMax by omega) c
    have hlen : buf₁.bytes.length = buf.bytes.length + 1 := by
      rw [appendByte_bytes hbyte, List.length_append, List.length_singleton]
    obtain ⟨r₂, buf₂, hbytes⟩ := ih (r := r₁) (show buf₁.bytes.length + bytes.length ≤ usizeMax by omega)
    refine ⟨r₂, buf₂, ?_⟩
    rw [appendBytes, hbyte]
    exact hbytes

end Append

/-! ## The values that have an escape -/

/-- The sixteen digits, with small letters. -/
def hexDigits : List Byte := [0x30, 0x31, 0x32, 0x33, 0x34, 0x35, 0x36, 0x37, 0x38, 0x39, 0x61, 0x62, 0x63, 0x64, 0x65, 0x66]

/-- Each of sixteen values has a digit. -/
theorem exists_hex {v : Nat} (hv : v < 16) : ∃ c, Hex c v := by
  have hdigits : ∀ w < 16, ∃ c ∈ hexDigits, jsonHexVal c = some w := by decide
  obtain ⟨c, -, hc⟩ := hdigits v hv
  exact ⟨c, JsonScanAux.jsonHexVal_eq_some.1 hc⟩

/-- Each value of sixteen bits has four digits. -/
theorem exists_hex4 {u : Nat} (hu : u < 0x10000) (t : List Byte) : ∃ s, Hex4 s u t := by
  obtain ⟨a, ha⟩ := exists_hex (show u / 0x1000 < 16 by omega)
  obtain ⟨b, hb⟩ := exists_hex (show u / 0x100 % 0x10 < 16 by omega)
  obtain ⟨c, hc⟩ := exists_hex (show u / 0x10 % 0x10 < 16 by omega)
  obtain ⟨d, hd⟩ := exists_hex (show u % 0x10 < 16 by omega)
  have h := Hex4.mk (t := t) ha hb hc hd
  rw [show ((u / 0x1000 * 16 + u / 0x100 % 0x10) * 16 + u / 0x10 % 0x10) * 16 + u % 0x10 = u by omega] at h
  exact ⟨_, h⟩

/-- The scalar values are those that have an escape. -/
theorem isScalar_iff_escape (u : Nat) : IsScalar u ↔ ∃ s t, ScalarEscape s u t := by
  constructor
  · intro hu
    unfold IsScalar at hu
    rcases Nat.lt_or_ge u 0x10000 with hsmall | hlarge
    · obtain ⟨s, hs⟩ := exists_hex4 hsmall []
      exact ⟨s, [], .single hs (by unfold IsHigh; omega) (by unfold IsLow; omega)⟩
    · -- the halves of the pair are the upper and the lower ten bits of what is above the first plane
      obtain ⟨s₁, hlo⟩ := exists_hex4 (show 0xDC00 + (u - 0x10000) % 0x400 < 0x10000 by omega) []
      obtain ⟨s, hhi⟩ := exists_hex4 (show 0xD800 + (u - 0x10000) / 0x400 < 0x10000 by omega) (0x5c :: 0x75 :: s₁)
      have h := ScalarEscape.pair hhi (by unfold IsHigh; omega) hlo (by unfold IsLow; omega)
      rw [show ofSurrogates (0xD800 + (u - 0x10000) / 0x400) (0xDC00 + (u - 0x10000) % 0x400) = u by unfold ofSurrogates; omega] at h
      exact ⟨s, [], h⟩
  · rintro ⟨s, t, h⟩
    cases h with
    | single hv hh hl => exact isScalar_of_hex4 hv.lt hh hl
    | pair _ hh _ hl => exact isScalar_ofSurrogates hh hl

end JsonEscapeAux

open JsonEscapeAux

/-- The scalar values are those that have an escape, by itself or as a pair of surrogates. Wherever the escape of one other than zero
stands that the validator accepts, its value is read and the cursor is behind it; the value is appended, unless memory runs out, as its
one encoding in UTF-8. Where the escape is cut short, has a byte for a digit that is none, is a surrogate that is alone or out of order,
or is of zero, it is refused with an error, and the cursor stays. -/
theorem unicode_escape_right (o : PgTextOptions) (r : PgReader) :
    (∀ u, IsScalar u ↔ ∃ cur t, ScalarEscape cur u t) ∧
    (∀ cur u t, ScalarEscape cur u t → u ≠ 0 → o.UnicodeOk u → readUnicodeEscape o r cur = .ok (some (u, t), r)) ∧
    (∀ u, IsScalar u → ∃ bytes, Utf8.Encodes u bytes ∧ (∀ bytes', Utf8.Encodes u bytes' → bytes' = bytes) ∧
      ∀ buf,
        (∀ r' buf', appendUtf8 o r buf u = (true, r', buf') → buf'.bytes = buf.bytes ++ bytes) ∧
        ((∀ n, o.allocOk n = true) → buf.bytes.length + 4 ≤ usizeMax → ∃ r' buf', appendUtf8 o r buf u = (true, r', buf'))) ∧
    ∀ cur, BadEscape cur →
      ∃ r', readUnicodeEscape o r cur = .ok (none, r') ∧ r'.cur = r.cur ∧ r'.heap = r.heap ∧ r'.err.isSome = true := by
  refine ⟨isScalar_iff_escape, ?_, ?_, ?_⟩
  · intro cur u t hesc h0 hok
    obtain ⟨⟨res, r'⟩, hout, hreads⟩ := readUnicodeEscape_spec o r cur
    have hres : res = some (u, t) := (hreads.value u t).2 ⟨hesc, h0, hok⟩
    have hkept : r' = r := hreads.kept (by rw [hres]; exact Option.some_ne_none _)
    rw [hout, hres, hkept]
  · intro u hu
    have hlen : (Utf8.encode u).length ≤ 4 := by
      rw [← Utf8.utf8EncodeChar_eq hu]
      exact utf8_length_le _
    refine ⟨Utf8.encode u, Utf8.encodes_encode ?_, fun bytes' h => h.eq, fun buf => ?_⟩
    · unfold IsScalar at hu
      omega
    · rw [appendUtf8_eq o r buf hu, Utf8.utf8EncodeChar_eq hu]
      exact ⟨fun r' buf' h => appendBytes_bytes h, fun halloc hfit => appendBytes_ok halloc (by omega)⟩
  · intro cur hbad
    obtain ⟨⟨res, r'⟩, hout, hreads⟩ := readUnicodeEscape_spec o r cur
    have hres : res = none := by
      cases res with
      | none => rfl
      | some found =>
        obtain ⟨hesc, h0, -⟩ := (hreads.value found.1 found.2).1 rfl
        exact absurd (badEscape_iff.1 hbad _ _ hesc) h0
    obtain ⟨msg, pos, hr'⟩ := hreads.refused hres
    have hr' : r' = r.setErrorAt .invalidString msg pos := hr'
    refine ⟨r', by rw [hout, hres], ?_, by rw [hr', setErrorAt_heap], ?_⟩
    · rw [hr', PgReader.setErrorAt]
      split <;> rfl
    · rw [hr', PgReader.setErrorAt]
      split
      · rfl
      · next hsome => exact Option.isSome_iff_ne_none.2 fun hnone => hsome (by rw [hnone, Option.isNone_none])

namespace JsonEscapeWitness

/-- A reader whose validator accepts what the server's encoding has, here ASCII. -/
def ascii : PgTextOptions := ⟨64, true, some fun u => decide (u < 0x80), fun _ => true, 6⟩

/-- A reader that accepts all, but whose allocator has nothing. -/
def exhausted : PgTextOptions := ⟨64, true, none, fun _ => false, 6⟩

/-- A reader at its start. -/
def start : PgReader := ⟨[], none, ⟨0, []⟩⟩

/-- The digits of U+20AC. -/
def euro : List Byte := [0x32, 0x30, 0x61, 0x43]

theorem euro_escape : ScalarEscape euro 0x20AC [] :=
  .single (.mk (.digit (by unfold IsDigit; decide)) (.digit (by unfold IsDigit; decide)) (.lower (by decide) (by decide))
    (.upper (by decide) (by decide))) (by unfold IsHigh; decide) (by unfold IsLow; decide)

/-- The digits of U+1F600 as a pair, behind which a quote stands. -/
def face : List Byte := [0x64, 0x38, 0x33, 0x44, 0x5c, 0x75, 0x44, 0x65, 0x30, 0x30, 0x22]

/-- The first half of the pair, whatever is behind it. -/
theorem face_first (t : List Byte) : Hex4 (0x64 :: 0x38 :: 0x33 :: 0x44 :: t) 0xD83D t :=
  .mk (.lower (by decide) (by decide)) (.digit (by unfold IsDigit; decide)) (.digit (by unfold IsDigit; decide))
    (.upper (by decide) (by decide))

theorem face_second : Hex4 [0x44, 0x65, 0x30, 0x30, 0x22] 0xDE00 [0x22] :=
  .mk (.upper (by decide) (by decide)) (.lower (by decide) (by decide)) (.digit (by unfold IsDigit; decide))
    (.digit (by unfold IsDigit; decide))

theorem face_escape : ScalarEscape face 0x1F600 [0x22] := by
  have h := ScalarEscape.pair (face_first _) (by unfold IsHigh; decide) face_second (by unfold IsLow; decide)
  rwa [show ofSurrogates 0xD83D 0xDE00 = 0x1F600 by decide] at h

/-- The escape of a scalar value that the validator refuses is not read, and one is not appended when there is no memory for it. -/
theorem euro_refused :
    (ScalarEscape euro 0x20AC [] ∧ ∃ r', readUnicodeEscape ascii start euro = .ok (none, r')) ∧
      IsScalar 0x20AC ∧ ∃ r' buf', appendUtf8 exhausted start KeyBuf.empty 0x20AC = (false, r', buf') :=
  ⟨⟨euro_escape, _, rfl⟩, .inl (by decide), _, _, rfl⟩

/-- A pair with letters of both cases is read up to the quote, and the same pair cut short is not. -/
theorem face_read :
    readUnicodeEscape exhausted start face = .ok (some (0x1F600, [0x22]), start) ∧
      ∃ r', readUnicodeEscape exhausted start (face.take 9) = .ok (none, r') ∧ r'.cur = start.cur := by
  obtain ⟨-, hread, -, hbad⟩ := unicode_escape_right exhausted start
  refine ⟨hread face 0x1F600 [0x22] face_escape (by decide) nofun, ?_⟩
  obtain ⟨r', hout, hcur, -⟩ := hbad (face.take 9) (.secondNoHex4 (face_first _) (by unfold IsHigh; decide) (.truncated (by decide)))
  exact ⟨r', hout, hcur⟩

end JsonEscapeWitness

end PgJitter
