import PgJitter.Lemmas.JsonScan

/-!
# Strings of the JSON text reader

What is allocated and freed on the way, what is appended to a buffer, and what is read of a string: it is accepted as `jsonRules`
ask for it, and its buffer holds the bytes that it decodes to.
-/

namespace PgJitter

open JsonGrammar

/-- The code points that the validator accepts, if there is one. -/
def PgTextOptions.UnicodeOk (o : PgTextOptions) (u : Nat) : Prop := ∀ validate, o.validateUnicode = some validate → validate u = true

/-- The escapes are decoded. -/
def PgTextOptions.Decoding (o : PgTextOptions) : Prop := o.checkUniqueKeys = true ∨ o.validateUnicode.isSome = true

/-- What the options ask of strings and names. -/
def jsonRules (o : PgTextOptions) : Rules where
  str := fun is => o.Decoding → ∃ bs, Decodes o.UnicodeOk is bs
  names := fun names => o.checkUniqueKeys = true → ∃ keys, List.Forall₂ (Decodes o.UnicodeOk) names keys ∧ keys.Nodup

/-- Of what was allocated, each block is either freed, once, or owned, once. -/
def Owns (heap : KeyHeap) (owned : List Nat) : Prop := (heap.freed ++ owned).Perm (List.range heap.next)

/-- Where keys are checked, no allocation fails, and the text is too short for any of the sizes to overflow. -/
structure PgTextOptions.Ready (o : PgTextOptions) : Prop where
  alloc : o.checkUniqueKeys = true → ∀ n, o.allocOk n = true
  fits : o.checkUniqueKeys = true → o.len < 2 ^ 58

namespace JsonStringAux

open JsonScanAux

/-! ## Allocation -/

section Heap

variable {o : PgTextOptions} {r : PgReader} {owned : List Nat}

@[simp] theorem setErrorAt_heap (r : PgReader) (code : ReadCode) (msg : String) (pos : Nat) :
    (r.setErrorAt code msg pos).heap = r.heap := by
  unfold PgReader.setErrorAt
  split <;> rfl

@[simp] theorem setError_heap (o : PgTextOptions) (r : PgReader) (code : ReadCode) (msg : String) :
    (r.setError o code msg).heap = r.heap := setErrorAt_heap _ _ _ _

@[simp] theorem free_cur (r : PgReader) (ptr : Option Nat) : (r.free ptr).cur = r.cur := by
  cases ptr <;> rfl

theorem owns_free {ptr : Option Nat} (h : Owns r.heap (ptr.toList ++ owned)) : Owns (r.free ptr).heap owned := by
  cases ptr with
  | none => exact h
  | some p => exact List.perm_middle.symm.trans h

/-- A block that is allocated is new, and owned. -/
theorem malloc_spec (halloc : ∀ n, o.allocOk n = true) (h : Owns r.heap owned) :
    ∃ p r', r.malloc o = (some p, r') ∧ Owns r'.heap (p :: owned) ∧ r'.cur = r.cur := by
  refine ⟨r.heap.next, _, if_pos (halloc _), ?_, rfl⟩
  have hcons : (r.heap.freed ++ r.heap.next :: owned).Perm (r.heap.next :: List.range r.heap.next) :=
    List.perm_middle.trans (h.cons _)
  refine hcons.trans ?_
  rw [List.range_succ]
  exact (List.perm_append_singleton _ _).symm

/-- A block that is reallocated takes the place of the old one. -/
theorem realloc_spec (halloc : ∀ n, o.allocOk n = true) {ptr : Option Nat} (h : Owns r.heap (ptr.toList ++ owned)) :
    ∃ p r', r.realloc o ptr = (some p, r') ∧ Owns r'.heap (p :: owned) ∧ r'.cur = r.cur := by
  obtain ⟨p, r', hm, hown, hcur⟩ := malloc_spec halloc h
  refine ⟨p, r'.free ptr, ?_, owns_free ?_, by rw [free_cur, hcur]⟩
  · unfold PgReader.realloc
    rw [hm]
  · exact (List.Perm.append_left r'.heap.freed List.perm_middle).trans hown

/-! ## Buffers -/

/-- Bytes were appended to a buffer. -/
def Appended (buf : KeyBuf) (owned : List Nat) (bytes : List Byte) (out : Bool × PgReader × KeyBuf) : Prop :=
  ∃ r' buf', out = (true, r', buf') ∧ buf'.bytes = buf.bytes ++ bytes ∧ Owns r'.heap (buf'.ptr.toList ++ owned)

/-- One byte is appended to the key, which is moved to a new block when the old one is full. -/
theorem appendByte_spec (halloc : ∀ n, o.allocOk n = true) {buf : KeyBuf} (hfit : buf.bytes.length < usizeMax)
    (h : Owns r.heap (buf.ptr.toList ++ owned)) (c : Byte) : Appended buf owned [c] (appendByte o r buf c) := by
  unfold appendByte
  rw [if_neg (Nat.ne_of_lt hfit)]
  split
  · obtain ⟨p, r', hr, hown, _⟩ := realloc_spec halloc h
    rw [hr]
    exact ⟨r', _, rfl, rfl, hown⟩
  · exact ⟨r, _, rfl, rfl, h⟩

/-- Bytes are appended to the key one after the other. -/
theorem appendBytes_spec (halloc : ∀ n, o.allocOk n = true) (bytes : List Byte) {r : PgReader} {buf : KeyBuf}
    (hfit : buf.bytes.length + bytes.length ≤ usizeMax) (h : Owns r.heap (buf.ptr.toList ++ owned)) :
    Appended buf owned bytes (appendBytes o r buf bytes) := by
  induction bytes generalizing r buf with
  | nil => exact ⟨r, buf, rfl, (List.append_nil _).symm, h⟩
  | cons c bytes ih =>
    rw [List.length_cons] at hfit
    obtain ⟨r₁, buf₁, h₁, hb₁, ho₁⟩ := appendByte_spec halloc (by omega) h c
    have hfit₁ : buf₁.bytes.length + bytes.length ≤ usizeMax := by
      rw [hb₁, List.length_append, List.length_singleton]
      omega
    obtain ⟨r₂, buf₂, h₂, hb₂, ho₂⟩ := ih hfit₁ ho₁
    refine ⟨r₂, buf₂, ?_, ?_, ho₂⟩
    · rw [appendBytes, h₁]
      exact h₂
    · rw [hb₂, hb₁, List.append_assoc]
      rfl

end Heap

/-- The code points that are scalar values. -/
def IsScalar (u : Nat) : Prop := u < 0xD800 ∨ 0xDFFF < u ∧ u < 0x110000

/-- A byte of UTF-8: the leading bits and the bits of the code point below them. -/
theorem or_eq_add {k m : Nat} (hm : m < 2 ^ k) (t : Nat) : t <<< k ||| m = m + t <<< k := by
  rw [← Nat.shiftLeft_add_eq_or_of_lt hm, Nat.add_comm]

/-- The bytes that are appended for a scalar value are its bytes in UTF-8. -/
theorem appendUtf8_eq (o : PgTextOptions) (r : PgReader) (buf : KeyBuf) {u : Nat} (hu : IsScalar u) :
    appendUtf8 o r buf u = appendBytes o r buf (String.utf8EncodeChar (Char.ofNat u)) := by
  have hval : (Char.ofNat u).val.toNat = u := by
    have hvalid : u.isValidChar := hu
    rw [Char.ofNat, dif_pos hvalid]
    rfl
  have hlow : ∀ v : Nat, 0x80 ||| (v &&& 0x3F) = v % 0x40 + 0x80 := by
    intro v
    rw [show v &&& 0x3F = v % 0x40 from Nat.and_two_pow_sub_one_eq_mod v 6]
    exact or_eq_add (k := 6) (Nat.mod_lt _ (by decide)) 2
  unfold IsScalar at hu
  unfold appendUtf8 String.utf8EncodeChar
  simp only [hval, hlow, Nat.shiftRight_eq_div_pow, Nat.reducePow]
  split_ifs with h₁ h₂ h₃ h₄
  · rfl
  · rw [show 0xC0 ||| u / 64 = u / 64 + 0xC0 from or_eq_add (k := 5) (by omega) 6, Nat.mod_eq_of_lt (by omega : u / 64 < 0x20)]
  · rw [show 0xE0 ||| u / 4096 = u / 4096 + 0xE0 from or_eq_add (k := 4) (by omega) 14,
      Nat.mod_eq_of_lt (by omega : u / 4096 < 0x10)]
  · rw [show 0xF0 ||| u / 262144 = u / 262144 + 0xF0 from or_eq_add (k := 3) (by omega) 30,
      Nat.mod_eq_of_lt (by omega : u / 262144 < 0x08)]
  · omega

theorem utf8_length_le (c : Char) : (String.utf8EncodeChar c).length ≤ 4 := by
  fun_cases String.utf8EncodeChar c <;> simp

theorem isScalar_of_hex4 {u : Nat} (hu : u < 0x10000) (hh : ¬ IsHigh u) (hl : ¬ IsLow u) : IsScalar u := by
  unfold IsHigh at hh
  unfold IsLow at hl
  unfold IsScalar
  omega

theorem isScalar_ofSurrogates {hi lo : Nat} (hh : IsHigh hi) (hl : IsLow lo) : IsScalar (ofSurrogates hi lo) := by
  unfold IsHigh at hh
  unfold IsLow at hl
  unfold IsScalar ofSurrogates
  omega

/-! ## One step through a string -/

/-- The next items of a string, the bytes they decode to, and what is left behind them. -/
structure Step (o : PgTextOptions) (cur : List Byte) (items : List StrItem) (bytes : List Byte) (cur' : List Byte) : Prop where
  join : ∀ is u, Str is cur' u → Str (items ++ is) cur u
  part : ∀ is u, Str is cur u → ∃ is', is = items ++ is' ∧ Str is' cur' u
  decodes : o.Decoding → ∀ is bs, Decodes o.UnicodeOk is bs → Decodes o.UnicodeOk (items ++ is) (bytes ++ bs)
  parts : o.Decoding → ∀ is bs, Decodes o.UnicodeOk (items ++ is) bs → ∃ bs', Decodes o.UnicodeOk is bs'

/-- What reading a string gives from somewhere within it, where the bytes `acc` are decoded already. -/
structure ReadsString (o : PgTextOptions) (acc cur : List Byte) (owned : List Nat) (out : Option KeyBuf × PgReader) : Prop where
  owns : Owns out.2.heap ((out.1.bind (·.ptr)).toList ++ owned)
  plain : o.checkUniqueKeys ≠ true → out.1.bind (·.ptr) = none
  sound : ∀ buf, out.1 = some buf → ∃ is, Str is cur out.2.cur ∧
    (o.Decoding → ∃ bs, Decodes o.UnicodeOk is bs ∧ (o.checkUniqueKeys = true → buf.bytes = acc ++ bs))
  complete : ∀ is u, Str is cur u → (jsonRules o).str is → out.1.isSome = true

/-- A string read from behind an item is read from before the item. -/
theorem ReadsString.step {o : PgTextOptions} {acc cur items bytes cur' : List _} {owned : List Nat}
    {out : Option KeyBuf × PgReader} (hstep : Step o cur items bytes cur')
    (h : ReadsString o (if o.checkUniqueKeys = true then acc ++ bytes else acc) cur' owned out) : ReadsString o acc cur owned out where
  owns := h.owns
  plain := h.plain
  sound := by
    intro buf hbuf
    obtain ⟨is, hstr, hdec⟩ := h.sound buf hbuf
    refine ⟨items ++ is, hstep.join is _ hstr, fun hd => ?_⟩
    obtain ⟨bs, hbs, hacc⟩ := hdec hd
    refine ⟨bytes ++ bs, hstep.decodes hd is bs hbs, fun hc => ?_⟩
    rw [hacc hc, if_pos hc, List.append_assoc]
  complete := by
    intro is u hstr hok
    obtain ⟨is', rfl, hstr'⟩ := hstep.part is u hstr
    refine h.complete is' u hstr' fun hd => ?_
    obtain ⟨bs, hbs⟩ := hok hd
    exact hstep.parts hd is' bs hbs

/-- A string is refused. -/
theorem ReadsString.fail {o : PgTextOptions} {acc cur : List Byte} {owned : List Nat} {r : PgReader}
    (h : ∀ is u, Str is cur u → (jsonRules o).str is → False) (howns : Owns r.heap owned) :
    ReadsString o acc cur owned (none, r) :=
  ⟨howns, fun _ => rfl, fun _ h => (nomatch h), fun is u hs hok => (h is u hs hok).elim⟩

/-- A byte that stands for itself. -/
theorem Step.raw {o : PgTextOptions} {c : Byte} (cur : List Byte) (hq : c ≠ 0x22) (hb : c ≠ 0x5c) (hc : 0x20 ≤ c) :
    Step o (c :: cur) [.byte c] [c] cur where
  join := fun _ _ h => .raw hq hb hc h
  part := by
    intro is u h
    cases h with
    | close => exact absurd rfl hq
    | raw _ _ _ h => exact ⟨_, rfl, h⟩
    | escape _ _ => exact absurd rfl hb
    | unicode _ _ => exact absurd rfl hb
  decodes := fun _ _ _ h => .byte h
  parts := by
    intro _ is bs h
    cases h with
    | byte h => exact ⟨_, h⟩

/-- A simple escape. -/
theorem Step.escape {o : PgTextOptions} {c b : Byte} (cur : List Byte) (he : Escape c b) :
    Step o (0x5c :: c :: cur) [.byte b] [b] cur where
  join := fun _ _ h => .escape he h
  part := by
    intro is u h
    cases h with
    | raw _ hb _ _ => exact absurd rfl hb
    | escape he' h =>
      rw [he.unique he']
      exact ⟨_, rfl, h⟩
    | unicode _ _ => exact absurd rfl he.ne_unicode
  decodes := fun _ _ _ h => .byte h
  parts := by
    intro _ is bs h
    cases h with
    | byte h => exact ⟨_, h⟩

/-- What follows `\u` in a string. -/
theorem str_unicode {is : List StrItem} {cur t u : List Byte} {v : Nat} (hv : Hex4 cur v t)
    (h : Str is (0x5c :: 0x75 :: cur) u) : ∃ is', is = .unicode v :: is' ∧ Str is' t u := by
  cases h with
  | raw _ hb _ _ => exact absurd rfl hb
  | escape he _ => exact absurd rfl he.ne_unicode
  | unicode hv' h =>
    obtain ⟨rfl, rfl⟩ := hv.unique hv'
    exact ⟨_, rfl, h⟩

/-- An escape that is not decoded. -/
theorem Step.undecoded {o : PgTextOptions} (hd : ¬ o.Decoding) {cur t : List Byte} {v : Nat} (hv : Hex4 cur v t) :
    Step o (0x5c :: 0x75 :: cur) [.unicode v] [] t where
  join := fun _ _ h => .unicode hv h
  part := fun _ _ h => str_unicode hv h
  decodes := fun h => absurd h hd
  parts := fun h => absurd h hd

/-- The escape of a code point that is not half of a pair. -/
theorem Step.scalar {o : PgTextOptions} {cur t : List Byte} {v : Nat} (hv : Hex4 cur v t) (hh : ¬ IsHigh v) (hl : ¬ IsLow v)
    (h0 : v ≠ 0) (hok : o.UnicodeOk v) :
    Step o (0x5c :: 0x75 :: cur) [.unicode v] (String.utf8EncodeChar (Char.ofNat v)) t where
  join := fun _ _ h => .unicode hv h
  part := fun _ _ h => str_unicode hv h
  decodes := fun _ _ _ h => .scalar hh hl h0 hok h
  parts := by
    intro _ is bs h
    cases h with
    | scalar _ _ _ _ h => exact ⟨_, h⟩
    | pair h _ _ _ => exact absurd h hh

/-- The escapes of both halves of a surrogate pair. -/
theorem Step.pair {o : PgTextOptions} {cur s t : List Byte} {hi lo : Nat} (hhi : Hex4 cur hi (0x5c :: 0x75 :: s))
    (hlo : Hex4 s lo t) (hh : IsHigh hi) (hl : IsLow lo) (hok : o.UnicodeOk (ofSurrogates hi lo)) :
    Step o (0x5c :: 0x75 :: cur) [.unicode hi, .unicode lo] (String.utf8EncodeChar (Char.ofNat (ofSurrogates hi lo))) t where
  join := fun _ _ h => .unicode hhi (.unicode hlo h)
  part := by
    intro is u h
    obtain ⟨is', rfl, h'⟩ := str_unicode hhi h
    obtain ⟨is'', rfl, h''⟩ := str_unicode hlo h'
    exact ⟨is'', rfl, h''⟩
  decodes := fun _ _ _ h => .pair hh hl hok h
  parts := by
    intro _ is bs h
    cases h with
    | scalar hh' _ _ _ _ => exact absurd hh hh'
    | pair _ _ _ h => exact ⟨_, h⟩

/-! ## Unicode escapes -/

theorem decodes_unicode {ok : Nat → Prop} {v : Nat} {is : List StrItem} {bs : List Byte} (h : Decodes ok (.unicode v :: is) bs) :
    ¬ IsHigh v ∧ ¬ IsLow v ∧ v ≠ 0 ∧ ok v ∨
      IsHigh v ∧ ∃ lo is', is = .unicode lo :: is' ∧ IsLow lo ∧ ok (ofSurrogates v lo) := by
  cases h with
  | scalar hh hl h0 hok _ => exact Or.inl ⟨hh, hl, h0, hok⟩
  | pair hh hl hok _ => exact Or.inr ⟨hh, _, _, rfl, hl, hok⟩

/-- An escape is refused: no string that starts with it decodes. -/
def Refused (o : PgTextOptions) (cur : List Byte) : Prop :=
  ∀ is u bs, Str is (0x5c :: 0x75 :: cur) u → ¬ Decodes o.UnicodeOk is bs

/-- A string that starts with an escape and decodes starts with that of a scalar value which is not zero and is accepted. -/
theorem refused_of_no_scalar {o : PgTextOptions} {cur : List Byte} (h : ∀ u t, ScalarEscape cur u t → ¬ (u ≠ 0 ∧ o.UnicodeOk u)) :
    Refused o cur := by
  intro is u bs hs hd
  cases hs with
  | raw _ hb _ _ => exact hb rfl
  | escape he _ => exact he.ne_unicode rfl
  | unicode hv hs =>
    rcases decodes_unicode hd with ⟨hh, hl, h0, hok⟩ | ⟨hh, lo, is', rfl, hl, hok⟩
    · exact h _ _ (.single hv hh hl) ⟨h0, hok⟩
    · cases hs with
      | unicode hlo _ => exact h _ _ (.pair hv hh hlo hl) ⟨ofSurrogates_ne_zero _ _, hok⟩

/-- The last two checks of an escape. -/
theorem checkCodePoint_cases (o : PgTextOptions) (r : PgReader) (escape cp : Nat) (cur : List Byte) :
    cp ≠ 0 ∧ o.UnicodeOk cp ∧ checkCodePoint o r escape cp cur = (some (cp, cur), r) ∨
      ¬ (cp ≠ 0 ∧ o.UnicodeOk cp) ∧ ∃ msg, checkCodePoint o r escape cp cur = (none, r.setErrorAt .invalidString msg escape) := by
  unfold checkCodePoint PgTextOptions.UnicodeOk
  split
  · next h => exact Or.inr ⟨fun h' => h'.1 h, _, rfl⟩
  · next h =>
    cases hv : o.validateUnicode with
    | none => exact Or.inl ⟨h, fun _ h => (nomatch h), rfl⟩
    | some validate =>
      dsimp only
      split
      · next hok =>
        refine Or.inl ⟨h, ?_, rfl⟩
        rintro _ ⟨⟩
        exact hok
      · next hok => exact Or.inr ⟨fun h' => hok (h'.2 _ rfl), _, rfl⟩

/-- What reading an escape gives: the scalar value, unless it is zero or the validator refuses it, or an error and nothing else. -/
structure ReadsEscape (o : PgTextOptions) (r : PgReader) (cur : List Byte) (out : EscapeResult) : Prop where
  value : ∀ u t, out.1 = some (u, t) ↔ ScalarEscape cur u t ∧ u ≠ 0 ∧ o.UnicodeOk u
  kept : out.1 ≠ none → out.2 = r
  refused : out.1 = none → ∃ msg pos, out.2 = r.setErrorAt .invalidString msg pos

namespace ReadsEscape

variable {o : PgTextOptions} {r : PgReader} {cur : List Byte} {out : EscapeResult}

theorem heap (h : ReadsEscape o r cur out) : out.2.heap = r.heap := by
  by_cases hnone : out.1 = none
  · obtain ⟨msg, pos, heq⟩ := h.refused hnone
    rw [heq, setErrorAt_heap]
  · rw [h.kept hnone]

/-- The items that are read are those of the escape, or of the two escapes of a pair. -/
theorem sound (h : ReadsEscape o r cur out) {u : Nat} {t : List Byte} (hout : out.1 = some (u, t)) :
    IsScalar u ∧ t.length + 4 ≤ cur.length ∧
      ∃ items, Step o (0x5c :: 0x75 :: cur) items (String.utf8EncodeChar (Char.ofNat u)) t := by
  obtain ⟨hesc, h0, hok⟩ := (h.value u t).1 hout
  cases hesc with
  | single hv hh hl => exact ⟨isScalar_of_hex4 hv.lt hh hl, Nat.le_of_eq hv.length.symm, _, .scalar hv hh hl h0 hok⟩
  | pair hv hh hlo hl =>
    refine ⟨isScalar_ofSurrogates hh hl, ?_, _, .pair hv hlo hh hl hok⟩
    have hfirst := hv.length
    have hsecond := hlo.length
    simp only [List.length_cons] at hfirst
    omega

theorem complete (h : ReadsEscape o r cur out) (hout : out.1 = none) : Refused o cur :=
  refused_of_no_scalar fun u t hesc hok => nomatch hout.symm.trans ((h.value u t).2 ⟨hesc, hok⟩)

/-- An error, where there is no escape of a scalar value. -/
theorem bad (h : BadEscape cur) (msg : String) (pos : Nat) : ReadsEscape o r cur (none, r.setErrorAt .invalidString msg pos) :=
  ⟨fun u t => ⟨fun h => (nomatch h), fun h' => absurd (badEscape_iff.1 h u t h'.1) h'.2.1⟩, fun h => absurd rfl h,
    fun _ => ⟨msg, pos, rfl⟩⟩

/-- The last two checks, where the cursor is behind the escape of a scalar value. -/
theorem check {cp : Nat} {t : List Byte} (hesc : ScalarEscape cur cp t) (escape : Nat) :
    ReadsEscape o r cur (checkCodePoint o r escape cp t) := by
  have hvalue : ∀ u t', ScalarEscape cur u t' → u = cp ∧ t' = t := fun u t' h' => h'.unique hesc
  rcases checkCodePoint_cases o r escape cp t with ⟨h0, hok, heq⟩ | ⟨hno, msg, heq⟩
  · rw [heq]
    refine ⟨fun u t' => ⟨?_, fun h' => ?_⟩, fun _ => rfl, fun h => nomatch h⟩
    · rintro ⟨⟩
      exact ⟨hesc, h0, hok⟩
    · obtain ⟨rfl, rfl⟩ := hvalue u t' h'.1
      rfl
  · rw [heq]
    refine ⟨fun u t' => ⟨fun h => (nomatch h), fun h' => ?_⟩, fun h => absurd rfl h, fun _ => ⟨msg, escape, rfl⟩⟩
    obtain ⟨rfl, rfl⟩ := hvalue u t' h'.1
    exact absurd h'.2 hno

end ReadsEscape

/-- The digits of an escape are read, and with a high half of a pair those of the low half: what comes out is the scalar value
that they stand for, or an error. -/
theorem readUnicodeEscape_spec (o : PgTextOptions) (r : PgReader) (cur : List Byte) :
    ∃ out, readUnicodeEscape o r cur = .ok out ∧ ReadsEscape o r cur out := by
  unfold readUnicodeEscape
  by_cases hlen : cur.length < 4
  · rw [if_pos hlen]
    exact ⟨_, rfl, .bad (.noHex4 (.truncated hlen)) _ _⟩
  · rw [if_neg hlen]
    obtain ⟨a, b, c, d, t, rfl⟩ := exists_four hlen
    obtain ⟨res, hres, hiff⟩ := readHex4_spec a b c d t
    rw [hres]
    cases res with
    | none => exact ⟨_, rfl, .bad (.noHex4 (noHex4_iff.2 fun v t hv => nomatch ((hiff v t).1 hv).1)) _ _⟩
    | some v =>
      have hv := (hiff v t).2 ⟨rfl, rfl⟩
      generalize (if o.len - (a :: b :: c :: d :: t).length ≥ 2 then o.len - (a :: b :: c :: d :: t).length - 2
        else o.len - (a :: b :: c :: d :: t).length) = escape
      simp only [List.drop_succ_cons, List.drop_zero, ok_bind]
      split
      · next hh =>
        split
        · next hshort =>
          refine ⟨_, rfl, .bad ?_ _ _⟩
          -- too short for a backslash, a `u` and four digits
          by_cases hback : ∃ s, t = 0x5c :: 0x75 :: s
          · obtain ⟨s, rfl⟩ := hback
            refine .secondNoHex4 hv hh (.truncated ?_)
            simp only [List.length_cons] at hshort
            omega
          · exact .loneHigh hv hh fun s heq => hback ⟨s, heq⟩
        · next hlong =>
          obtain ⟨x, y, s, rfl, hs⟩ : ∃ x y s, t = x :: y :: s ∧ ¬ s.length < 4 := by
            rcases t with _ | ⟨x, _ | ⟨y, s⟩⟩
            · exact absurd (show 0 < 6 by omega) hlong
            · exact absurd (show 1 < 6 by omega) hlong
            · refine ⟨x, y, s, rfl, fun h => hlong ?_⟩
              simp only [List.length_cons]
              omega
          simp only [List.drop_succ_cons, List.drop_zero, deref_bind]
          split
          · next hx =>
            refine ⟨_, rfl, .bad (.loneHigh hv hh ?_) _ _⟩
            rintro _ ⟨⟩
            exact absurd rfl hx
          · split
            · next hy =>
              refine ⟨_, rfl, .bad (.loneHigh hv hh ?_) _ _⟩
              rintro _ ⟨⟩
              exact absurd rfl hy
            · next hx hy =>
              obtain rfl := not_not.1 hx
              obtain rfl := not_not.1 hy
              obtain ⟨e, f, g, h, t, rfl⟩ := exists_four hs
              obtain ⟨res, hres, hiff⟩ := readHex4_spec e f g h t
              rw [hres]
              cases res with
              | none => exact ⟨_, rfl, .bad (.secondNoHex4 hv hh (noHex4_iff.2 fun lo t hlo => nomatch ((hiff lo t).1 hlo).1)) _ _⟩
              | some lo =>
                have hlo := (hiff lo t).2 ⟨rfl, rfl⟩
                simp only [ok_bind]
                split
                · next hrange =>
                  refine ⟨_, rfl, .bad (.misordered hv hh hlo ?_) _ _⟩
                  unfold IsLow
                  omega
                · next hrange =>
                  have hl : IsLow lo := by
                    unfold IsLow
                    omega
                  simp only [ofSurrogates_eq hl, List.drop_succ_cons, List.drop_zero]
                  exact ⟨_, rfl, .check (.pair hv hh hlo hl) escape⟩
      · next hh =>
        split
        · next hl => exact ⟨_, rfl, .bad (.loneLow hv hl) _ _⟩
        · next hl => exact ⟨_, rfl, .check (.single hv hh hl) escape⟩

/-! ## The loop over a string -/

section Loop

variable {o : PgTextOptions} {owned : List Nat}

theorem failString_reads {r : PgReader} {buf : KeyBuf} {acc cur : List Byte} (howns : Owns r.heap (buf.ptr.toList ++ owned))
    (h : ∀ is u, Str is cur u → (jsonRules o).str is → False) : ReadsString o acc cur owned (failString r buf) :=
  .fail h (owns_free howns)

/-- The rest of a string is read behind items that are appended where strings are decoded. -/
theorem reads_of_append {n : Nat} {r : PgReader} {buf : KeyBuf} {cur cur' items bytes : List _} {app : Bool × PgReader × KeyBuf}
    (hstep : Step o cur items bytes cur') (happ : o.checkUniqueKeys = true → Appended buf owned bytes app)
    (howns : Owns r.heap (buf.ptr.toList ++ owned))
    (hrest : ∀ r' buf', buf'.bytes = (if o.checkUniqueKeys = true then buf.bytes ++ bytes else buf.bytes) →
      Owns r'.heap (buf'.ptr.toList ++ owned) →
      ∃ out, stringLoop o o.checkUniqueKeys n r' buf' cur' = .ok out ∧ ReadsString o buf'.bytes cur' owned out) :
    ∃ out, (if o.checkUniqueKeys = true then
        match app with
        | (true, r, buf) => stringLoop o o.checkUniqueKeys n r buf cur'
        | (false, r, buf) => .ok (failString r buf)
      else stringLoop o o.checkUniqueKeys n r buf cur') = .ok out ∧ ReadsString o buf.bytes cur owned out := by
  by_cases hc : o.checkUniqueKeys = true
  · obtain ⟨r', buf', rfl, hbytes, howns'⟩ := happ hc
    obtain ⟨out, hout, hreads⟩ := hrest r' buf' (by rw [if_pos hc, hbytes]) howns'
    refine ⟨out, (if_pos hc).trans hout, .step hstep ?_⟩
    rwa [if_pos hc, ← hbytes]
  · obtain ⟨out, hout, hreads⟩ := hrest r buf (by rw [if_neg hc]) howns
    refine ⟨out, (if_neg hc).trans hout, .step hstep ?_⟩
    rwa [if_neg hc]

/-- Behind its closing quote a string is over, and its buffer is handed out or freed. -/
theorem closed_reads {r : PgReader} {buf : KeyBuf} (cur : List Byte) (howns : Owns r.heap (buf.ptr.toList ++ owned)) :
    ∃ out, (if o.checkUniqueKeys = true then .ok (some buf, { r with cur })
      else .ok (some KeyBuf.empty, PgReader.free { r with cur } buf.ptr) :
        Except PgTextHalt (Option KeyBuf × PgReader)) = .ok out ∧ ReadsString o buf.bytes (0x22 :: cur) owned out := by
  by_cases hc : o.checkUniqueKeys = true
  · refine ⟨_, if_pos hc, howns, fun h => absurd hc h, ?_, fun _ _ _ _ => rfl⟩
    rintro _ ⟨⟩
    exact ⟨[], .close, fun _ => ⟨[], .nil, fun _ => (List.append_nil _).symm⟩⟩
  · refine ⟨_, if_neg hc, owns_free howns, fun _ => rfl, ?_, fun _ _ _ _ => rfl⟩
    rintro _ ⟨⟩
    refine ⟨[], ?_, fun _ => ⟨[], .nil, fun h => absurd h hc⟩⟩
    show Str [] (0x22 :: cur) (PgReader.free { r with cur } buf.ptr).cur
    rw [free_cur]
    exact .close

/-- From anywhere within a string the loop reads it to its end, or finds what is wrong with it. -/
theorem stringLoop_spec (hready : o.Ready) (n : Nat) (r : PgReader) (buf : KeyBuf) (cur : List Byte) (hfuel : cur.length < n)
    (hfit : o.checkUniqueKeys = true → buf.bytes.length + cur.length ≤ o.len) (howns : Owns r.heap (buf.ptr.toList ++ owned)) :
    ∃ out, stringLoop o o.checkUniqueKeys n r buf cur = .ok out ∧ ReadsString o buf.bytes cur owned out := by
  induction n generalizing r buf cur with
  | zero => exact absurd hfuel (Nat.not_lt_zero _)
  | succ n ih =>
    -- what an append needs, and what the rest of the loop gives
    have hsize : o.checkUniqueKeys = true → buf.bytes.length + cur.length ≤ usizeMax := by
      intro hc
      have := hfit hc
      have := hready.fits hc
      unfold usizeMax
      omega
    have hrest : ∀ cur' bytes : List Byte, cur'.length + bytes.length ≤ cur.length → cur'.length < cur.length →
        ∀ (r' : PgReader) (buf' : KeyBuf), buf'.bytes = (if o.checkUniqueKeys = true then buf.bytes ++ bytes else buf.bytes) →
          Owns r'.heap (buf'.ptr.toList ++ owned) →
          ∃ out, stringLoop o o.checkUniqueKeys n r' buf' cur' = .ok out ∧ ReadsString o buf'.bytes cur' owned out := by
      intro cur' bytes hle hlt r' buf' hbytes howns'
      refine ih _ _ _ (by omega) (fun hc => ?_) howns'
      have := hfit hc
      rw [hbytes, if_pos hc, List.length_append]
      omega
    rw [stringLoop]
    cases cur with
    | nil => exact ⟨_, rfl, failString_reads howns fun is u h _ => nomatch h⟩
    | cons c cur =>
      rw [if_neg (List.cons_ne_nil _ _), deref_bind, List.tail_cons]
      split
      · next hq =>
        subst hq
        exact closed_reads cur howns
      · next hq =>
        split
        · next hctl =>
          refine ⟨_, rfl, failString_reads howns fun is u h _ => ?_⟩
          cases h with
          | close => exact hq rfl
          | raw _ _ hc _ => exact UInt8.not_le.2 hctl hc
          | escape _ _ => exact absurd hctl (by decide)
          | unicode _ _ => exact absurd hctl (by decide)
        · next hctl =>
          split
          · next hb =>
            subst hb
            cases cur with
            | nil =>
              refine ⟨_, rfl, failString_reads howns fun is u h _ => ?_⟩
              cases h with
              | raw _ hb _ _ => exact hb rfl
            | cons c cur =>
              rw [if_neg (List.cons_ne_nil _ _), deref_bind, List.tail_cons]
              cases hesc : simpleEscape c with
              | some b =>
                exact reads_of_append (.escape cur (simpleEscape_eq_some.1 hesc))
                  (fun hc => appendByte_spec (hready.alloc hc)
                    (by have := hsize hc; simp only [List.length_cons] at this; omega) howns b)
                  howns (hrest _ _ (by simp only [List.length_cons, List.length_nil]; omega)
                    (by simp only [List.length_cons]; omega))
              | none =>
                dsimp only
                split
                · next hu =>
                  subst hu
                  simp only [Bool.or_eq_true]
                  split
                  · next hd =>
                    obtain ⟨⟨res, r'⟩, hout, hesc⟩ := readUnicodeEscape_spec o r cur
                    have hheap : r'.heap = r.heap := hesc.heap
                    rw [hout, ok_bind]
                    cases res with
                    | none =>
                      refine ⟨_, rfl, failString_reads (by rw [hheap]; exact howns) fun is u h hok => ?_⟩
                      obtain ⟨bs, hbs⟩ := hok hd
                      exact hesc.complete rfl is u bs h hbs
                    | some res =>
                      obtain ⟨cp, t⟩ := res
                      obtain ⟨hscalar, hlen, items, hstep⟩ := hesc.sound (u := cp) (t := t) rfl
                      have hbytes := utf8_length_le (Char.ofNat cp)
                      dsimp only
                      rw [appendUtf8_eq o r' buf hscalar]
                      rw [← hheap] at howns
                      exact reads_of_append hstep
                        (fun hc => appendBytes_spec (hready.alloc hc) _
                          (by have := hsize hc; simp only [List.length_cons] at this; omega) howns)
                        howns (hrest _ _ (by simp only [List.length_cons]; omega) (by simp only [List.length_cons]; omega))
                  · next hd =>
                    have hc : ¬ o.checkUniqueKeys = true := fun hc => hd (Or.inl hc)
                    obtain ⟨res, hout⟩ := (skipHex4_scans cur).ends
                    rw [hout, ok_bind]
                    cases res with
                    | none =>
                      refine ⟨_, rfl, failString_reads howns fun is u h hok => ?_⟩
                      cases h with
                      | raw _ hb _ _ => exact hb rfl
                      | escape he _ => exact he.ne_unicode rfl
                      | unicode hv _ => exact nomatch hout.symm.trans ((skipHex4_scans cur).complete _ ⟨_, hv⟩ trivial)
                    | some t =>
                      obtain ⟨v, hv⟩ := (skipHex4_scans cur).sound t hout
                      have hlen := hv.length
                      have hlt : t.length < (0x5c :: 0x75 :: cur).length := by
                        simp only [List.length_cons]
                        omega
                      obtain ⟨out, hloop, hreads⟩ := hrest t [] (Nat.le_of_lt hlt) hlt r buf (by rw [if_neg hc]) howns
                      refine ⟨out, hloop, .step (.undecoded hd hv) ?_⟩
                      rwa [if_neg hc]
                · next hu =>
                  refine ⟨_, rfl, failString_reads howns fun is u h _ => ?_⟩
                  cases h with
                  | raw _ hb _ _ => exact hb rfl
                  | escape he _ => exact nomatch (simpleEscape_eq_some.2 he).symm.trans hesc
                  | unicode _ _ => exact hu rfl
          · next hb =>
            exact reads_of_append (.raw cur hq hb (UInt8.not_lt.1 hctl))
              (fun hc => appendByte_spec (hready.alloc hc) (by have := hsize hc; rw [List.length_cons] at this; omega) howns c)
              howns (hrest _ _ (Nat.le_refl _) (Nat.lt_succ_self _))

/-- What `parseString` gives at a string with its opening quote. -/
structure ReadsQuoted (o : PgTextOptions) (cur : List Byte) (owned : List Nat) (res : Option KeyBuf) (r : PgReader) : Prop where
  owns : Owns r.heap ((res.bind (·.ptr)).toList ++ owned)
  plain : o.checkUniqueKeys ≠ true → res.bind (·.ptr) = none
  sound : ∀ buf, res = some buf → ∃ is s, cur = 0x22 :: s ∧ Str is s r.cur ∧
    (o.Decoding → ∃ bs, Decodes o.UnicodeOk is bs ∧ (o.checkUniqueKeys = true → buf.bytes = bs))
  complete : ∀ is s u, cur = 0x22 :: s → Str is s u → (jsonRules o).str is → res.isSome = true

/-- A string is read from its opening quote, with its bytes as a key where they are wanted. -/
theorem parseString_spec (hready : o.Ready) {r : PgReader} (hfit : r.cur.length ≤ o.len) (howns : Owns r.heap owned) :
    ∃ res r', parseString o r o.checkUniqueKeys = .ok (res, r') ∧ ReadsQuoted o r.cur owned res r' := by
  rw [parseString]
  cases hcur : r.cur with
  | nil => exact ⟨none, r, rfl, howns, fun _ => rfl, fun _ h => (nomatch h), fun _ _ _ h => (nomatch h)⟩
  | cons c cur =>
    rw [if_neg (List.cons_ne_nil _ _), deref_bind, List.tail_cons]
    split
    · next hq =>
      refine ⟨none, r, rfl, howns, fun _ => rfl, fun _ h => (nomatch h), ?_⟩
      rintro is s u ⟨⟩
      exact absurd rfl hq
    · next hq =>
      obtain rfl := not_not.1 hq
      rw [hcur, List.length_cons] at hfit
      obtain ⟨⟨res, r'⟩, hout, hreads⟩ := stringLoop_spec hready ((0x22 :: cur).length + 1) r KeyBuf.empty cur
        (by simp only [List.length_cons]; omega) (fun _ => by simp only [KeyBuf.empty, List.length_nil]; omega) howns
      refine ⟨res, r', hout, hreads.owns, hreads.plain, ?_, ?_⟩
      · intro buf hbuf
        obtain ⟨is, hstr, hdec⟩ := hreads.sound buf hbuf
        exact ⟨is, cur, rfl, hstr, hdec⟩
      · rintro is s u ⟨⟩ hstr hok
        exact hreads.complete is u hstr hok

end Loop

end JsonStringAux

end PgJitter
