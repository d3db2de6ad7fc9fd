import Mathlib.Data.List.Forall2

/-!
# The grammar of JSON

The grammar over bytes, each production as a relation between the text before it and the text that is left. What a string may
stand for, and which names an object may have, is left to `Rules`, so that the productions are the same for a reader that only
checks the syntax and for one that decodes the escapes. The number in `Value` is how deep containers may still nest.
-/

namespace JsonGrammar

/-! ## Spans of bytes -/

/-- The text `t` is what is left of `s` behind some bytes that all satisfy `p`. -/
inductive Span (p : UInt8 → Prop) : List UInt8 → List UInt8 → Prop where
  | nil {s : List UInt8} : Span p s s
  | cons {c : UInt8} {s t : List UInt8} : p c → Span p s t → Span p (c :: s) t

/-- No byte that satisfies `p` comes next. -/
def Ends (p : UInt8 → Prop) (s : List UInt8) : Prop := ∀ c t, s = c :: t → ¬ p c

/-- Space, tab, newline and carriage return. -/
def IsWs (c : UInt8) : Prop := c = 0x20 ∨ c = 0x09 ∨ c = 0x0a ∨ c = 0x0d

/-- The digits. -/
def IsDigit (c : UInt8) : Prop := 0x30 ≤ c ∧ c ≤ 0x39

/-- Whitespace. -/
abbrev Ws : List UInt8 → List UInt8 → Prop := Span IsWs

/-! ## Numbers -/

/-- An optional minus sign. -/
inductive Minus : List UInt8 → List UInt8 → Prop where
  | absent {s : List UInt8} : Minus s s
  | present {s : List UInt8} : Minus (0x2d :: s) s

/-- The integer part: zero, or digits that do not start with zero. -/
inductive IntPart : List UInt8 → List UInt8 → Prop where
  | zero {s : List UInt8} : IntPart (0x30 :: s) s
  | digits {c : UInt8} {s t : List UInt8} : 0x31 ≤ c → c ≤ 0x39 → Span IsDigit s t → IntPart (c :: s) t

/-- At least one digit. -/
inductive Digits : List UInt8 → List UInt8 → Prop where
  | mk {c : UInt8} {s t : List UInt8} : IsDigit c → Span IsDigit s t → Digits (c :: s) t

/-- An optional fraction. -/
inductive FracPart : List UInt8 → List UInt8 → Prop where
  | absent {s : List UInt8} : FracPart s s
  | present {s t : List UInt8} : Digits s t → FracPart (0x2e :: s) t

/-- An optional plus or minus sign. -/
inductive Sign : List UInt8 → List UInt8 → Prop where
  | absent {s : List UInt8} : Sign s s
  | plus {s : List UInt8} : Sign (0x2b :: s) s
  | minus {s : List UInt8} : Sign (0x2d :: s) s

/-- An optional exponent. -/
inductive ExpPart : List UInt8 → List UInt8 → Prop where
  | absent {s : List UInt8} : ExpPart s s
  | present {c : UInt8} {s s₁ t : List UInt8} : c = 0x65 ∨ c = 0x45 → Sign s s₁ → Digits s₁ t → ExpPart (c :: s) t

/-- A number. -/
inductive Number : List UInt8 → List UInt8 → Prop where
  | mk {s s₁ s₂ s₃ t : List UInt8} : Minus s s₁ → IntPart s₁ s₂ → FracPart s₂ s₃ → ExpPart s₃ t → Number s t

/-! ## Strings -/

/-- The simple escapes: the byte behind the backslash, and the byte it stands for. -/
inductive Escape : UInt8 → UInt8 → Prop where
  | quote : Escape 0x22 0x22
  | backslash : Escape 0x5c 0x5c
  | slash : Escape 0x2f 0x2f
  | backspace : Escape 0x62 0x08
  | formFeed : Escape 0x66 0x0c
  | newline : Escape 0x6e 0x0a
  | carriageReturn : Escape 0x72 0x0d
  | tab : Escape 0x74 0x09

/-- A hexadecimal digit and its value. -/
inductive Hex : UInt8 → Nat → Prop where
  | digit {c : UInt8} : IsDigit c → Hex c (c.toNat - 0x30)
  | lower {c : UInt8} : 0x61 ≤ c → c ≤ 0x66 → Hex c (c.toNat - 0x61 + 10)
  | upper {c : UInt8} : 0x41 ≤ c → c ≤ 0x46 → Hex c (c.toNat - 0x41 + 10)

/-- Four hexadecimal digits and their value. -/
inductive Hex4 : List UInt8 → Nat → List UInt8 → Prop where
  | mk {a b c d : UInt8} {va vb vc vd : Nat} {t : List UInt8} : Hex a va → Hex b vb → Hex c vc → Hex d vd →
      Hex4 (a :: b :: c :: d :: t) (((va * 16 + vb) * 16 + vc) * 16 + vd) t

/-- What a string is made of: bytes, as they are or behind a simple escape, and `\u` escapes. -/
inductive StrItem where
  | byte (b : UInt8)
  | unicode (u : Nat)
  deriving DecidableEq, Repr

/-- A string, from behind its opening quote to behind its closing quote. -/
inductive Str : List StrItem → List UInt8 → List UInt8 → Prop where
  | close {t : List UInt8} : Str [] (0x22 :: t) t
  | raw {c : UInt8} {is : List StrItem} {s t : List UInt8} :
      c ≠ 0x22 → c ≠ 0x5c → 0x20 ≤ c → Str is s t → Str (.byte c :: is) (c :: s) t
  | escape {c b : UInt8} {is : List StrItem} {s t : List UInt8} :
      Escape c b → Str is s t → Str (.byte b :: is) (0x5c :: c :: s) t
  | unicode {u : Nat} {is : List StrItem} {s s₁ t : List UInt8} :
      Hex4 s u s₁ → Str is s₁ t → Str (.unicode u :: is) (0x5c :: 0x75 :: s) t

/-- The surrogates that come first in a pair. -/
def IsHigh (u : Nat) : Prop := 0xD800 ≤ u ∧ u ≤ 0xDBFF

/-- The surrogates that come second in a pair. -/
def IsLow (u : Nat) : Prop := 0xDC00 ≤ u ∧ u ≤ 0xDFFF

/-- The scalar value that a pair of surrogates stands for. -/
def ofSurrogates (hi lo : Nat) : Nat := 0x10000 + (hi - 0xD800) * 0x400 + (lo - 0xDC00)

/-- An escape, from behind its `\u`, and the scalar value that it is of: by itself, or the first of a pair of surrogates. -/
inductive ScalarEscape : List UInt8 → Nat → List UInt8 → Prop where
  | single {u : Nat} {s t : List UInt8} : Hex4 s u t → ¬ IsHigh u → ¬ IsLow u → ScalarEscape s u t
  | pair {hi lo : Nat} {s s₁ t : List UInt8} : Hex4 s hi (0x5c :: 0x75 :: s₁) → IsHigh hi → Hex4 s₁ lo t → IsLow lo →
      ScalarEscape s (ofSurrogates hi lo) t

/-- Too few bytes for four hexadecimal digits, or a byte among them that is none. -/
inductive NoHex4 : List UInt8 → Prop where
  | truncated {s : List UInt8} : s.length < 4 → NoHex4 s
  | noDigit {s : List UInt8} {i : Nat} {c : UInt8} : i < 4 → s[i]? = some c → (∀ v, ¬ Hex c v) → NoHex4 s

/-- What is not the escape of a scalar value other than zero, from behind its `\u`: cut short, with another byte for a digit, with a
surrogate that is alone or has another escape than that of a second surrogate behind it, or an escape of zero. -/
inductive BadEscape : List UInt8 → Prop where
  | noHex4 {s : List UInt8} : NoHex4 s → BadEscape s
  | loneLow {u : Nat} {s t : List UInt8} : Hex4 s u t → IsLow u → BadEscape s
  | loneHigh {u : Nat} {s t : List UInt8} : Hex4 s u t → IsHigh u → (∀ s₁, t ≠ 0x5c :: 0x75 :: s₁) → BadEscape s
  | secondNoHex4 {u : Nat} {s s₁ : List UInt8} : Hex4 s u (0x5c :: 0x75 :: s₁) → IsHigh u → NoHex4 s₁ → BadEscape s
  | misordered {u v : Nat} {s s₁ t : List UInt8} : Hex4 s u (0x5c :: 0x75 :: s₁) → IsHigh u → Hex4 s₁ v t → ¬ IsLow v → BadEscape s
  | zero {s t : List UInt8} : Hex4 s 0 t → BadEscape s

/-- The bytes that a string decodes to, in UTF-8. Each escape is that of a scalar value other than zero which `ok` admits. -/
inductive Decodes (ok : Nat → Prop) : List StrItem → List UInt8 → Prop where
  | nil : Decodes ok [] []
  | byte {b : UInt8} {is : List StrItem} {bs : List UInt8} : Decodes ok is bs → Decodes ok (.byte b :: is) (b :: bs)
  | scalar {u : Nat} {is : List StrItem} {bs : List UInt8} : ¬ IsHigh u → ¬ IsLow u → u ≠ 0 → ok u → Decodes ok is bs →
      Decodes ok (.unicode u :: is) (String.utf8EncodeChar (Char.ofNat u) ++ bs)
  | pair {hi lo : Nat} {is : List StrItem} {bs : List UInt8} : IsHigh hi → IsLow lo → ok (ofSurrogates hi lo) → Decodes ok is bs →
      Decodes ok (.unicode hi :: .unicode lo :: is) (String.utf8EncodeChar (Char.ofNat (ofSurrogates hi lo)) ++ bs)

/-! ## Values -/

/-- What is asked of the strings, and of the names in one object. -/
structure Rules where
  str : List StrItem → Prop
  names : List (List StrItem) → Prop

/-- The syntax alone. -/
def Rules.syntaxOnly : Rules := ⟨fun _ => True, fun _ => True⟩

/-- All strings decode, and the decoded names of an object are distinct. -/
def Rules.decoded (ok : Nat → Prop) : Rules where
  str := fun is => ∃ bs, Decodes ok is bs
  names := fun names => ∃ keys, List.Forall₂ (Decodes ok) names keys ∧ keys.Nodup

/-- The kinds of values. -/
inductive Kind where
  | object
  | array
  | scalar
  deriving DecidableEq, Repr

mutual

/-- A value. -/
inductive Value (R : Rules) : Nat → Kind → List UInt8 → List UInt8 → Prop where
  | str {d : Nat} {is : List StrItem} {s t : List UInt8} : Str is s t → R.str is → Value R d .scalar (0x22 :: s) t
  | number {d : Nat} {s t : List UInt8} : Number s t → Value R d .scalar s t
  | true {d : Nat} {t : List UInt8} : Value R d .scalar (0x74 :: 0x72 :: 0x75 :: 0x65 :: t) t
  | false {d : Nat} {t : List UInt8} : Value R d .scalar (0x66 :: 0x61 :: 0x6c :: 0x73 :: 0x65 :: t) t
  | null {d : Nat} {t : List UInt8} : Value R d .scalar (0x6e :: 0x75 :: 0x6c :: 0x6c :: t) t
  | emptyArray {d : Nat} {s t : List UInt8} : Ws s (0x5d :: t) → Value R (d + 1) .array (0x5b :: s) t
  | array {d : Nat} {s s₁ t : List UInt8} : Ws s s₁ → Elements R d s₁ t → Value R (d + 1) .array (0x5b :: s) t
  | emptyObject {d : Nat} {s t : List UInt8} : Ws s (0x7d :: t) → Value R (d + 1) .object (0x7b :: s) t
  | object {d : Nat} {names : List (List StrItem)} {s s₁ t : List UInt8} : Ws s s₁ → Members R d names s₁ t → R.names names →
      Value R (d + 1) .object (0x7b :: s) t

/-- The elements of an array, to behind its closing bracket. -/
inductive Elements (R : Rules) : Nat → List UInt8 → List UInt8 → Prop where
  | last {d : Nat} {k : Kind} {s s₁ t : List UInt8} : Value R d k s s₁ → Ws s₁ (0x5d :: t) → Elements R d s t
  | more {d : Nat} {k : Kind} {s s₁ s₂ s₃ t : List UInt8} : Value R d k s s₁ → Ws s₁ (0x2c :: s₂) → Ws s₂ s₃ → Elements R d s₃ t →
      Elements R d s t

/-- The members of an object with their names, to behind its closing brace. -/
inductive Members (R : Rules) : Nat → List (List StrItem) → List UInt8 → List UInt8 → Prop where
  | last {d : Nat} {k : Kind} {is : List StrItem} {s s₁ s₂ s₃ s₄ t : List UInt8} : Str is s s₁ → R.str is → Ws s₁ (0x3a :: s₂) →
      Ws s₂ s₃ → Value R d k s₃ s₄ → Ws s₄ (0x7d :: t) → Members R d [is] (0x22 :: s) t
  | more {d : Nat} {k : Kind} {is : List StrItem} {names : List (List StrItem)} {s s₁ s₂ s₃ s₄ s₅ s₆ t : List UInt8} :
      Str is s s₁ → R.str is → Ws s₁ (0x3a :: s₂) → Ws s₂ s₃ → Value R d k s₃ s₄ → Ws s₄ (0x2c :: s₅) → Ws s₅ s₆ →
      Members R d names s₆ t → Members R d (is :: names) (0x22 :: s) t

end

/-- One text: a value between whitespace, and nothing else. -/
def Text (R : Rules) (d : Nat) (k : Kind) (s : List UInt8) : Prop := ∃ s₁ s₂, Ws s s₁ ∧ Value R d k s₁ s₂ ∧ Ws s₂ []

/-! ## Spans are as long as can be -/

theorem Span.length_le {p : UInt8 → Prop} {s t : List UInt8} (h : Span p s t) : t.length ≤ s.length := by
  induction h with
  | nil => exact Nat.le_refl _
  | cons _ _ ih => exact Nat.le_trans ih (Nat.le_succ _)

/-- Two spans that both end where no further byte fits end at the same place. -/
theorem Span.unique {p : UInt8 → Prop} {s t t' : List UInt8} (h : Span p s t) (h' : Span p s t') (ht : Ends p t)
    (ht' : Ends p t') : t = t' := by
  induction h generalizing t' with
  | nil =>
    cases h' with
    | nil => rfl
    | cons hc _ => exact absurd hc (ht _ _ rfl)
  | cons hc _ ih =>
    cases h' with
    | nil => exact absurd hc (ht' _ _ rfl)
    | cons _ h' => exact ih h' ht ht'

theorem ends_nil {p : UInt8 → Prop} : Ends p [] := fun _ _ h => nomatch h

theorem ends_cons {p : UInt8 → Prop} {c : UInt8} {s : List UInt8} (h : ¬ p c) : Ends p (c :: s) := by
  intro c' t heq
  cases heq
  exact h

/-! ## Strings are read in one way -/

theorem Hex.unique {c : UInt8} {v v' : Nat} (h : Hex c v) (h' : Hex c v') : v = v' := by
  cases h <;> cases h' <;> simp only [IsDigit, UInt8.le_iff_toNat_le, UInt8.reduceToNat] at * <;> omega

theorem Hex.lt {c : UInt8} {v : Nat} (h : Hex c v) : v < 16 := by
  cases h <;> simp only [IsDigit, UInt8.le_iff_toNat_le, UInt8.reduceToNat] at * <;> omega

theorem Hex4.unique {s t t' : List UInt8} {u u' : Nat} (h : Hex4 s u t) (h' : Hex4 s u' t') : u = u' ∧ t = t' := by
  cases h with
  | mk ha hb hc hd =>
    cases h' with
    | mk ha' hb' hc' hd' =>
      rw [ha.unique ha', hb.unique hb', hc.unique hc', hd.unique hd']
      exact ⟨rfl, rfl⟩

/-- Four digits are a number of sixteen bits. -/
theorem Hex4.lt {s t : List UInt8} {u : Nat} (h : Hex4 s u t) : u < 0x10000 := by
  cases h with
  | mk ha hb hc hd =>
    have := ha.lt
    have := hb.lt
    have := hc.lt
    have := hd.lt
    omega

theorem Hex4.length {s t : List UInt8} {u : Nat} (h : Hex4 s u t) : s.length = t.length + 4 := by
  cases h with
  | mk _ _ _ _ => rfl

/-- The two halves of the code space of an escape that are surrogates do not meet. -/
theorem IsHigh.not_low {u : Nat} (h : IsHigh u) : ¬ IsLow u := by
  unfold IsHigh at h
  unfold IsLow
  omega

/-- A pair of surrogates is not of zero. -/
theorem ofSurrogates_ne_zero (hi lo : Nat) : ofSurrogates hi lo ≠ 0 := by
  unfold ofSurrogates
  omega

/-- Four hexadecimal digits come next, or they do not for one of two reasons. -/
theorem noHex4_iff {s : List UInt8} : NoHex4 s ↔ ∀ u t, ¬ Hex4 s u t := by
  constructor
  · intro h u t hu
    cases h with
    | truncated hlen =>
      have := hu.length
      omega
    | @noDigit i c hi hc hno =>
      cases hu with
      | mk ha hb hc' hd =>
        match i, hi with
        | 0, _ => exact hno _ (Option.some.inj hc ▸ ha)
        | 1, _ => exact hno _ (Option.some.inj hc ▸ hb)
        | 2, _ => exact hno _ (Option.some.inj hc ▸ hc')
        | 3, _ => exact hno _ (Option.some.inj hc ▸ hd)
  · intro h
    rcases s with _ | ⟨a, _ | ⟨b, _ | ⟨c, _ | ⟨d, t⟩⟩⟩⟩
    · exact .truncated (by simp)
    · exact .truncated (by simp)
    · exact .truncated (by simp)
    · exact .truncated (by simp)
    · by_contra hno
      -- each of the four bytes is a digit, or it would be a reason
      have hdigit : ∀ i x, i < 4 → (a :: b :: c :: d :: t)[i]? = some x → ∃ v, Hex x v := by
        intro i x hi hx
        by_contra hnone
        exact hno (.noDigit hi hx fun v hv => hnone ⟨v, hv⟩)
      obtain ⟨va, ha⟩ := hdigit 0 a (by decide) rfl
      obtain ⟨vb, hb⟩ := hdigit 1 b (by decide) rfl
      obtain ⟨vc, hc⟩ := hdigit 2 c (by decide) rfl
      obtain ⟨vd, hd⟩ := hdigit 3 d (by decide) rfl
      exact h _ _ (.mk ha hb hc hd)

/-- Which scalar value an escape is of, once its first four digits are read. -/
theorem scalarEscape_iff {s t : List UInt8} {v : Nat} (hv : Hex4 s v t) {u : Nat} {t' : List UInt8} :
    ScalarEscape s u t' ↔ (¬ IsHigh v ∧ ¬ IsLow v ∧ u = v ∧ t' = t) ∨
      (IsHigh v ∧ ∃ s₁ lo, t = 0x5c :: 0x75 :: s₁ ∧ Hex4 s₁ lo t' ∧ IsLow lo ∧ u = ofSurrogates v lo) := by
  constructor
  · intro h
    cases h with
    | single hu hh hl =>
      obtain ⟨rfl, rfl⟩ := hu.unique hv
      exact .inl ⟨hh, hl, rfl, rfl⟩
    | pair hhi hh hlo hl =>
      obtain ⟨rfl, rfl⟩ := hhi.unique hv
      exact .inr ⟨hh, _, _, rfl, hlo, hl, rfl⟩
  · rintro (⟨hh, hl, rfl, rfl⟩ | ⟨hh, s₁, lo, rfl, hlo, hl, hu⟩)
    · exact .single hv hh hl
    · rw [hu]
      exact .pair hv hh hlo hl

/-- An escape of one code point has one reading. -/
theorem ScalarEscape.unique {s t t' : List UInt8} {u u' : Nat} (h : ScalarEscape s u t) (h' : ScalarEscape s u' t') :
    u = u' ∧ t = t' := by
  cases h with
  | single hv hh hl =>
    rcases (scalarEscape_iff hv).1 h' with ⟨_, _, hu, ht⟩ | ⟨hh', _⟩
    · exact ⟨hu.symm, ht.symm⟩
    · exact absurd hh' hh
  | pair hv hh hlo hl =>
    rcases (scalarEscape_iff hv).1 h' with ⟨hh', _⟩ | ⟨_, _, _, ⟨⟩, hlo', _, hu⟩
    · exact absurd hh hh'
    · obtain ⟨rfl, rfl⟩ := hlo.unique hlo'
      exact ⟨hu.symm, rfl⟩

/-- What is bad of an escape is all that keeps it from being that of a scalar value other than zero. -/
theorem badEscape_iff {s : List UInt8} : BadEscape s ↔ ∀ u t, ScalarEscape s u t → u = 0 := by
  constructor
  · intro h u t hu
    cases h with
    | noHex4 hno =>
      cases hu with
      | single hv _ _ => exact absurd hv (noHex4_iff.1 hno _ _)
      | pair hv _ _ _ => exact absurd hv (noHex4_iff.1 hno _ _)
    | loneLow hv hl =>
      rcases (scalarEscape_iff hv).1 hu with ⟨_, hl', _⟩ | ⟨hh, _⟩
      · exact absurd hl hl'
      · exact absurd hl hh.not_low
    | loneHigh hv hh hno =>
      rcases (scalarEscape_iff hv).1 hu with ⟨hh', _⟩ | ⟨_, s₁, _, heq, _⟩
      · exact absurd hh hh'
      · exact absurd heq (hno s₁)
    | secondNoHex4 hv hh hno =>
      rcases (scalarEscape_iff hv).1 hu with ⟨hh', _⟩ | ⟨_, _, _, ⟨⟩, hlo, _⟩
      · exact absurd hh hh'
      · exact absurd hlo (noHex4_iff.1 hno _ _)
    | misordered hv hh hsecond hl =>
      rcases (scalarEscape_iff hv).1 hu with ⟨hh', _⟩ | ⟨_, _, _, ⟨⟩, hlo, hl', _⟩
      · exact absurd hh hh'
      · rw [(hsecond.unique hlo).1] at hl
        exact absurd hl' hl
    | zero hv =>
      rcases (scalarEscape_iff hv).1 hu with ⟨_, _, hzero, _⟩ | ⟨hh, _⟩
      · exact hzero
      · exact absurd hh (by unfold IsHigh; omega)
  · intro h
    by_contra hbad
    -- the digits of the escape, and those of its second half behind a first surrogate
    obtain ⟨v, t, hv⟩ : ∃ v t, Hex4 s v t := by
      by_contra hno
      exact hbad (.noHex4 (noHex4_iff.2 fun v t hv => hno ⟨v, t, hv⟩))
    by_cases hh : IsHigh v
    · obtain ⟨s₁, rfl⟩ : ∃ s₁, t = 0x5c :: 0x75 :: s₁ := by
        by_contra hno
        exact hbad (.loneHigh hv hh fun s₁ heq => hno ⟨s₁, heq⟩)
      obtain ⟨lo, t', hlo⟩ : ∃ lo t', Hex4 s₁ lo t' := by
        by_contra hno
        exact hbad (.secondNoHex4 hv hh (noHex4_iff.2 fun lo t' hlo => hno ⟨lo, t', hlo⟩))
      by_cases hl : IsLow lo
      · exact ofSurrogates_ne_zero v lo (h _ _ (.pair hv hh hlo hl))
      · exact hbad (.misordered hv hh hlo hl)
    · by_cases hl : IsLow v
      · exact hbad (.loneLow hv hl)
      · have hzero := h v t (.single hv hh hl)
        rw [hzero] at hv
        exact hbad (.zero hv)

theorem Escape.unique {c b b' : UInt8} (h : Escape c b) (h' : Escape c b') : b = b' := by
  cases h <;> cases h' <;> rfl

theorem Escape.ne_unicode {c b : UInt8} (h : Escape c b) : c ≠ 0x75 := by
  cases h <;> decide

/-- A string has one reading. -/
theorem Str.unique {is is' : List StrItem} {s t t' : List UInt8} (h : Str is s t) (h' : Str is' s t') : is = is' ∧ t = t' := by
  induction h generalizing is' with
  | close =>
    cases h' with
    | close => exact ⟨rfl, rfl⟩
    | raw hq _ _ _ => exact absurd rfl hq
  | raw hq hb _ _ ih =>
    cases h' with
    | close => exact absurd rfl hq
    | raw _ _ _ h' =>
      obtain ⟨rfl, rfl⟩ := ih h'
      exact ⟨rfl, rfl⟩
    | escape _ _ => exact absurd rfl hb
    | unicode _ _ => exact absurd rfl hb
  | escape he _ ih =>
    cases h' with
    | raw _ hb _ _ => exact absurd rfl hb
    | escape he' h' =>
      obtain ⟨rfl, rfl⟩ := ih h'
      rw [he.unique he']
      exact ⟨rfl, rfl⟩
    | unicode _ _ => exact absurd rfl he.ne_unicode
  | unicode hu _ ih =>
    cases h' with
    | raw _ hb _ _ => exact absurd rfl hb
    | escape he _ => exact absurd rfl he.ne_unicode
    | unicode hu' h' =>
      obtain ⟨rfl, rfl⟩ := hu.unique hu'
      obtain ⟨rfl, rfl⟩ := ih h'
      exact ⟨rfl, rfl⟩

/-- Items decode to one string of bytes. -/
theorem Decodes.unique {ok : Nat → Prop} {is : List StrItem} {bs bs' : List UInt8} (h : Decodes ok is bs)
    (h' : Decodes ok is bs') : bs = bs' := by
  induction h generalizing bs' with
  | nil => cases h'; rfl
  | byte _ ih =>
    cases h' with
    | byte h' => rw [ih h']
  | scalar hh _ _ _ _ ih =>
    cases h' with
    | scalar _ _ _ _ h' => rw [ih h']
    | pair hh' _ _ _ => exact absurd hh' hh
  | pair hh hl _ _ ih =>
    cases h' with
    | scalar hh' _ _ _ _ => exact absurd hh hh'
    | pair _ _ _ h' => rw [ih h']

/-- A string takes at least its closing quote. -/
theorem Str.length_lt {is : List StrItem} {s t : List UInt8} (h : Str is s t) : t.length < s.length := by
  induction h with
  | close => exact Nat.lt_succ_self _
  | raw _ _ _ _ ih => exact Nat.lt_succ_of_lt ih
  | escape _ _ ih => exact Nat.lt_succ_of_lt (Nat.lt_succ_of_lt ih)
  | unicode hu _ ih =>
    cases hu with
    | mk _ _ _ _ => simp only [List.length_cons]; omega

/-! ## Numbers and values -/

/-- No byte comes next that a number could go on with. -/
def NumberEnd (s : List UInt8) : Prop := Ends (fun c => IsDigit c ∨ c = 0x2e ∨ c = 0x65 ∨ c = 0x45) s

theorem NumberEnd.digit {s : List UInt8} (h : NumberEnd s) : Ends IsDigit s := fun c t heq hc => h c t heq (Or.inl hc)

theorem NumberEnd.exp {s : List UInt8} (h : NumberEnd s) : Ends (fun c => c = 0x65 ∨ c = 0x45) s :=
  fun c t heq hc => h c t heq (Or.inr (Or.inr hc))

/-- A fraction ends before an exponent. -/
theorem ExpPart.ends {s t : List UInt8} (h : ExpPart s t) (ht : NumberEnd t) : Ends (fun c => IsDigit c ∨ c = 0x2e) s := by
  cases h with
  | absent => exact fun c t heq hc => ht c t heq (hc.imp_right Or.inl)
  | present hc _ _ => rcases hc with rfl | rfl <;> exact ends_cons (by unfold IsDigit; decide)

/-- The integer part ends before a fraction. -/
theorem FracPart.ends {s t : List UInt8} (h : FracPart s t) (ht : Ends (fun c => IsDigit c ∨ c = 0x2e) t) : Ends IsDigit s := by
  cases h with
  | absent => exact fun c t heq hc => ht c t heq (Or.inl hc)
  | present _ => exact ends_cons (by unfold IsDigit; decide)

/-- The integer part starts with a digit. -/
theorem IntPart.start {s t : List UInt8} (h : IntPart s t) : ∃ c s', s = c :: s' ∧ IsDigit c := by
  cases h with
  | zero => exact ⟨_, _, rfl, by unfold IsDigit; decide⟩
  | digits h h' _ => exact ⟨_, _, rfl, UInt8.le_trans (by decide) h, h'⟩

/-- A number starts with its sign or with a digit. -/
theorem Number.start {s t : List UInt8} (h : Number s t) : ∃ c s', s = c :: s' ∧ (c = 0x2d ∨ IsDigit c) := by
  cases h with
  | mk hm hi _ _ =>
    cases hm with
    | absent =>
      obtain ⟨c, s', rfl, hc⟩ := hi.start
      exact ⟨c, s', rfl, Or.inr hc⟩
    | present => exact ⟨_, _, rfl, Or.inl rfl⟩

theorem Digits.length_lt {s t : List UInt8} (h : Digits s t) : t.length < s.length := by
  cases h with
  | mk _ h => exact Nat.lt_succ_of_le h.length_le

theorem Minus.length_le {s t : List UInt8} (h : Minus s t) : t.length ≤ s.length := by
  cases h with
  | absent => exact Nat.le_refl _
  | present => exact Nat.le_succ _

theorem IntPart.length_lt {s t : List UInt8} (h : IntPart s t) : t.length < s.length := by
  cases h with
  | zero => exact Nat.lt_succ_self _
  | digits _ _ h => exact Nat.lt_succ_of_le h.length_le

theorem FracPart.length_le {s t : List UInt8} (h : FracPart s t) : t.length ≤ s.length := by
  cases h with
  | absent => exact Nat.le_refl _
  | present h => exact Nat.le_succ_of_le (Nat.le_of_lt h.length_lt)

theorem Sign.length_le {s t : List UInt8} (h : Sign s t) : t.length ≤ s.length := by
  cases h with
  | absent => exact Nat.le_refl _
  | plus => exact Nat.le_succ _
  | minus => exact Nat.le_succ _

theorem ExpPart.length_le {s t : List UInt8} (h : ExpPart s t) : t.length ≤ s.length := by
  cases h with
  | absent => exact Nat.le_refl _
  | present _ hs h => exact Nat.le_succ_of_le (Nat.le_trans (Nat.le_of_lt h.length_lt) hs.length_le)

theorem Number.length_lt {s t : List UInt8} (h : Number s t) : t.length < s.length := by
  cases h with
  | mk hm hi hf he =>
    exact Nat.lt_of_le_of_lt (Nat.le_trans he.length_le hf.length_le) (Nat.lt_of_lt_of_le hi.length_lt hm.length_le)

/-- A value starts neither with whitespace nor with what closes a container. -/
theorem Value.start {R : Rules} {d : Nat} {k : Kind} {s t : List UInt8} (h : Value R d k s t) :
    ∃ c s', s = c :: s' ∧ ¬ IsWs c ∧ c ≠ 0x5d ∧ c ≠ 0x7d := by
  cases h with
  | number h =>
    obtain ⟨c, s', rfl, hc⟩ := h.start
    refine ⟨c, s', rfl, ?_⟩
    rcases hc with rfl | hc
    · unfold IsWs
      decide
    · simp only [IsDigit, IsWs, UInt8.le_iff_toNat_le, ← UInt8.toNat_inj, UInt8.reduceToNat, ne_eq] at *
      omega
  | _ => exact ⟨_, _, rfl, by unfold IsWs; decide, by decide, by decide⟩

theorem Elements.start {R : Rules} {d : Nat} {s t : List UInt8} (h : Elements R d s t) :
    ∃ c s', s = c :: s' ∧ ¬ IsWs c ∧ c ≠ 0x5d := by
  cases h with
  | last h _ => exact h.start.imp fun c => .imp fun s' h => ⟨h.1, h.2.1, h.2.2.1⟩
  | more h _ _ _ => exact h.start.imp fun c => .imp fun s' h => ⟨h.1, h.2.1, h.2.2.1⟩

theorem Members.start {R : Rules} {d : Nat} {names : List (List StrItem)} {s t : List UInt8} (h : Members R d names s t) :
    ∃ s', s = 0x22 :: s' := by
  cases h <;> exact ⟨_, rfl⟩

/-- A value takes at least one byte: by induction over values, elements and members at once. -/
theorem Value.length_lt {R : Rules} {d : Nat} {k : Kind} {s t : List UInt8} (h : Value R d k s t) : t.length < s.length := by
  refine @Value.rec R (fun _ _ s t _ => t.length < s.length) (fun _ s t _ => t.length < s.length)
    (fun _ _ s t _ => t.length < s.length) ?str ?number ?true ?false ?null ?emptyArray ?array ?emptyObject ?object
    ?lastElement ?moreElements ?lastMember ?moreMembers d k s t h
  case str =>
    intro _ _ _ _ hs _
    exact Nat.lt_succ_of_lt hs.length_lt
  case number =>
    intro _ _ _ hn
    exact hn.length_lt
  case true | false | null =>
    intro _ _
    simp only [List.length_cons]
    omega
  case emptyArray | emptyObject =>
    intro _ _ _ hw
    exact Nat.lt_succ_of_lt (Nat.lt_of_succ_le hw.length_le)
  case array =>
    intro _ _ _ _ hw _ ih
    exact Nat.lt_succ_of_le (Nat.le_trans (Nat.le_of_lt ih) hw.length_le)
  case object =>
    intro _ _ _ _ _ hw _ _ ih
    exact Nat.lt_succ_of_le (Nat.le_trans (Nat.le_of_lt ih) hw.length_le)
  case lastElement =>
    intro _ _ _ _ _ _ hw ih
    exact Nat.lt_trans (Nat.lt_of_succ_le hw.length_le) ih
  case moreElements =>
    intro _ _ _ _ _ _ _ _ hw hw' _ hvalue ih
    have h₂ := hw.length_le
    have h₃ := hw'.length_le
    rw [List.length_cons] at h₂
    omega
  case lastMember =>
    intro _ _ _ _ _ _ _ _ _ hs _ hw hw' _ hw'' hvalue
    have h₁ := hs.length_lt
    have h₂ := hw.length_le
    have h₃ := hw'.length_le
    have h₄ := hw''.length_le
    rw [List.length_cons] at h₂ h₄ ⊢
    omega
  case moreMembers =>
    intro _ _ _ _ _ _ _ _ _ _ _ _ hs _ hw hw' _ hw₁ hw₂ _ hvalue ih
    have h₁ := hs.length_lt
    have h₂ := hw.length_le
    have h₃ := hw'.length_le
    have h₄ := hw₁.length_le
    have h₅ := hw₂.length_le
    rw [List.length_cons] at h₂ h₄ ⊢
    omega

end JsonGrammar
