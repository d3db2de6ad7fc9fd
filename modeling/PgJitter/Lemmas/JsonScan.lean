import PgJitter.JsonText
import PgJitter.Lib.JsonGrammar

/-!
# The scanners of the JSON text reader

Whitespace, digits, numbers and hexadecimal digits: what each scanner leaves is what the grammar leaves, where it leaves anything.
-/

namespace PgJitter

namespace JsonScanAux

open JsonGrammar

/-! ## Characters -/

@[simp] theorem deref_bind {α : Type} (c : Byte) (cur : List Byte) (f : Byte → Except PgTextHalt α) :
    (deref (c :: cur) >>= f) = f c := rfl

@[simp] theorem ok_bind {α β : Type} (a : α) (f : α → Except PgTextHalt β) : (Except.ok a >>= f) = f a := rfl

theorem isJsonWs_iff (c : Byte) : isJsonWs c = true ↔ IsWs c := by
  simp only [isJsonWs, IsWs, Bool.or_eq_true, beq_iff_eq]
  tauto

theorem isJsonDigit_iff (c : Byte) : isJsonDigit c = true ↔ IsDigit c := by
  simp only [isJsonDigit, IsDigit, Bool.and_eq_true, decide_eq_true_eq]

/-- Behind the whitespace that is skipped no more whitespace stands. -/
theorem skipJsonWs_spec (cur : List Byte) : Ws cur (skipJsonWs cur) ∧ Ends IsWs (skipJsonWs cur) := by
  induction cur with
  | nil => exact ⟨.nil, ends_nil⟩
  | cons c cur ih =>
    rw [skipJsonWs]
    split
    · next h => exact ⟨.cons ((isJsonWs_iff c).1 h) ih.1, ih.2⟩
    · next h => exact ⟨.nil, ends_cons fun hc => h ((isJsonWs_iff c).2 hc)⟩

theorem skipJsonWs_eq {cur t : List Byte} (h : Ws cur t) (ht : Ends IsWs t) : skipJsonWs cur = t :=
  (skipJsonWs_spec cur).1.unique h (skipJsonWs_spec cur).2 ht

theorem skipJsonWs_length_le (cur : List Byte) : (skipJsonWs cur).length ≤ cur.length := (skipJsonWs_spec cur).1.length_le

/-- Skipping whitespace finds a byte that is none. -/
theorem skipJsonWs_cons {cur t : List Byte} {c : Byte} (hc : ¬ IsWs c) : skipJsonWs cur = c :: t ↔ Ws cur (c :: t) :=
  ⟨fun h => h ▸ (skipJsonWs_spec cur).1, fun h => skipJsonWs_eq h (ends_cons hc)⟩

/-- What is skipped are digits, and no digit comes next. -/
theorem skipJsonDigits_spec (cur : List Byte) : Span IsDigit cur (skipJsonDigits cur) ∧ Ends IsDigit (skipJsonDigits cur) := by
  induction cur with
  | nil => exact ⟨.nil, ends_nil⟩
  | cons c cur ih =>
    rw [skipJsonDigits]
    split
    · next h => exact ⟨.cons ((isJsonDigit_iff c).1 h) ih.1, ih.2⟩
    · next h => exact ⟨.nil, ends_cons fun hc => h ((isJsonDigit_iff c).2 hc)⟩

theorem skipJsonDigits_eq {cur t : List Byte} (h : Span IsDigit cur t) (ht : Ends IsDigit t) : skipJsonDigits cur = t :=
  (skipJsonDigits_spec cur).1.unique h (skipJsonDigits_spec cur).2 ht

/-! ## Numbers -/

/-- A scanner ends, what it leaves is as the production `G` says, and when something is left as it says, and it is an end `E`,
the scanner leaves the same. -/
structure Scans (out : Except PgTextHalt (Option (List Byte))) (G : List Byte → Prop) (E : List Byte → Prop) : Prop where
  ends : ∃ res, out = .ok res
  sound : ∀ t, out = .ok (some t) → G t
  complete : ∀ t, G t → E t → out = .ok (some t)

theorem Scans.none {G E : List Byte → Prop} (h : ∀ t, G t → E t → False) : Scans (.ok none) G E :=
  ⟨⟨_, rfl⟩, fun _ h => (nomatch h), fun t hG hE => (h t hG hE).elim⟩

theorem Scans.some {G E : List Byte → Prop} {t : List Byte} (hG : G t) (h : ∀ t', G t' → E t' → t' = t) :
    Scans (.ok (some t)) G E :=
  ⟨⟨_, rfl⟩, fun _ heq => by cases heq; exact hG, fun t' hG hE => by rw [h t' hG hE]⟩

/-- At least one digit, and all that follow. -/
theorem numberDigits_scans (cur : List Byte) : Scans (numberDigits cur) (Digits cur) (Ends IsDigit) := by
  cases cur with
  | nil => exact .none fun t h _ => nomatch h
  | cons c cur =>
    simp only [numberDigits, reduceCtorEq, if_false, deref_bind, List.tail_cons]
    split
    · next hc =>
      refine .some (.mk ((isJsonDigit_iff c).1 hc) (skipJsonDigits_spec cur).1) fun t h ht => ?_
      cases h with
      | mk _ h => exact (skipJsonDigits_eq h ht).symm
    · next hc =>
      refine .none fun t h _ => ?_
      cases h with
      | mk hd _ => exact hc ((isJsonDigit_iff c).2 hd)

/-- The sign of a number, when there is more than the sign. -/
theorem numberSign_scans (cur : List Byte) :
    Scans (numberSign cur) (fun t => Minus cur t ∧ t ≠ []) fun t => ∃ c s, t = c :: s ∧ IsDigit c := by
  cases cur with
  | nil =>
    refine .none fun t h _ => ?_
    cases h.1 with
    | absent => exact h.2 rfl
  | cons c cur =>
    simp only [numberSign, reduceCtorEq, if_false, deref_bind]
    split
    · next hc =>
      subst hc
      split
      · next hcur =>
        refine .none ?_
        rintro t ⟨h, hne⟩ ⟨d, s, rfl, hd⟩
        cases h with
        | absent => exact absurd hd (by unfold IsDigit; decide)
        | present => exact hne hcur
      · next hcur =>
        refine .some ⟨.present, hcur⟩ ?_
        rintro t ⟨h, _⟩ ⟨d, s, rfl, hd⟩
        cases h with
        | absent => exact absurd hd (by unfold IsDigit; decide)
        | present => rfl
    · next hc =>
      refine .some ⟨.absent, List.cons_ne_nil _ _⟩ ?_
      rintro t ⟨h, _⟩ _
      cases h with
      | absent => rfl
      | present => exact absurd rfl hc

/-- The integer part: a zero alone, or digits that begin with another one. -/
theorem numberInt_scans {cur : List Byte} (hcur : cur ≠ []) : Scans (numberInt cur) (IntPart cur) (Ends IsDigit) := by
  obtain ⟨c, cur, rfl⟩ := List.exists_cons_of_ne_nil hcur
  simp only [numberInt, deref_bind, List.tail_cons]
  split
  · next hc =>
    subst hc
    refine .some .zero fun t h _ => ?_
    cases h with
    | zero => rfl
    | digits h _ _ => exact absurd h (by decide)
  · next hc =>
    split
    · next hd =>
      refine .some (.digits hd.1 hd.2 (skipJsonDigits_spec cur).1) fun t h ht => ?_
      cases h with
      | zero => exact absurd rfl hc
      | digits _ _ h => exact (skipJsonDigits_eq h ht).symm
    · next hd =>
      refine .none fun t h _ => ?_
      cases h with
      | zero => exact hc rfl
      | digits h h' _ => exact hd ⟨h, h'⟩

/-- The fraction: nothing without a point, and digits after one. -/
theorem numberFrac_scans (cur : List Byte) :
    Scans (numberFrac cur) (FracPart cur) (Ends fun c => IsDigit c ∨ c = 0x2e) := by
  cases cur with
  | nil =>
    refine .some .absent fun t h _ => ?_
    cases h with
    | absent => rfl
  | cons c cur =>
    simp only [numberFrac, reduceCtorEq, if_false, deref_bind, List.tail_cons]
    split
    · next hc =>
      subst hc
      have hs := numberDigits_scans cur
      refine ⟨hs.ends, fun t h => .present (hs.sound t h), fun t h ht => ?_⟩
      cases h with
      | absent => exact absurd (Or.inr rfl) (ht _ _ rfl)
      | present h => exact hs.complete t h fun c s heq hc => ht c s heq (Or.inl hc)
    · next hc =>
      refine .some .absent fun t h _ => ?_
      cases h with
      | absent => rfl
      | present _ => exact absurd rfl hc

/-- The exponent: nothing without its letter, and a sign and digits after one. -/
theorem numberExp_scans (cur : List Byte) : Scans (numberExp cur) (ExpPart cur) NumberEnd := by
  cases cur with
  | nil =>
    refine .some .absent fun t h _ => ?_
    cases h with
    | absent => rfl
  | cons c cur =>
    simp only [numberExp, reduceCtorEq, if_false, deref_bind, List.tail_cons]
    split
    · next hc =>
      cases cur with
      | nil =>
        have hs := numberDigits_scans []
        refine ⟨hs.ends, fun t h => .present hc .absent (hs.sound t h), fun t h ht => ?_⟩
        cases h with
        | absent => exact absurd hc (ht.exp _ _ rfl)
        | present _ hsg h =>
          cases hsg with
          | absent => exact hs.complete t h ht.digit
      | cons c' cur =>
        simp only [reduceCtorEq, if_false, deref_bind, List.tail_cons]
        split
        · next hc' =>
          have hs := numberDigits_scans cur
          refine ⟨hs.ends, fun t h => .present hc ?_ (hs.sound t h), fun t h ht => ?_⟩
          · rcases hc' with rfl | rfl
            · exact .plus
            · exact .minus
          · cases h with
            | absent => exact absurd hc (ht.exp _ _ rfl)
            | present _ hsg h =>
              cases hsg with
              | absent =>
                cases h with
                | mk hd _ => rcases hc' with rfl | rfl <;> exact absurd hd (by unfold IsDigit; decide)
              | plus => exact hs.complete t h ht.digit
              | minus => exact hs.complete t h ht.digit
        · next hc' =>
          have hs := numberDigits_scans (c' :: cur)
          refine ⟨hs.ends, fun t h => .present hc .absent (hs.sound t h), fun t h ht => ?_⟩
          cases h with
          | absent => exact absurd hc (ht.exp _ _ rfl)
          | present _ hsg h =>
            cases hsg with
            | absent => exact hs.complete t h ht.digit
            | plus => exact absurd (Or.inl rfl) hc'
            | minus => exact absurd (Or.inr rfl) hc'
    · next hc =>
      refine .some .absent fun t h _ => ?_
      cases h with
      | absent => rfl
      | present h _ _ => exact absurd h hc

/-- One scanner after another. -/
def andThen (out : Except PgTextHalt (Option (List Byte))) (f : List Byte → Except PgTextHalt (Option (List Byte))) :
    Except PgTextHalt (Option (List Byte)) := do
  match ← out with
  | none => return none
  | some cur => f cur

/-- The second scanner starts where the first one ends, if what the second one leaves is an end for it. -/
theorem Scans.andThen {out : Except PgTextHalt (Option (List Byte))} {f : List Byte → Except PgTextHalt (Option (List Byte))}
    {G₁ E₁ E₂ : List Byte → Prop} {G₂ : List Byte → List Byte → Prop} (h₁ : Scans out G₁ E₁)
    (h₂ : ∀ s, G₁ s → Scans (f s) (G₂ s) E₂) (hE : ∀ s t, G₁ s → G₂ s t → E₂ t → E₁ s) :
    Scans (andThen out f) (fun t => ∃ s, G₁ s ∧ G₂ s t) E₂ := by
  obtain ⟨res, hres⟩ := h₁.ends
  subst hres
  cases res with
  | none =>
    refine .none ?_
    rintro t ⟨s, hs, ht⟩ hend
    exact nomatch h₁.complete s hs (hE s t hs ht hend)
  | some s =>
    have hs := h₂ s (h₁.sound s rfl)
    refine ⟨hs.ends, fun t h => ⟨s, h₁.sound s rfl, hs.sound t h⟩, ?_⟩
    rintro t ⟨s', hs', ht⟩ hend
    have heq := h₁.complete s' hs' (hE s' t hs' ht hend)
    cases heq
    exact hs.complete t ht hend

/-- The scan of a whole number. -/
def numberScan (cur : List Byte) : Except PgTextHalt (Option (List Byte)) :=
  andThen (andThen (andThen (numberSign cur) numberInt) numberFrac) numberExp

/-- The parts of a number, one after the other. -/
theorem numberScan_scans (cur : List Byte) : Scans (numberScan cur) (Number cur) NumberEnd := by
  have h := (((numberSign_scans cur).andThen (fun s hs => numberInt_scans hs.2)
    fun _ _ _ hi _ => hi.start).andThen (fun s _ => numberFrac_scans s) fun _ _ _ hf ht => hf.ends ht).andThen
    (fun s _ => numberExp_scans s) fun _ _ _ he ht => he.ends ht
  refine ⟨h.ends, fun t ht => ?_, fun t ht hend => h.complete t ?_ hend⟩
  · obtain ⟨s₃, ⟨s₂, ⟨s₁, hm, hi⟩, hf⟩, he⟩ := h.sound t ht
    exact .mk hm.1 hi hf he
  · cases ht with
    | mk hm hi hf he =>
      refine ⟨_, ⟨_, ⟨_, ⟨hm, ?_⟩, hi⟩, hf⟩, he⟩
      obtain ⟨c, s, rfl, _⟩ := hi.start
      exact List.cons_ne_nil _ _

/-- The reader of numbers moves to where the scan ends. -/
theorem parseNumber_eq (r : PgReader) : parseNumber r = do
    match ← numberScan r.cur with
    | none => return (false, r)
    | some cur => return (true, { r with cur }) := by
  unfold parseNumber numberScan andThen
  simp only [bind_assoc]
  refine bind_congr fun res => ?_
  cases res with
  | none => rfl
  | some s₁ =>
    dsimp only
    refine bind_congr fun res => ?_
    cases res with
    | none => rfl
    | some s₂ =>
      dsimp only
      refine bind_congr fun res => ?_
      cases res with
      | none => rfl
      | some s₃ => rfl

/-! ## Escapes -/

/-- The value of a hexadecimal digit. -/
theorem jsonHexVal_eq_some {c : Byte} {v : Nat} : jsonHexVal c = some v ↔ Hex c v := by
  unfold jsonHexVal
  constructor
  · intro h
    split at h
    · next hc => cases h; exact .digit hc
    · split at h
      · next hc => cases h; exact .lower hc.1 hc.2
      · split at h
        · next hc => cases h; exact .upper hc.1 hc.2
        · exact nomatch h
  · intro h
    cases h with
    | digit hc => exact if_pos hc
    | lower h h' =>
      rw [if_neg fun hc => absurd (UInt8.le_trans h hc.2) (by decide), if_pos ⟨h, h'⟩]
    | upper h h' =>
      rw [if_neg fun hc => absurd (UInt8.le_trans h hc.2) (by decide),
        if_neg fun hc => absurd (UInt8.le_trans hc.1 h') (by decide), if_pos ⟨h, h'⟩]

theorem isJsonHex_iff {c : Byte} : isJsonHex c = true ↔ ∃ v, Hex c v := by
  have h : isJsonHex c = (jsonHexVal c).isSome := by
    unfold isJsonHex jsonHexVal
    split_ifs <;> simp_all
  rw [h, Option.isSome_iff_exists]
  exact exists_congr fun v => jsonHexVal_eq_some

/-- The digits put together by shifts are the digits put together by products. -/
theorem hex4_value {a b c d : Nat} (hb : b < 16) (hc : c < 16) (hd : d < 16) :
    a <<< 12 ||| b <<< 8 ||| c <<< 4 ||| d = ((a * 16 + b) * 16 + c) * 16 + d := by
  have h₁ : a <<< 12 ||| b <<< 8 = (a * 16 + b) <<< 8 := by
    rw [← Nat.shiftLeft_add_eq_or_of_lt (by rw [Nat.shiftLeft_eq]; omega)]
    simp only [Nat.shiftLeft_eq]
    omega
  have h₂ : (a * 16 + b) <<< 8 ||| c <<< 4 = ((a * 16 + b) * 16 + c) <<< 4 := by
    rw [← Nat.shiftLeft_add_eq_or_of_lt (by rw [Nat.shiftLeft_eq]; omega)]
    simp only [Nat.shiftLeft_eq]
    omega
  rw [h₁, h₂, ← Nat.shiftLeft_add_eq_or_of_lt (by omega), Nat.shiftLeft_eq]

/-- Four bytes that are there are read, and give the value of four digits if that is what they are. -/
theorem readHex4_spec (a b c d : Byte) (t : List Byte) :
    ∃ res, readHex4 (a :: b :: c :: d :: t) = .ok res ∧
      ∀ u t', Hex4 (a :: b :: c :: d :: t) u t' ↔ res = some u ∧ t' = t := by
  unfold readHex4
  simp only [List.drop_succ_cons, List.drop_zero, deref_bind]
  split
  · next va vb vc vd ha hb hc hd =>
    have hex : Hex4 (a :: b :: c :: d :: t) (((va * 16 + vb) * 16 + vc) * 16 + vd) t :=
      .mk (jsonHexVal_eq_some.1 ha) (jsonHexVal_eq_some.1 hb) (jsonHexVal_eq_some.1 hc) (jsonHexVal_eq_some.1 hd)
    rw [hex4_value (jsonHexVal_eq_some.1 hb).lt (jsonHexVal_eq_some.1 hc).lt (jsonHexVal_eq_some.1 hd).lt]
    refine ⟨_, rfl, fun u t' => ⟨fun h => ?_, ?_⟩⟩
    · obtain ⟨rfl, rfl⟩ := h.unique hex
      exact ⟨rfl, rfl⟩
    · rintro ⟨h, rfl⟩
      cases h
      exact hex
  · next hno =>
    refine ⟨_, rfl, fun u t' => ⟨fun h => ?_, fun h => absurd h.1.symm (Option.some_ne_none u)⟩⟩
    cases h with
    | mk ha hb hc hd =>
      exact (hno _ _ _ _ (jsonHexVal_eq_some.2 ha) (jsonHexVal_eq_some.2 hb) (jsonHexVal_eq_some.2 hc)
        (jsonHexVal_eq_some.2 hd)).elim

theorem exists_four {cur : List Byte} (h : ¬ cur.length < 4) : ∃ a b c d t, cur = a :: b :: c :: d :: t := by
  rcases cur with _ | ⟨a, _ | ⟨b, _ | ⟨c, _ | ⟨d, t⟩⟩⟩⟩
  · exact absurd (show 0 < 4 by omega) h
  · exact absurd (show 1 < 4 by omega) h
  · exact absurd (show 2 < 4 by omega) h
  · exact absurd (show 3 < 4 by omega) h
  · exact ⟨a, b, c, d, t, rfl⟩

/-- The four digits are skipped when they are four digits. -/
theorem skipHex4_scans (cur : List Byte) : Scans (skipHex4 cur) (fun t => ∃ u, Hex4 cur u t) fun _ => True := by
  unfold skipHex4
  split
  · next h =>
    refine .none ?_
    rintro t ⟨u, hu⟩ _
    have := hu.length
    omega
  · next h =>
    obtain ⟨a, b, c, d, t, rfl⟩ := exists_four h
    simp only [List.drop_succ_cons, List.drop_zero, deref_bind, Bool.and_eq_true]
    split
    · next h =>
      obtain ⟨⟨⟨ha, hb⟩, hc⟩, hd⟩ := h
      obtain ⟨va, ha⟩ := isJsonHex_iff.1 ha
      obtain ⟨vb, hb⟩ := isJsonHex_iff.1 hb
      obtain ⟨vc, hc⟩ := isJsonHex_iff.1 hc
      obtain ⟨vd, hd⟩ := isJsonHex_iff.1 hd
      refine .some ⟨_, .mk ha hb hc hd⟩ ?_
      rintro t' ⟨u, hu⟩ _
      exact (hu.unique (.mk ha hb hc hd)).2
    · next h =>
      refine .none ?_
      rintro t' ⟨u, hu⟩ _
      cases hu with
      | mk ha hb hc hd =>
        exact h ⟨⟨⟨isJsonHex_iff.2 ⟨_, ha⟩, isJsonHex_iff.2 ⟨_, hb⟩⟩, isJsonHex_iff.2 ⟨_, hc⟩⟩, isJsonHex_iff.2 ⟨_, hd⟩⟩

/-- The byte that a simple escape stands for. -/
theorem simpleEscape_eq_some {c b : Byte} : simpleEscape c = some b ↔ Escape c b := by
  constructor
  · unfold simpleEscape
    intro h
    split_ifs at h <;> cases h <;> subst c
    · exact .quote
    · exact .backslash
    · exact .slash
    · exact .backspace
    · exact .formFeed
    · exact .newline
    · exact .carriageReturn
    · exact .tab
  · intro h
    cases h <;> rfl

/-- The scalar value of a pair, put together by shifts. -/
theorem ofSurrogates_eq {hi lo : Nat} (hlo : IsLow lo) :
    0x10000 + ((hi - 0xD800) <<< 10 ||| (lo - 0xDC00)) = ofSurrogates hi lo := by
  unfold IsLow at hlo
  unfold ofSurrogates
  rw [← Nat.shiftLeft_add_eq_or_of_lt (by omega), Nat.shiftLeft_eq]
  omega

/-! ## Literals -/

theorem matchLiteral_eq {r : PgReader} {lit u : List Byte} (h : r.cur = lit ++ u) :
    matchLiteral r lit = (true, { r with cur := u }) := by
  unfold matchLiteral
  rw [h, if_neg (by rw [List.length_append]; omega), if_neg (by rw [List.take_left]; exact not_not.2 rfl), List.drop_left]

/-- A literal that is matched is what was read. -/
theorem matchLiteral_true {r r' : PgReader} {lit : List Byte} (h : matchLiteral r lit = (true, r')) :
    r.cur = lit ++ r'.cur ∧ r'.heap = r.heap := by
  unfold matchLiteral at h
  split at h
  · exact nomatch h
  · split at h
    · exact nomatch h
    · next htake =>
      cases h
      refine ⟨?_, rfl⟩
      conv_lhs => rw [← List.take_append_drop lit.length r.cur, not_not.1 htake]

theorem matchLiteral_heap (r : PgReader) (lit : List Byte) : (matchLiteral r lit).2.heap = r.heap := by
  unfold matchLiteral
  split_ifs <;> rfl

end JsonScanAux

end PgJitter
