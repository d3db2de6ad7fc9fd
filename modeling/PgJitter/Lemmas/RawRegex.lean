import PgJitter.RawRegex

/-!
# Helpers for `Theorems/RawRegex.lean`: the loop and the scan in step

What one iteration of the loop does, in a class and outside, and from it that the loop stands at the items of the scan, in a class where
the scan is inside a bracket expression and no character class of it is past.
-/

namespace PgJitter
namespace RawRegexAux

variable {cap patlen : Nat} {buf buf' str rest after pattern : List Byte} {c e : Byte} {s s' : RawRegexState}

/-! ## The output grows -/

theorem append_some (h : pcre2RegexAppend cap buf str = some buf') : buf' = buf ++ str := by
  unfold pcre2RegexAppend at h
  split at h
  · exact nomatch h
  · exact (Option.some.inj h).symm

theorem appendByte_some (h : pcre2RegexAppendByte cap buf c = some buf') : buf' = buf ++ [c] := by
  unfold pcre2RegexAppendByte at h
  split at h
  · exact nomatch h
  · exact (Option.some.inj h).symm

theorem appendBytes_some (h : pcre2RegexAppendBytes cap buf str = some buf') : buf' = buf ++ str := by
  unfold pcre2RegexAppendBytes at h
  induction str generalizing buf with
  | nil =>
    obtain rfl : buf = buf' := by simpa using h
    exact (List.append_nil buf).symm
  | cons c str ih =>
    rw [List.foldlM_cons] at h
    obtain ⟨mid, hmid, h⟩ := Option.bind_eq_some_iff.1 h
    rw [ih h, appendByte_some hmid, List.append_assoc, List.singleton_append]

theorem appendCodepoint_some {codepoint : Nat} (h : rawRegexAppendCodepoint cap buf codepoint = some buf') : buf <+: buf' := by
  unfold rawRegexAppendCodepoint at h
  split at h
  · exact nomatch h
  · rw [append_some h]
    exact List.prefix_append _ _

/-- The code point of an escape is appended, and it takes what `plainEscape` says. -/
theorem appendPlainEscape_some {n : Nat} (h : rawRegexAppendPlainEscape cap buf e after = some (buf', n)) :
    buf <+: buf' ∧ ((plainEscape e after).map Prod.snd).getD 0 = n := by
  obtain ⟨⟨codepoint, n'⟩, hplain, h⟩ := Option.bind_eq_some_iff.1 h
  obtain ⟨mid, hmid, heq⟩ := Option.map_eq_some_iff.1 h
  obtain ⟨rfl, rfl⟩ := Prod.mk.inj heq
  exact ⟨appendCodepoint_some hmid, by rw [hplain]; rfl⟩

/-- A text that is appended, with what goes with it. -/
theorem map_append_some {α : Type} {a b : α} (h : (pcre2RegexAppend cap buf str).map (fun buf => (buf, a)) = some (buf', b)) :
    buf <+: buf' ∧ a = b := by
  obtain ⟨mid, hmid, heq⟩ := Option.map_eq_some_iff.1 h
  obtain ⟨rfl, rfl⟩ := Prod.mk.inj heq
  rw [append_some hmid]
  exact ⟨List.prefix_append _ _, rfl⟩

/-- Bytes that are appended, with what goes with them. -/
theorem map_appendBytes_some {α : Type} {a b : α}
    (h : (pcre2RegexAppendBytes cap buf str).map (fun buf => (buf, a)) = some (buf', b)) : buf <+: buf' ∧ a = b := by
  obtain ⟨mid, hmid, heq⟩ := Option.map_eq_some_iff.1 h
  obtain ⟨rfl, rfl⟩ := Prod.mk.inj heq
  rw [appendBytes_some hmid]
  exact ⟨List.prefix_append _ _, rfl⟩

/-! ## Escapes -/

/-- The bytes that an escape takes after its letter. -/
def extra (e : Byte) (after : List Byte) : Nat := ((plainEscape e after).map Prod.snd).getD 0

/-- A case of an escape that takes no more bytes. -/
theorem ite_takes_none {p : Prop} [Decidable p] {a b : Option (Nat × Nat)} (ha : p → (a.map Prod.snd).getD 0 = 0)
    (hb : (b.map Prod.snd).getD 0 = 0) : ((if p then a else b).map Prod.snd).getD 0 = 0 := by
  split
  · exact ha ‹_›
  · exact hb

/-- Only five letters take more bytes. -/
theorem extra_eq_zero (h : e ∉ [ch 'c', ch 'u', ch 'U', ch 'x', ch '0']) : extra e after = 0 := by
  have hne : ∀ d ∈ [ch 'c', ch 'u', ch 'U', ch 'x', ch '0'], e ≠ d := fun d hd heq => h (heq ▸ hd)
  obtain ⟨hc, hne⟩ := List.forall_mem_cons.1 hne
  obtain ⟨hu, hne⟩ := List.forall_mem_cons.1 hne
  obtain ⟨hU, hne⟩ := List.forall_mem_cons.1 hne
  obtain ⟨hx, hne⟩ := List.forall_mem_cons.1 hne
  obtain ⟨h0, -⟩ := List.forall_mem_cons.1 hne
  unfold extra plainEscape
  -- `a`, `b`, `B`
  refine ite_takes_none (fun _ => rfl) (ite_takes_none (fun _ => rfl) (ite_takes_none (fun _ => rfl) ?_))
  -- `c`, `e`, `f`
  refine ite_takes_none (fun heq => absurd heq hc) (ite_takes_none (fun _ => rfl) (ite_takes_none (fun _ => rfl) ?_))
  -- `n`, `r`, `t`
  refine ite_takes_none (fun _ => rfl) (ite_takes_none (fun _ => rfl) (ite_takes_none (fun _ => rfl) ?_))
  -- `u`, `U`, `v`
  refine ite_takes_none (fun heq => absurd heq hu) (ite_takes_none (fun heq => absurd heq hU) (ite_takes_none (fun _ => rfl) ?_))
  -- `x`, `0`
  exact ite_takes_none (fun heq => absurd heq hx) (ite_takes_none (fun heq => absurd heq h0) rfl)

/-- The letters of two lists differ. -/
theorem not_mem_of_all {l l' : List Byte} (h : l.all (fun e => !l'.contains e) = true) (he : e ∈ l) : e ∉ l' := by
  have hnot := List.all_eq_true.1 h e he
  simpa using hnot

/-- The letters of one list are among those of another. -/
theorem mem_of_all {l l' : List Byte} (h : l.all (fun e => l'.contains e) = true) (he : e ∈ l) : e ∈ l' := by
  have hmem := List.all_eq_true.1 h e he
  simpa using hmem

/-- A check that chooses. -/
theorem ite_some_cases {α : Type} {p : Prop} [Decidable p] {o o' : Option α} {a : α} (h : (if p then o else o') = some a) :
    p ∧ o = some a ∨ ¬ p ∧ o' = some a := by
  split at h
  · exact .inl ⟨‹_›, h⟩
  · exact .inr ⟨‹_›, h⟩

/-- A check that gives up. -/
theorem ite_none_some {α : Type} {p : Prop} [Decidable p] {o : Option α} {a : α} (h : (if p then none else o) = some a) :
    ¬ p ∧ o = some a := by
  rcases ite_some_cases h with ⟨-, h⟩ | h
  · exact nomatch h
  · exact h

/-- What an escape of a class takes. -/
theorem classEscape_some {n : Nat} (h : rawRegexClassEscape cap buf e after = some (buf', n)) : buf <+: buf' ∧ extra e after = n := by
  unfold rawRegexClassEscape at h
  rcases ite_some_cases h with ⟨hletter, h⟩ | ⟨-, h⟩
  · obtain ⟨hbuf, rfl⟩ := map_appendBytes_some h
    exact ⟨hbuf, extra_eq_zero (not_mem_of_all (by decide) hletter)⟩
  rcases ite_some_cases h with ⟨-, h⟩ | ⟨hplain, h⟩
  · exact appendPlainEscape_some h
  obtain ⟨-, h⟩ := ite_none_some h
  obtain ⟨mid, hmid, heq⟩ := Option.map_eq_some_iff.1 h
  obtain ⟨rfl, rfl⟩ := Prod.mk.inj heq
  exact ⟨appendCodepoint_some hmid, extra_eq_zero fun hmem => hplain (mem_of_all (by decide) hmem)⟩

/-- A byte that is no letter of an escape with more bytes. -/
theorem not_mem_of_digit (h : e ≥ ch '1' ∧ e ≤ ch '9') : e ∉ [ch 'c', ch 'u', ch 'U', ch 'x', ch '0'] := by
  have hlow : 0x31 ≤ e.toNat := UInt8.le_iff_toNat_le.1 h.1
  have hhigh : e.toNat ≤ 0x39 := UInt8.le_iff_toNat_le.1 h.2
  simp only [List.mem_cons, List.not_mem_nil, or_false]
  rintro (rfl | rfl | rfl | rfl | rfl) <;> revert hlow hhigh <;> decide

/-- A constraint takes no more bytes. -/
theorem constraint_some {d : Byte} {n : Nat} {constraint : Bool}
    (h : (pcre2RegexAppend cap buf str).map (fun buf => (buf, 0, true)) = some (buf', n, constraint)) (he : e = d)
    (hd : [d].all (fun e => !List.contains [ch 'c', ch 'u', ch 'U', ch 'x', ch '0'] e) = true) : buf <+: buf' ∧ extra e after = n := by
  obtain ⟨hbuf, hn⟩ := map_append_some h
  exact ⟨hbuf, (extra_eq_zero (not_mem_of_all hd (List.mem_singleton.2 he))).trans (congrArg Prod.fst hn)⟩

/-- What an escape outside a class takes. -/
theorem atomEscape_some {depth n : Nat} {constraint : Bool}
    (h : rawRegexAtomEscape cap buf e after depth = some (buf', n, constraint)) : buf <+: buf' ∧ extra e after = n := by
  unfold rawRegexAtomEscape at h
  rcases ite_some_cases h with ⟨hA, h⟩ | ⟨-, h⟩
  · exact constraint_some h hA (by decide)
  rcases ite_some_cases h with ⟨hZ, h⟩ | ⟨-, h⟩
  · exact constraint_some h hZ (by decide)
  rcases ite_some_cases h with ⟨hy, h⟩ | ⟨-, h⟩
  · exact constraint_some h hy (by decide)
  rcases ite_some_cases h with ⟨hY, h⟩ | ⟨-, h⟩
  · exact constraint_some h hY (by decide)
  rcases ite_some_cases h with ⟨hm, h⟩ | ⟨-, h⟩
  · exact constraint_some h hm (by decide)
  rcases ite_some_cases h with ⟨hM, h⟩ | ⟨-, h⟩
  · exact constraint_some h hM (by decide)
  rcases ite_some_cases h with ⟨-, h⟩ | ⟨hplain, h⟩
  · obtain ⟨⟨mid, n'⟩, hmid, heq⟩ := Option.map_eq_some_iff.1 h
    obtain ⟨rfl, hrest⟩ := Prod.mk.inj heq
    obtain ⟨rfl, -⟩ := Prod.mk.inj hrest
    exact appendPlainEscape_some hmid
  rcases ite_some_cases h with ⟨hletter, h⟩ | ⟨-, h⟩
  · obtain ⟨-, h⟩ := ite_none_some h
    obtain ⟨-, h⟩ := ite_none_some h
    obtain ⟨hbuf, hn⟩ := map_appendBytes_some h
    refine ⟨hbuf, (extra_eq_zero ?_).trans (congrArg Prod.fst hn)⟩
    rcases hletter with hletter | hdigit
    · exact not_mem_of_all (by decide) hletter
    · exact not_mem_of_digit hdigit
  obtain ⟨-, h⟩ := ite_none_some h
  obtain ⟨hbuf, hn⟩ := map_appendBytes_some h
  exact ⟨hbuf, (extra_eq_zero fun hmem => hplain (mem_of_all (by decide) hmem)).trans (congrArg Prod.fst hn)⟩

/-! ## One iteration -/

/-- The iterations in a class, by the byte they are at. -/
inductive ClassStep (c : Byte) (after : List Byte) (s s' : RawRegexState) : Prop where
  | escape (hc : c = backslash) (hi : s'.i = s.i + escapeLength (c :: after)) (hclass : s'.inClass = true)
      (hfirst : s'.classFirst = false) (hbuf : s.buf <+: s'.buf)
  | close (hc : c = closeBracket) (hnot : s.classFirst = false) (hi : s'.i = s.i + 1) (hclass : s'.inClass = false)
      (hbuf : s'.buf = s.buf ++ [c])
  | caret (hc : c = caret) (hwas : s.classFirst = true) (hnot : s.classAfterLeadingCaret = false) (hi : s'.i = s.i + 1)
      (hclass : s'.inClass = true) (hfirst : s'.classFirst = true) (hcaret : s'.classAfterLeadingCaret = true)
      (hbuf : s'.buf = s.buf ++ [c])
  | byte (hslash : c ≠ backslash) (hclose : ¬ (c = closeBracket ∧ s.classFirst = false))
      (hcaret : ¬ (s.classFirst = true ∧ c = PgJitter.caret ∧ s.classAfterLeadingCaret = false)) (hi : s'.i = s.i + 1)
      (hclass : s'.inClass = true) (hfirst : s'.classFirst = false) (hbuf : s'.buf = s.buf ++ [c])

/-- The length of an escape. -/
theorem escapeLength_cons (c e : Byte) (after : List Byte) : escapeLength (c :: e :: after) = 2 + extra e after := rfl

/-- The iterations in a class are of these kinds. -/
theorem classStep_cases (h : rawRegexClassStep cap (c :: after) s = some s') (hin : s.inClass = true) : ClassStep c after s s' := by
  unfold rawRegexClassStep at h
  dsimp only at h
  by_cases hslash : c = backslash
  · rw [if_pos hslash] at h
    cases after with
    | nil => exact nomatch h
    | cons e after =>
      obtain ⟨⟨buf, n⟩, hescape, rfl⟩ := Option.map_eq_some_iff.1 h
      obtain ⟨hbuf, hn⟩ := classEscape_some hescape
      exact .escape hslash (by rw [escapeLength_cons, hn, Nat.add_assoc]) hin rfl hbuf
  · rw [if_neg hslash] at h
    obtain ⟨-, h⟩ := ite_none_some h
    obtain ⟨buf, happend, rfl⟩ := Option.map_eq_some_iff.1 h
    have hbuf := appendByte_some happend
    split_ifs with hclose hcaret
    · exact .close hclose.1 hclose.2 rfl rfl hbuf
    · exact .caret hcaret.2.1 hcaret.1 hcaret.2.2 rfl hin hcaret.1 rfl hbuf
    · exact .byte hslash hclose hcaret rfl hin rfl hbuf

/-- The iterations outside a class, by the byte they are at. -/
inductive AtomStep (c : Byte) (after : List Byte) (s s' : RawRegexState) : Prop where
  | constraint (hc : c = openBracket) (hword : (rawRegexWordConstraint (c :: after)).isSome = true) (hi : s'.i = s.i + 7)
      (hclass : s'.inClass = s.inClass) (hbuf : s.buf <+: s'.buf)
  | open (hc : c = openBracket) (hword : (rawRegexWordConstraint (c :: after)).isSome = false) (hi : s'.i = s.i + 1)
      (hclass : s'.inClass = true) (hfirst : s'.classFirst = true) (hcaret : s'.classAfterLeadingCaret = false)
      (hbuf : s'.buf = s.buf ++ [c])
  | dollar (hc : c = dollar) (hi : s'.i = s.i + 1) (hclass : s'.inClass = s.inClass) (hbuf : s'.buf = s.buf ++ endText)
  | escape (hc : c = backslash) (hi : s'.i = s.i + escapeLength (c :: after)) (hclass : s'.inClass = s.inClass)
      (hbuf : s.buf <+: s'.buf)
  | group (hc : c = openParen) (hi : s'.i = s.i + ((rawRegexSupportedGroupIntro (c :: after)).map Prod.fst).getD 1)
      (hclass : s'.inClass = s.inClass) (hbuf : s.buf <+: s'.buf)
  | byte (hbracket : c ≠ openBracket) (hdollar : c ≠ PgJitter.dollar) (hslash : c ≠ backslash) (hparen : c ≠ openParen)
      (hi : s'.i = s.i + 1) (hclass : s'.inClass = s.inClass) (hbuf : s'.buf = s.buf ++ [c])

/-- An opening of a group goes past its intro. -/
theorem openGroup_some (h : rawRegexOpenGroup cap patlen rest s = some s') :
    s'.i = s.i + ((rawRegexSupportedGroupIntro rest).map Prod.fst).getD 1 ∧ s'.inClass = s.inClass ∧ s.buf <+: s'.buf := by
  unfold rawRegexOpenGroup at h
  split_ifs at h with hdepth hstar hquestion hlook
  · obtain ⟨⟨introLen, look⟩, hintro, h⟩ := Option.bind_eq_some_iff.1 h
    obtain ⟨buf, happend, rfl⟩ := Option.map_eq_some_iff.1 h
    rw [hintro, appendBytes_some happend]
    exact ⟨rfl, rfl, List.prefix_append _ _⟩
  · obtain ⟨buf, happend, rfl⟩ := Option.map_eq_some_iff.1 h
    rw [rawRegexSupportedGroupIntro, if_neg fun hboth => hquestion hboth.2, append_some happend]
    exact ⟨rfl, rfl, List.prefix_append _ _⟩
  · obtain ⟨buf, happend, rfl⟩ := Option.map_eq_some_iff.1 h
    rw [rawRegexSupportedGroupIntro, if_neg fun hboth => hquestion hboth.2, appendByte_some happend]
    exact ⟨rfl, rfl, List.prefix_append _ _⟩

/-- The iterations outside a class are of these kinds. -/
theorem atomStep_cases (h : rawRegexAtomStep cap patlen (c :: after) s = some s') : AtomStep c after s s' := by
  unfold rawRegexAtomStep at h
  dsimp only at h
  obtain ⟨-, h⟩ := ite_none_some h
  by_cases hbracket : c = openBracket
  · rw [if_pos hbracket] at h
    cases hword : rawRegexWordConstraint (c :: after) with
    | some kind =>
      rw [hword] at h
      obtain ⟨buf, happend, rfl⟩ := Option.map_eq_some_iff.1 h
      refine .constraint hbracket (by rw [hword]; rfl) rfl rfl ?_
      rw [append_some happend]
      exact List.prefix_append _ _
    | none =>
      rw [hword] at h
      obtain ⟨-, h⟩ := ite_none_some h
      obtain ⟨buf, happend, rfl⟩ := Option.map_eq_some_iff.1 h
      exact .open hbracket (by rw [hword]; rfl) rfl rfl rfl rfl (appendByte_some happend)
  rw [if_neg hbracket] at h
  split_ifs at h with hdollar hcaret hbrace hslash hparen hclose hplus
  · obtain ⟨buf, happend, rfl⟩ := Option.map_eq_some_iff.1 h
    exact .dollar hdollar rfl rfl (append_some happend)
  · obtain ⟨buf, happend, rfl⟩ := Option.map_eq_some_iff.1 h
    have hslash : c ≠ backslash := by rw [hcaret]; decide
    have hparen : c ≠ openParen := by rw [hcaret]; decide
    exact .byte hbracket hdollar hslash hparen rfl rfl (appendByte_some happend)
  · cases after with
    | nil => exact nomatch h
    | cons e after =>
      obtain ⟨⟨buf, n, constraint⟩, hescape, rfl⟩ := Option.map_eq_some_iff.1 h
      obtain ⟨hbuf, hn⟩ := atomEscape_some hescape
      exact .escape hslash (by rw [escapeLength_cons, hn, Nat.add_assoc]) rfl hbuf
  · obtain ⟨hi, hclass, hbuf⟩ := openGroup_some h
    exact .group hparen hi hclass hbuf
  · obtain ⟨buf, happend, rfl⟩ := Option.map_eq_some_iff.1 h
    refine .byte hbracket hdollar hslash hparen rfl rfl ?_
    rw [hclose]
    exact appendByte_some happend
  · obtain ⟨buf, happend, rfl⟩ := Option.map_eq_some_iff.1 h
    exact .byte hbracket hdollar hslash hparen rfl rfl (appendByte_some happend)

/-! ## The loop and the scan -/

/-- What is left of a character class, with so many bytes: letters and colons, and the `]`. -/
def ElementLeft (left : Nat) (rest : List Byte) : Prop :=
  ∃ w t, rest = w ++ closeBracket :: t ∧ w.length + 1 = left ∧ ∀ c ∈ w, c = colon ∨ rawRegexAsciiIsAlnum c = true

/-- The bytes of a character class before its `]` are plain. -/
theorem plain_of_element (h : c = colon ∨ rawRegexAsciiIsAlnum c = true) : c ≠ backslash ∧ c ≠ closeBracket ∧ c ≠ caret := by
  rcases h with rfl | h
  · decide
  · refine ⟨?_, ?_, ?_⟩ <;> rintro rfl <;> exact absurd h (by decide)

/-- A character class after its `[`. -/
theorem classElementLength_some {length : Nat} (h : classElementLength (c :: after) = some length) :
    c = openBracket ∧ after.head? = some colon ∧ ElementLeft (length - 1) after ∧ length - 1 ≠ 1 := by
  unfold classElementLength at h
  dsimp only at h
  split_ifs at h with hshape
  obtain ⟨hopen, hclose⟩ := hshape
  obtain rfl := Option.some.inj h
  cases after with
  | nil => exact absurd hopen (by simp)
  | cons d name =>
    obtain ⟨rfl, rfl⟩ : c = openBracket ∧ d = colon := by simpa using hopen
    -- the name, and what stands after it
    generalize hword : List.takeWhile rawRegexAsciiIsAlnum ((openBracket :: colon :: name).drop 2) = word at hclose ⊢
    have hsplit : name = word ++ name.drop word.length := by
      rw [← hword]
      exact (List.prefix_iff_eq_append.1 (List.takeWhile_prefix rawRegexAsciiIsAlnum)).symm
    rw [Nat.add_comm, List.drop_succ_cons, List.drop_succ_cons] at hclose
    obtain ⟨t, ht⟩ : ∃ t, name.drop word.length = colon :: closeBracket :: t :=
      ⟨_, (List.take_append_drop 2 _).symm.trans (by rw [hclose]; rfl)⟩
    refine ⟨rfl, rfl, ⟨colon :: word ++ [colon], t, ?_, by simp, ?_⟩, by omega⟩
    · rw [hsplit, ht]
      simp
    · intro d hd
      simp only [List.cons_append, List.mem_cons, List.mem_append, List.not_mem_nil, or_false] at hd
      rcases hd with rfl | hd | rfl
      · exact .inl rfl
      · rw [← hword] at hd
        exact .inr (List.all_eq_true.1 List.all_takeWhile d hd)
      · exact .inl rfl

/-- Where the loop stands in a class, by the place of the item. -/
def Agrees (mode : BracketMode) (rest : List Byte) (s : RawRegexState) : Prop :=
  match mode with
  | .outside => s.inClass = false
  | .first afterCaret => s.inClass = true ∧ s.classFirst = true ∧ s.classAfterLeadingCaret = afterCaret
  | .inside false => s.inClass = true ∧ s.classFirst = false
  | .inside true => s.inClass = false
  | .element left => s.inClass = true ∧ ElementLeft left rest ∧ (s.classFirst = true → left ≠ 1)

/-- A character class is not the start of a word constraint. -/
theorem wordConstraint_of_colon (h : after.head? = some colon) : (rawRegexWordConstraint (c :: after)).isSome = false := by
  cases after with
  | nil => exact nomatch h
  | cons d after =>
    obtain rfl : d = colon := Option.some.inj h
    rw [rawRegexWordConstraint, if_neg]
    · rfl
    · rintro ⟨hopen, -⟩
      rw [List.take_succ_cons, List.take_succ_cons] at hopen
      exact absurd (List.cons.inj (List.cons.inj hopen).2).1 (by decide)

/-- An item outside the bracket expressions. -/
theorem agrees_outside (h : AtomStep c after s s') (hclass : s.inClass = false) :
    s'.i = s.i + (BracketMode.outside.next (c :: after)).1 ∧
      Agrees (BracketMode.outside.next (c :: after)).2 ((c :: after).drop (BracketMode.outside.next (c :: after)).1) s' := by
  simp only [BracketMode.next, List.head?_cons, Option.some.injEq]
  cases h with
  | constraint hc hword hi hsame hbuf =>
    rw [if_pos hc, if_pos hword]
    exact ⟨hi, hsame.trans hclass⟩
  | «open» hc hword hi hin hfirst hcaret hbuf =>
    rw [if_pos hc, if_neg (by rw [hword]; exact Bool.false_ne_true)]
    exact ⟨hi, hin, hfirst, hcaret⟩
  | dollar hc hi hsame hbuf =>
    rw [hc, if_neg (by decide), if_neg (by decide), if_neg (by decide)]
    exact ⟨hi, hsame.trans hclass⟩
  | escape hc hi hsame hbuf =>
    rw [if_neg (by rw [hc]; decide), if_pos hc]
    exact ⟨hi, hsame.trans hclass⟩
  | group hc hi hsame hbuf =>
    rw [if_neg (by rw [hc]; decide), if_neg (by rw [hc]; decide), if_pos hc]
    exact ⟨hi, hsame.trans hclass⟩
  | byte hbracket hdollar hslash hparen hi hsame hbuf =>
    rw [if_neg hbracket, if_neg hslash, if_neg hparen]
    exact ⟨hi, hsame.trans hclass⟩

/-- An item after a character class. -/
theorem agrees_tail (h : AtomStep c after s s') (hclass : s.inClass = false) (htail : TailPlain (c :: after)) :
    s'.i = s.i + ((BracketMode.inside true).next (c :: after)).1 ∧
      Agrees ((BracketMode.inside true).next (c :: after)).2
        ((c :: after).drop ((BracketMode.inside true).next (c :: after)).1) s' := by
  obtain ⟨hdollar, hparen, hopen⟩ := htail
  simp only [List.head?_cons, ne_eq, Option.some.injEq] at hdollar hparen hopen
  simp only [BracketMode.next, List.head?_cons, Option.some.injEq]
  cases h with
  | constraint hc hword hi hsame hbuf =>
    obtain ⟨length, hlength⟩ := Option.isSome_iff_exists.1 (hopen hc)
    obtain ⟨-, hcolon, -, -⟩ := classElementLength_some hlength
    rw [wordConstraint_of_colon hcolon] at hword
    exact absurd hword Bool.false_ne_true
  | «open» hc hword hi hin hfirst hcaret hbuf =>
    obtain ⟨length, hlength⟩ := Option.isSome_iff_exists.1 (hopen hc)
    obtain ⟨-, -, hleft, hlong⟩ := classElementLength_some hlength
    rw [if_neg (by rw [hc]; decide), if_neg (by rw [hc]; decide), hlength]
    exact ⟨hi, hin, hleft, fun _ => hlong⟩
  | dollar hc hi hsame hbuf => exact absurd hc hdollar
  | escape hc hi hsame hbuf =>
    rw [if_neg (by rw [hc]; decide), if_pos hc]
    exact ⟨hi, hsame.trans hclass⟩
  | group hc hi hsame hbuf => exact absurd hc hparen
  | byte hbracket _ hslash _ hi hsame hbuf =>
    have hnone : classElementLength (c :: after) = none := by
      rw [Option.eq_none_iff_forall_not_mem]
      exact fun length hlength => hbracket (classElementLength_some hlength).1
    rw [if_neg hslash, hnone]
    split
    · exact ⟨hi, hsame.trans hclass⟩
    · exact ⟨hi, hsame.trans hclass⟩

/-- The first item of a bracket expression. -/
theorem agrees_first {afterCaret : Bool} (h : ClassStep c after s s') (hwas : s.classFirst = true)
    (hcaret : s.classAfterLeadingCaret = afterCaret) :
    s'.i = s.i + ((BracketMode.first afterCaret).next (c :: after)).1 ∧
      Agrees ((BracketMode.first afterCaret).next (c :: after)).2
        ((c :: after).drop ((BracketMode.first afterCaret).next (c :: after)).1) s' := by
  simp only [BracketMode.next, List.head?_cons, Option.some.injEq]
  cases h with
  | escape hc hi hin hfirst hbuf =>
    rw [if_neg (by rw [hc]; exact fun h => absurd h.1 (by decide)), if_pos hc]
    exact ⟨hi, hin, hfirst⟩
  | close hc hnot hi hin hbuf => exact absurd hwas (by rw [hnot]; exact Bool.false_ne_true)
  | caret hc _ hnot hi hin hfirst hafter hbuf =>
    rw [if_pos ⟨hc, by rw [← hcaret, hnot]⟩]
    exact ⟨hi, hin, hfirst, hafter⟩
  | byte hslash hclose hnot hi hin hfirst hbuf =>
    rw [if_neg fun h => hnot ⟨hwas, h.1, hcaret.trans h.2⟩, if_neg hslash]
    cases hlength : classElementLength (c :: after) with
    | none => exact ⟨hi, hin, hfirst⟩
    | some length =>
      obtain ⟨-, -, hleft, hlong⟩ := classElementLength_some hlength
      exact ⟨hi, hin, hleft, fun _ => hlong⟩

/-- A later item of a bracket expression, before any character class. -/
theorem agrees_inside_false (h : ClassStep c after s s') (hwas : s.classFirst = false) :
    s'.i = s.i + ((BracketMode.inside false).next (c :: after)).1 ∧
      Agrees ((BracketMode.inside false).next (c :: after)).2
        ((c :: after).drop ((BracketMode.inside false).next (c :: after)).1) s' := by
  simp only [BracketMode.next, List.head?_cons, Option.some.injEq]
  cases h with
  | escape hc hi hin hfirst hbuf =>
    rw [if_neg (by rw [hc]; decide), if_pos hc]
    exact ⟨hi, hin, hfirst⟩
  | close hc hnot hi hin hbuf =>
    rw [if_pos hc]
    exact ⟨hi, hin⟩
  | caret _ hfirst _ _ _ _ _ _ => exact absurd hfirst (by rw [hwas]; exact Bool.false_ne_true)
  | byte hslash hclose hnot hi hin hfirst hbuf =>
    rw [if_neg fun h => hclose ⟨h, hwas⟩, if_neg hslash]
    cases hlength : classElementLength (c :: after) with
    | none => exact ⟨hi, hin, hfirst⟩
    | some length =>
      obtain ⟨-, -, hleft, hlong⟩ := classElementLength_some hlength
      exact ⟨hi, hin, hleft, fun _ => hlong⟩

/-- A byte of a character class; its `]` ends the class for the loop. -/
theorem agrees_element {left : Nat} (h : ClassStep c after s s') (hleft : ElementLeft left (c :: after))
    (hlong : s.classFirst = true → left ≠ 1) :
    s'.i = s.i + ((BracketMode.element left).next (c :: after)).1 ∧
      Agrees ((BracketMode.element left).next (c :: after)).2
        ((c :: after).drop ((BracketMode.element left).next (c :: after)).1) s' := by
  obtain ⟨w, t, hrest, hlen, hplain⟩ := hleft
  cases w with
  | nil =>
    obtain ⟨rfl, rfl⟩ := List.cons.inj hrest
    obtain rfl : left = 1 := hlen.symm
    have hwas : s.classFirst = false := Bool.eq_false_iff.2 fun hfirst => hlong hfirst rfl
    cases h with
    | escape hc => exact absurd hc (by decide)
    | close _ _ hi hin _ => exact ⟨hi, hin⟩
    | caret hc => exact absurd hc (by decide)
    | byte _ hclose => exact absurd ⟨rfl, hwas⟩ hclose
  | cons d w =>
    rw [List.cons_append] at hrest
    obtain ⟨rfl, rfl⟩ := List.cons.inj hrest
    obtain ⟨hslash, hclose, hcaret⟩ := plain_of_element (hplain c List.mem_cons_self)
    have hnext : (BracketMode.element left).next (c :: (w ++ closeBracket :: t)) = (1, .element (left - 1)) := by
      rw [BracketMode.next, if_neg]
      rw [← hlen, List.length_cons]
      omega
    rw [hnext]
    cases h with
    | escape hc => exact absurd hc hslash
    | close hc => exact absurd hc hclose
    | caret hc => exact absurd hc hcaret
    | byte _ _ _ hi hin hfirst _ =>
      refine ⟨hi, hin, ⟨w, t, rfl, by rw [← hlen]; rfl, fun d hd => hplain d (List.mem_cons_of_mem c hd)⟩, fun h => ?_⟩
      exact absurd h (by rw [hfirst]; exact Bool.false_ne_true)

/-- One iteration and one item. -/
theorem step_agrees {mode : BracketMode} (h : rawRegexStep pattern s = some s') (hrest : pattern.drop s.i = c :: after)
    (hagree : Agrees mode (c :: after) s) (htail : mode = .inside true → TailPlain (c :: after)) :
    s'.i = s.i + (mode.next (c :: after)).1 ∧
      Agrees (mode.next (c :: after)).2 ((c :: after).drop (mode.next (c :: after)).1) s' := by
  unfold rawRegexStep at h
  dsimp only at h
  rw [hrest] at h
  match mode, hagree with
  | .outside, hclass =>
    rw [show s.inClass = false from hclass, if_neg Bool.false_ne_true] at h
    exact agrees_outside (atomStep_cases h) hclass
  | .first _, hfirst =>
    rw [hfirst.1, if_pos rfl] at h
    exact agrees_first (classStep_cases h hfirst.1) hfirst.2.1 hfirst.2.2
  | .inside false, hin =>
    rw [hin.1, if_pos rfl] at h
    exact agrees_inside_false (classStep_cases h hin.1) hin.2
  | .inside true, hclass =>
    rw [show s.inClass = false from hclass, if_neg Bool.false_ne_true] at h
    exact agrees_tail (atomStep_cases h) hclass (htail rfl)
  | .element _, helement =>
    rw [helement.1, if_pos rfl] at h
    exact agrees_element (classStep_cases h helement.1) helement.2.1 helement.2.2

/-- A position before the end of the text. -/
theorem exists_drop {i : Nat} (h : i < pattern.length) : ∃ c after, pattern.drop i = c :: after ∧ pattern[i]? = some c :=
  ⟨pattern[i], pattern.drop (i + 1), List.drop_eq_getElem_cons h, List.getElem?_eq_getElem h⟩

/-- The scan after one more item. -/
theorem posixScan_succ {n i : Nat} {mode : BracketMode} (h : posixScan pattern n = (i, mode)) : posixScan pattern (n + 1) =
    if i < pattern.length then (i + (mode.next (pattern.drop i)).1, (mode.next (pattern.drop i)).2) else (i, mode) := by
  rw [posixScan, h]

/-- The loop after one more iteration. -/
theorem rawRegexLoop_succ {n : Nat} (h : rawRegexLoop pattern n = some s) :
    rawRegexLoop pattern (n + 1) = if s.i < pattern.length then rawRegexStep pattern s else some s := by
  rw [rawRegexLoop, h, Option.bind_some]

/-- The loop stands at the items of the scan, as long as the character classes are followed plainly. -/
theorem lockstep {n : Nat} (h : rawRegexLoop pattern n = some s)
    (hplain : ∀ m < n, (posixScan pattern m).2 = .inside true → TailPlain (pattern.drop (posixScan pattern m).1)) :
    s.i = (posixScan pattern n).1 ∧ Agrees (posixScan pattern n).2 (pattern.drop s.i) s := by
  induction n generalizing s with
  | zero =>
    obtain rfl := Option.some.inj h
    exact ⟨rfl, rfl⟩
  | succ n ih =>
    rw [rawRegexLoop] at h
    obtain ⟨t, ht, h⟩ := Option.bind_eq_some_iff.1 h
    obtain ⟨hi, hagree⟩ := ih ht fun m hm => hplain m (Nat.lt_succ_of_lt hm)
    have hscan := posixScan_succ (show posixScan pattern n = (t.i, (posixScan pattern n).2) by rw [hi])
    by_cases hlt : t.i < pattern.length
    · rw [if_pos hlt] at h hscan
      obtain ⟨c, after, hdrop, -⟩ := exists_drop hlt
      rw [hdrop] at hagree hscan
      have htail : (posixScan pattern n).2 = .inside true → TailPlain (c :: after) := by
        intro hmode
        rw [← hdrop, hi]
        exact hplain n (Nat.lt_succ_self n) hmode
      obtain ⟨hi', hagree'⟩ := step_agrees h hdrop hagree htail
      rw [hscan]
      refine ⟨hi', ?_⟩
      rwa [hi', ← List.drop_drop, hdrop]
    · rw [if_neg hlt] at h hscan
      obtain rfl := Option.some.inj h
      rw [hscan]
      exact ⟨rfl, hagree⟩

/-! ## The loop goes on -/

/-- A group opens with at least one byte. -/
theorem groupIntro_pos : 0 < ((rawRegexSupportedGroupIntro rest).map Prod.fst).getD 1 := by
  unfold rawRegexSupportedGroupIntro
  split_ifs <;> exact Nat.succ_pos _

/-- An iteration moves on and appends. -/
theorem step_progress (h : rawRegexStep pattern s = some s') (hlt : s.i < pattern.length) : s.i < s'.i ∧ s.buf <+: s'.buf := by
  obtain ⟨c, after, hdrop, -⟩ := exists_drop hlt
  unfold rawRegexStep at h
  dsimp only at h
  rw [hdrop] at h
  have hescape : 0 < escapeLength (c :: after) := Nat.lt_of_lt_of_le Nat.two_pos (Nat.le_add_right 2 _)
  cases hclass : s.inClass with
  | true =>
    rw [hclass, if_pos rfl] at h
    cases classStep_cases h hclass with
    | escape _ hi _ _ hbuf => exact ⟨by omega, hbuf⟩
    | close _ _ hi _ hbuf => exact ⟨by omega, hbuf ▸ List.prefix_append _ _⟩
    | caret _ _ _ hi _ _ _ hbuf => exact ⟨by omega, hbuf ▸ List.prefix_append _ _⟩
    | byte _ _ _ hi _ _ hbuf => exact ⟨by omega, hbuf ▸ List.prefix_append _ _⟩
  | false =>
    rw [hclass, if_neg Bool.false_ne_true] at h
    cases atomStep_cases h with
    | constraint _ _ hi _ hbuf => exact ⟨by omega, hbuf⟩
    | «open» _ _ hi _ _ _ hbuf => exact ⟨by omega, hbuf ▸ List.prefix_append _ _⟩
    | dollar _ hi _ hbuf => exact ⟨by omega, hbuf ▸ List.prefix_append _ _⟩
    | escape _ hi _ hbuf => exact ⟨by omega, hbuf⟩
    | group _ hi _ hbuf =>
      have hpos : 0 < ((rawRegexSupportedGroupIntro (c :: after)).map Prod.fst).getD 1 := groupIntro_pos
      exact ⟨by omega, hbuf⟩
    | byte _ _ _ _ hi _ hbuf => exact ⟨by omega, hbuf ▸ List.prefix_append _ _⟩

/-- An iteration of the loop. -/
theorem loop_succ_some {n : Nat} (h : rawRegexLoop pattern (n + 1) = some s') :
    ∃ s, rawRegexLoop pattern n = some s ∧ s.i ≤ s'.i ∧ s.buf <+: s'.buf ∧ (s.i < pattern.length → s.i < s'.i) := by
  rw [rawRegexLoop] at h
  obtain ⟨s, hs, h⟩ := Option.bind_eq_some_iff.1 h
  refine ⟨s, hs, ?_⟩
  split at h
  · rename_i hlt
    obtain ⟨hi, hbuf⟩ := step_progress h hlt
    exact ⟨hi.le, hbuf, fun _ => hi⟩
  · rename_i hge
    obtain rfl := Option.some.inj h
    exact ⟨Nat.le_refl _, List.prefix_refl _, fun hlt => absurd hlt hge⟩

/-- The loop before what it came to. -/
theorem loop_of_le {n m : Nat} (hle : n ≤ m) (h : rawRegexLoop pattern m = some s') :
    ∃ s, rawRegexLoop pattern n = some s ∧ s.i ≤ s'.i ∧ s.buf <+: s'.buf := by
  induction m, hle using Nat.le_induction generalizing s' with
  | base => exact ⟨s', h, Nat.le_refl _, List.prefix_refl _⟩
  | succ m hle ih =>
    obtain ⟨t, ht, hi, hbuf, -⟩ := loop_succ_some h
    obtain ⟨s, hs, hi', hbuf'⟩ := ih ht
    exact ⟨s, hs, Nat.le_trans hi' hi, hbuf'.trans hbuf⟩

/-- So many iterations pass so many bytes, or all. -/
theorem loop_reaches {n : Nat} (h : rawRegexLoop pattern n = some s) : min n pattern.length ≤ s.i := by
  induction n generalizing s with
  | zero => exact Nat.le_trans (Nat.min_le_left _ _) (Nat.zero_le _)
  | succ n ih =>
    obtain ⟨t, ht, hi, -, hlt⟩ := loop_succ_some h
    have hle := ih ht
    by_cases ht' : t.i < pattern.length
    · have hstep := hlt ht'
      omega
    · omega

/-- The loop stays at the end of the text. -/
theorem loop_stable {n m : Nat} (hle : n ≤ m) (h : rawRegexLoop pattern n = some s) (hend : pattern.length ≤ s.i) :
    rawRegexLoop pattern m = some s := by
  induction m, hle using Nat.le_induction with
  | base => exact h
  | succ m hle ih => rw [rawRegexLoop_succ ih, if_neg (Nat.not_lt.2 hend)]

/-- A text that is translated: the loop runs, and all that it writes is kept. -/
theorem loop_of_success {alloc : Nat → Bool} {out : List Byte} (h : rawRegexToPcre2 alloc pattern = some out) (n : Nat) :
    ∃ s, rawRegexLoop pattern n = some s ∧ s.buf <+: out := by
  unfold rawRegexToPcre2 at h
  obtain ⟨-, h⟩ := ite_none_some h
  obtain ⟨-, h⟩ := ite_none_some h
  obtain ⟨-, h⟩ := ite_none_some h
  obtain ⟨last, hlast, h⟩ := Option.bind_eq_some_iff.1 h
  obtain ⟨-, h⟩ := ite_none_some h
  obtain rfl := Option.some.inj h
  rcases Nat.le_total n pattern.length with hle | hge
  · obtain ⟨s, hs, -, hbuf⟩ := loop_of_le hle hlast
    exact ⟨s, hs, hbuf⟩
  · have hend := loop_reaches hlast
    exact ⟨last, loop_stable hge hlast (by omega), List.prefix_refl _⟩

/-! ## The scan goes on -/

/-- The scan does not go back. -/
theorem scan_mono {n m : Nat} (hle : n ≤ m) : (posixScan pattern n).1 ≤ (posixScan pattern m).1 := by
  induction m, hle using Nat.le_induction with
  | base => exact Nat.le_refl _
  | succ m hle ih =>
    rw [posixScan_succ rfl]
    split
    · exact Nat.le_trans ih (Nat.le_add_right _ _)
    · exact ih

/-- The scan stays at the end of the text. -/
theorem scan_stable {n m : Nat} (hle : n ≤ m) (hend : ¬ (posixScan pattern n).1 < pattern.length) :
    posixScan pattern m = posixScan pattern n := by
  induction m, hle using Nat.le_induction with
  | base => rfl
  | succ m hle ih => rw [posixScan_succ ih, if_neg hend]

end RawRegexAux
end PgJitter
