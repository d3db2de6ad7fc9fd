import PgJitter.Lemmas.RawRegex

/-!
# Bracket expressions of PostgreSQL regular expressions: the results
-/

namespace PgJitter

namespace RawRegexAux

variable {pattern out : List Byte} {c : Byte} {after : List Byte} {s s' : RawRegexState} {i j n k : Nat}

/-! ## Slices -/

/-- One byte more. -/
theorem slice_succ {p : Nat} (hle : i ≤ p) (hc : pattern[p]? = some c) : slice pattern i (p + 1) = slice pattern i p ++ [c] := by
  rw [slice, slice, Nat.sub_add_comm hle, List.take_add_one, List.getElem?_drop, Nat.add_sub_cancel' hle, hc]
  rfl

/-- A byte of a slice. -/
theorem mem_slice {p : Nat} (hle : i ≤ p) (hlt : p < j) (hc : pattern[p]? = some c) : c ∈ slice pattern i j := by
  refine List.mem_of_getElem? (i := p - i) ?_
  rw [slice, List.getElem?_take_of_lt (by omega), List.getElem?_drop, Nat.add_sub_cancel' hle, hc]

/-! ## One bracket expression -/

/-- The opening of a bracket expression is copied. -/
theorem open_writes (h : rawRegexStep pattern s = some s') (hdrop : pattern.drop s.i = c :: after) (hclass : s.inClass = false)
    (hopens : (BracketMode.outside.next (c :: after)).2 = .first false) : s'.i = s.i + 1 ∧ s'.buf = s.buf ++ [c] := by
  unfold rawRegexStep at h
  dsimp only at h
  rw [hdrop, hclass, if_neg Bool.false_ne_true] at h
  simp only [BracketMode.next, List.head?_cons, Option.some.injEq] at hopens
  split_ifs at hopens with hbracket hword
  cases atomStep_cases h with
  | constraint _ hword' => exact absurd hword' hword
  | «open» _ _ hi _ _ _ hbuf => exact ⟨hi, hbuf⟩
  | dollar hc => exact absurd hbracket (by rw [hc]; decide)
  | escape hc => exact absurd hbracket (by rw [hc]; decide)
  | group hc => exact absurd hbracket (by rw [hc]; decide)
  | byte hne => exact absurd hbracket hne

/-- A later byte of a bracket expression is copied. -/
theorem inside_writes {mode : BracketMode} (h : rawRegexStep pattern s = some s') (hdrop : pattern.drop s.i = c :: after)
    (hagree : Agrees mode (c :: after) s) (hmode : mode ≠ .outside) (hc : c ≠ backslash)
    (htail : mode = .inside true → TailPlain (c :: after)) : s'.i = s.i + 1 ∧ s'.buf = s.buf ++ [c] := by
  unfold rawRegexStep at h
  dsimp only at h
  rw [hdrop] at h
  have hin : s.inClass = true ∨ s.inClass = false ∧ mode = .inside true := by
    match mode, hagree with
    | .outside, _ => exact absurd rfl hmode
    | .first _, hfirst => exact .inl hfirst.1
    | .inside false, hin => exact .inl hin.1
    | .inside true, hclass => exact .inr ⟨hclass, rfl⟩
    | .element _, helement => exact .inl helement.1
  rcases hin with hclass | ⟨hclass, hlast⟩
  · rw [hclass, if_pos rfl] at h
    cases classStep_cases h hclass with
    | escape hslash => exact absurd hslash hc
    | close _ _ hi _ hbuf => exact ⟨hi, hbuf⟩
    | caret _ _ _ hi _ _ _ hbuf => exact ⟨hi, hbuf⟩
    | byte _ _ _ hi _ _ hbuf => exact ⟨hi, hbuf⟩
  · rw [hclass, if_neg Bool.false_ne_true] at h
    obtain ⟨hdollar, hparen, hopen⟩ := htail hlast
    simp only [List.head?_cons, ne_eq, Option.some.injEq] at hdollar hparen hopen
    cases atomStep_cases h with
    | constraint hbracket hword =>
      obtain ⟨length, hlength⟩ := Option.isSome_iff_exists.1 (hopen hbracket)
      rw [wordConstraint_of_colon (classElementLength_some hlength).2.1] at hword
      exact absurd hword Bool.false_ne_true
    | «open» _ _ hi _ _ _ hbuf => exact ⟨hi, hbuf⟩
    | dollar hc' => exact absurd hc' hdollar
    | escape hc' => exact absurd hc' hc
    | group hc' => exact absurd hc' hparen
    | byte _ _ _ _ hi _ hbuf => exact ⟨hi, hbuf⟩

/-- What is known while the loop passes a bracket expression. -/
structure Passing (pattern : List Byte) (i j n k : Nat) : Prop where
  start : posixScan pattern n = (i, .outside)
  opens : (posixScan pattern (n + 1)).2 = .first false
  close : posixScan pattern (n + k) = (j, .outside)
  within : ∀ l, 0 < l → l < k → (posixScan pattern (n + l)).2 ≠ .outside
  runs : ∀ m, ∃ s, rawRegexLoop pattern m = some s
  plain : ∀ m < n + k, (posixScan pattern m).2 = .inside true → TailPlain (pattern.drop (posixScan pattern m).1)

namespace Passing

variable (h : Passing pattern i j n k)
include h

/-- The loop stands at the items. -/
theorem lockstep {l : Nat} (hl : l ≤ k) (hs : rawRegexLoop pattern (n + l) = some s) :
    s.i = (posixScan pattern (n + l)).1 ∧ Agrees (posixScan pattern (n + l)).2 (pattern.drop s.i) s :=
  RawRegexAux.lockstep hs fun m hm => h.plain m (by omega)

/-- An item of the bracket expression lies before its end. -/
theorem lt_length {l : Nat} (hl : l < k) : (posixScan pattern (n + l)).1 < pattern.length := by
  by_contra hend
  have hlast := scan_stable (show n + l ≤ n + k by omega) hend
  rcases Nat.eq_zero_or_pos l with rfl | hpos
  · have hfirst := scan_stable (show n + 0 ≤ n + 1 by omega) hend
    have hopens := h.opens
    rw [hfirst, Nat.add_zero, h.start] at hopens
    exact nomatch hopens
  · refine h.within l hpos hl ?_
    rw [← hlast, h.close]

/-- One byte of the bracket expression, and where the loop is after it. -/
theorem step {l : Nat} (hl : l < k) (hs : rawRegexLoop pattern (n + l) = some s)
    (hs' : rawRegexLoop pattern (n + (l + 1)) = some s') :
    ∃ c after, rawRegexStep pattern s = some s' ∧ pattern.drop s.i = c :: after ∧ pattern[s.i]? = some c ∧ i ≤ s.i ∧ s.i < j ∧
      posixScan pattern (n + (l + 1)) =
        (s.i + ((posixScan pattern (n + l)).2.next (c :: after)).1, ((posixScan pattern (n + l)).2.next (c :: after)).2) := by
  obtain ⟨hi, -⟩ := h.lockstep hl.le hs
  obtain ⟨hi', -⟩ := h.lockstep (show l + 1 ≤ k from hl) hs'
  have hlt : s.i < pattern.length := hi ▸ h.lt_length hl
  obtain ⟨c, after, hdrop, hc⟩ := exists_drop hlt
  have hstep := rawRegexLoop_succ hs
  rw [if_pos hlt, Nat.add_assoc, hs'] at hstep
  refine ⟨c, after, hstep.symm, hdrop, hc, ?_, ?_, ?_⟩
  · have hmono : (posixScan pattern n).1 ≤ (posixScan pattern (n + l)).1 := scan_mono (by omega)
    rw [h.start] at hmono
    omega
  · have hmono : (posixScan pattern (n + (l + 1))).1 ≤ (posixScan pattern (n + k)).1 := scan_mono (by omega)
    rw [h.close] at hmono
    have hprogress := (step_progress hstep.symm hlt).1
    omega
  · have hscan := posixScan_succ (show posixScan pattern (n + l) = (s.i, (posixScan pattern (n + l)).2) by rw [hi])
    rw [if_pos hlt, hdrop] at hscan
    exact hscan

/-- A bracket expression without a backslash is copied up to every item of it. -/
theorem copies (hslash : backslash ∉ slice pattern i j) {first : RawRegexState} (hfirst : rawRegexLoop pattern n = some first)
    {l : Nat} (hl : l < k) (hs : rawRegexLoop pattern (n + (l + 1)) = some s) :
    s.buf = first.buf ++ slice pattern i s.i := by
  induction l generalizing s with
  | zero =>
    obtain ⟨c, after, hstep, hdrop, hc, -, -, hscan⟩ := h.step hl hfirst hs
    obtain ⟨hi, hagree⟩ := h.lockstep (Nat.zero_le k) hfirst
    rw [Nat.add_zero, h.start] at hi hagree
    simp only [Nat.zero_add, Nat.add_zero, h.start] at hscan
    have hopens := h.opens
    rw [hscan] at hopens
    obtain ⟨hi', hbuf⟩ := open_writes hstep hdrop hagree hopens
    have hstart : first.i = i := hi
    rw [hbuf, hi', hstart, slice_succ (Nat.le_refl i) (hstart ▸ hc)]
    simp [slice]
  | succ l ih =>
    obtain ⟨t, ht⟩ := h.runs (n + (l + 1))
    obtain ⟨c, after, hstep, hdrop, hc, hle, hlt, -⟩ := h.step hl ht hs
    obtain ⟨hi, hagree⟩ := h.lockstep hl.le ht
    have hne : c ≠ backslash := fun heq => hslash (heq ▸ mem_slice hle hlt hc)
    rw [hdrop] at hagree
    have htail : (posixScan pattern (n + (l + 1))).2 = .inside true → TailPlain (c :: after) := by
      intro hmode
      rw [← hdrop, hi]
      exact h.plain _ (by omega) hmode
    obtain ⟨hi', hbuf⟩ := inside_writes hstep hdrop hagree (h.within (l + 1) (Nat.succ_pos l) hl) hne htail
    rw [hbuf, ih (by omega) ht, hi', slice_succ hle hc, List.append_assoc]

end Passing

/-- A byte of a bracket expression that is read outside a class follows a character class. -/
theorem Passing.tail (h : Passing pattern i j n k) {m : Nat} (hs : rawRegexLoop pattern m = some s) (hi : i < s.i) (hj : s.i < j)
    (hclass : s.inClass = false) : TailPlain (pattern.drop s.i) := by
  obtain ⟨first, hfirst⟩ := h.runs n
  obtain ⟨last, hlast⟩ := h.runs (n + k)
  obtain ⟨hi', -⟩ := h.lockstep (Nat.zero_le k) hfirst
  obtain ⟨hj', -⟩ := h.lockstep (Nat.le_refl k) hlast
  rw [Nat.add_zero, h.start] at hi'
  rw [h.close] at hj'
  have hafter : n < m := by
    by_contra hle
    obtain ⟨t, ht, hmono, -⟩ := loop_of_le (Nat.le_of_not_lt hle) hfirst
    obtain rfl := Option.some.inj (hs.symm.trans ht)
    exact absurd (Nat.le_trans hmono hi'.le) (Nat.not_le.2 hi)
  have hbefore : m < n + k := by
    by_contra hle
    obtain ⟨t, ht, hmono, -⟩ := loop_of_le (Nat.le_of_not_lt hle) hs
    obtain rfl := Option.some.inj (hlast.symm.trans ht)
    exact absurd (Nat.le_trans hj'.ge hmono) (Nat.not_le.2 hj)
  obtain ⟨l, rfl⟩ := Nat.exists_eq_add_of_le hafter.le
  obtain ⟨hpos, hagree⟩ := h.lockstep (show l ≤ k by omega) hs
  have hmode : (posixScan pattern (n + l)).2 = .inside true := by
    match hcase : (posixScan pattern (n + l)).2, hagree with
    | .outside, _ => exact absurd hcase (h.within l (by omega) (by omega))
    | .first _, hin => exact absurd hin.1 (by rw [hclass]; exact Bool.false_ne_true)
    | .inside false, hin => exact absurd hin.1 (by rw [hclass]; exact Bool.false_ne_true)
    | .inside true, _ => rfl
    | .element _, hin => exact absurd hin.1 (by rw [hclass]; exact Bool.false_ne_true)
  rw [hpos]
  exact h.plain _ hbefore hmode

/-- A `$` outside the bracket expressions is rewritten. -/
theorem dollar_writes (h : rawRegexStep pattern s = some s') (hdrop : pattern.drop s.i = dollar :: after)
    (hclass : s.inClass = false) : s'.i = s.i + 1 ∧ s'.buf = s.buf ++ endText := by
  unfold rawRegexStep at h
  dsimp only at h
  rw [hdrop, hclass, if_neg Bool.false_ne_true] at h
  cases atomStep_cases h with
  | constraint hc => exact absurd hc (by decide)
  | «open» hc => exact absurd hc (by decide)
  | dollar _ hi _ hbuf => exact ⟨hi, hbuf⟩
  | escape hc => exact absurd hc (by decide)
  | group hc => exact absurd hc (by decide)
  | byte _ hne => exact absurd rfl hne

/-- A complete bracket expression of a text that is translated. -/
theorem exists_passing {alloc : Nat → Bool} (h : rawRegexToPcre2 alloc pattern = some out) (hplain : ClassTailsPlain pattern)
    (hbracket : BracketExpr pattern i j) : ∃ n k, 0 < k ∧ Passing pattern i j n k := by
  obtain ⟨n, k, hpos, hstart, hopens, hclose, hwithin⟩ := hbracket
  refine ⟨n, k, hpos, hstart, hopens, hclose, hwithin, fun m => ?_, fun m hm hmode => ?_⟩
  · obtain ⟨s, hs, -⟩ := loop_of_success h m
    exact ⟨s, hs⟩
  · exact hplain m (n + k) hm hmode (by rw [hclose])

/-! ## The two parts -/

/-- Where every character class is followed plainly, the bracket expressions are kept. -/
theorem kept_of_plain {alloc : Nat → Bool} (h : rawRegexToPcre2 alloc pattern = some out) (hplain : ClassTailsPlain pattern) :
    BracketsKept pattern out := by
  refine ⟨fun i j hbracket hslash => ?_, fun i j hbracket hslash m s hs hi hj hclass => ?_, fun i hdollar => ?_⟩
  · obtain ⟨n, k, hpos, hpass⟩ := exists_passing h hplain hbracket
    obtain ⟨first, hfirst, -⟩ := loop_of_success h n
    obtain ⟨last, hlast, hout⟩ := loop_of_success h (n + k)
    obtain ⟨hi, -⟩ := hpass.lockstep (Nat.zero_le k) hfirst
    obtain ⟨hj, -⟩ := hpass.lockstep (Nat.le_refl k) hlast
    rw [Nat.add_zero, hpass.start] at hi
    rw [hpass.close] at hj
    obtain ⟨l, rfl⟩ := Nat.exists_eq_add_of_lt hpos
    have hbuf := hpass.copies hslash hfirst (show 0 + l < 0 + l + 1 by omega) hlast
    rw [hj] at hbuf
    exact ⟨first.buf, ⟨n, first, hfirst, hi, rfl⟩, ⟨_, last, hlast, hj, hbuf⟩, hbuf ▸ hout⟩
  · obtain ⟨n, k, hpos, hpass⟩ := exists_passing h hplain hbracket
    obtain ⟨hdollar, hparen, -⟩ := hpass.tail hs hi hj hclass
    rw [List.head?_drop] at hdollar hparen
    exact ⟨hdollar, hparen⟩
  · obtain ⟨hc, n, hn⟩ := hdollar
    obtain ⟨s, hs, -⟩ := loop_of_success h n
    obtain ⟨s', hs', hout⟩ := loop_of_success h (n + 1)
    obtain ⟨hi, hagree⟩ := lockstep hs fun m hm hmode => hplain m n hm hmode (by rw [hn])
    rw [hn] at hi hagree
    have hat : pattern[s.i]? = some dollar := by rw [hi]; exact hc
    obtain ⟨hlt, -⟩ := List.getElem?_eq_some_iff.1 hat
    obtain ⟨c, after, hdrop, hc'⟩ := exists_drop hlt
    obtain rfl := Option.some.inj (hc'.symm.trans hat)
    have hstep := rawRegexLoop_succ hs
    rw [if_pos hlt, hs'] at hstep
    obtain ⟨hi', hbuf⟩ := dollar_writes hstep.symm hdrop hagree
    exact ⟨s.buf, ⟨n, s, hs, hi, rfl⟩, ⟨n + 1, s', hs', by rw [hi', hi], hbuf⟩, hbuf ▸ hout⟩

/-- A `$` or a `(` after a character class is read outside the class. -/
theorem not_kept_of_trigger {alloc : Nat → Bool} (h : rawRegexToPcre2 alloc pattern = some out) {n : Nat}
    (htrigger : FirstTrigger pattern n) : ¬ BracketsKept pattern out := by
  intro hkept
  obtain ⟨i, j, hbracket, hslash, hi, hj⟩ := htrigger.bracket
  obtain ⟨s, hs, -⟩ := loop_of_success h n
  obtain ⟨hpos, hagree⟩ := lockstep hs htrigger.before
  rw [htrigger.mode] at hagree
  obtain ⟨hdollar, hparen⟩ := hkept.quiet i j hbracket hslash n s hs (hpos ▸ hi) (hpos ▸ hj) hagree
  rw [hpos] at hdollar hparen
  exact htrigger.trigger.elim hdollar hparen

end RawRegexAux

open RawRegexAux

section

variable (alloc : Nat → Bool) (pattern out : List Byte)

/-- The translation keeps the bracket expressions of a text that go on plainly after their first character class, and not those of a
text where first a `$` or a `(` follows one. -/
theorem brackets_kept (h : rawRegexToPcre2 alloc pattern = some out) :
    (ClassTailsPlain pattern → BracketsKept pattern out) ∧ (∀ n, FirstTrigger pattern n → ¬ BracketsKept pattern out) :=
  ⟨kept_of_plain h, fun _ => not_kept_of_trigger h⟩

end

namespace RawRegexWitness

/-- `[[:digit:]$]` -/
def digitOrDollar : List Byte :=
  [openBracket, openBracket, colon, ch 'd', ch 'i', ch 'g', ch 'i', ch 't', colon, closeBracket, dollar, closeBracket]

/-- `[[:digit:]_]$` -/
def digitOrUnderscore : List Byte :=
  [openBracket, openBracket, colon, ch 'd', ch 'i', ch 'g', ch 'i', ch 't', colon, closeBracket, ch '_', closeBracket, dollar]

/-- What `[[:digit:]$]` becomes: `[[:digit:]\z]`. -/
theorem digitOrDollar_out :
    rawRegexToPcre2 (fun _ => true) digitOrDollar = some (digitOrDollar.take 10 ++ endText ++ [closeBracket]) := by decide

/-- A text whose bracket expression is not copied. -/
theorem dollar_read_outside : ¬ ∀ (alloc : Nat → Bool) (pattern out : List Byte),
    rawRegexToPcre2 alloc pattern = some out → BracketsKept pattern out := by
  intro hall
  have hwithin : ∀ l < 12, 0 < l → (posixScan digitOrDollar (0 + l)).2 ≠ .outside := by decide
  have hbracket : BracketExpr digitOrDollar 0 12 :=
    ⟨0, 12, by decide, rfl, by decide, by decide, fun l hpos hl => hwithin l hl hpos⟩
  obtain ⟨o, -, -, hcopy⟩ := (hall _ _ _ digitOrDollar_out).copied 0 12 hbracket (by decide)
  -- the output is one byte longer than the bracket expression
  have hlen := hcopy.length_le
  match o with
  | [] => exact absurd hcopy (by decide)
  | [a] => exact absurd (List.cons_prefix_cons.1 hcopy).2 (by decide)
  | _ :: _ :: o =>
    have hlong : (slice digitOrDollar 0 12).length = 12 := by decide
    have hout : (digitOrDollar.take 10 ++ endText ++ [closeBracket]).length = 13 := by decide
    rw [List.length_append, hlong, hout, List.length_cons, List.length_cons] at hlen
    omega

/-- After the class of `[[:digit:]_]$` stand a `_` and the `]`. -/
theorem digitOrUnderscore_plain : ClassTailsPlain digitOrUnderscore := by
  intro n n' _ hmode _
  rcases Nat.lt_or_ge n 13 with hlt | hge
  · have hall : ∀ n < 13, (posixScan digitOrUnderscore n).2 = .inside true →
        TailPlain (digitOrUnderscore.drop (posixScan digitOrUnderscore n).1) := by decide
    exact hall n hlt hmode
  · rw [scan_stable hge (by decide)] at hmode
    exact absurd hmode (by decide)

/-- In `[[:digit:]_]$` the bracket expression is copied and the `$` rewritten. -/
theorem digit_or_underscore : BracketsKept digitOrUnderscore (digitOrUnderscore.take 12 ++ endText) :=
  (brackets_kept (fun _ => true) digitOrUnderscore _ (by decide)).1 digitOrUnderscore_plain

end RawRegexWitness

end PgJitter
