import PgJitter.InlineInt4

/-!
# Running the inlined int4 code

How each piece of emitted code ends, in terms of the registers, and what the ends are when the registers hold images of int4
values.
-/

namespace PgJitter

open Assembly

namespace InlineInt4Aux

variable {P : SljitProgram} {pc : Nat} {s s' : SljitState} {e : SljitEnd}

/-! ## Running the code -/

/-- An instruction that falls through. -/
theorem ends_next {i : SljitInsn} (hi : P.code[pc]? = some i) (he : i.exec s = .next s') (h : SljitEnds P (pc + 1, s') e) :
    SljitEnds P (pc, s) e := by
  cases h with
  | stored h => exact .stored (.next hi he h)
  | raised h hi' => exact .raised (.next hi he h) hi'
  | trapped h hi' ht => exact .trapped (.next hi he h) hi' ht

/-- A jump that is taken. -/
theorem ends_jump {i : SljitInsn} {l : Nat} (hi : P.code[pc]? = some i) (he : i.exec s = .jump s') (hl : P.target pc = some l)
    (h : SljitEnds P (l, s') e) : SljitEnds P (pc, s) e := by
  cases h with
  | stored h => exact .stored (.jump hi he hl h)
  | raised h hi' => exact .raised (.jump hi he hl h) hi'
  | trapped h hi' ht => exact .trapped (.jump hi he hl h) hi' ht

/-- A conditional jump, by its condition. -/
theorem ends_jumpIf {i : SljitInsn} {c : Bool} {l : Nat} (hi : P.code[pc]? = some i) (he : i.exec s = sljitJumpIf c s)
    (hl : P.target pc = some l) (ht : c = true → SljitEnds P (l, s) e) (hf : c = false → SljitEnds P (pc + 1, s) e) :
    SljitEnds P (pc, s) e := by
  cases c with
  | true => exact ends_jump hi he hl (ht rfl)
  | false => exact ends_next hi he (hf rfl)

/-- A cold-path helper. -/
theorem ends_raised {err : JitError} (hi : P.code[pc]? = some (.error err)) : SljitEnds P (pc, s) (.raised err) :=
  .raised .refl hi

/-- The end of the code. -/
theorem ends_stored {d : Datum} (h : pc = P.here) (hd : s.r0 = d) : SljitEnds P (pc, s) (.stored d) := by
  subst h hd
  exact .stored .refl

/-- How a run ends is determined. -/
theorem ends_unique {a : Nat × SljitState} {e e' : SljitEnd} (h : SljitEnds P a e) (h' : SljitEnds P a e') : e = e' := by
  have end_none : P.code[P.here]? = none := List.getElem?_eq_none (Nat.le_refl _)
  have error_over : ∀ {b : Nat × SljitState} {err : JitError}, P.code[b.1]? = some (.error err) →
      step SljitInsn.exec P b = none := by
    intro b err hi
    simp only [step, hi, SljitInsn.exec]
  have div_over : ∀ {b : Nat × SljitState}, P.code[b.1]? = some .divS32 ∨ P.code[b.1]? = some .divmodS32 →
      divTraps (low32 b.2.r0) (low32 b.2.r1) = true → step SljitInsn.exec P b = none := by
    intro b hi ht
    rcases hi with hi | hi <;> simp only [step, hi, SljitInsn.exec, ht, if_true]
  cases h with
  | stored h1 =>
    cases h' with
    | stored h2 =>
      have := Runs.eq_of_over h1 h2 (step_end _) (step_end _)
      rw [(Prod.mk.inj this).2]
    | raised h2 hi =>
      have := Runs.eq_of_over h1 h2 (step_end _) (error_over hi)
      rw [← this, end_none] at hi
      cases hi
    | trapped h2 hi ht =>
      have := Runs.eq_of_over h1 h2 (step_end _) (div_over hi ht)
      rw [← this, end_none] at hi
      rcases hi with hi | hi <;> cases hi
  | raised h1 hi1 =>
    cases h' with
    | stored h2 =>
      have := Runs.eq_of_over h1 h2 (error_over hi1) (step_end _)
      rw [this, end_none] at hi1
      cases hi1
    | raised h2 hi2 =>
      have := Runs.eq_of_over h1 h2 (error_over hi1) (error_over hi2)
      rw [this, hi2] at hi1
      cases hi1
      rfl
    | trapped h2 hi2 ht =>
      have := Runs.eq_of_over h1 h2 (error_over hi1) (div_over hi2 ht)
      rw [← this, hi1] at hi2
      rcases hi2 with hi2 | hi2 <;> cases hi2
  | trapped h1 hi1 ht =>
    cases h' with
    | stored h2 =>
      have := Runs.eq_of_over h1 h2 (div_over hi1 ht) (step_end _)
      rw [this, end_none] at hi1
      rcases hi1 with hi1 | hi1 <;> cases hi1
    | raised h2 hi2 =>
      have := Runs.eq_of_over h1 h2 (div_over hi1 ht) (error_over hi2)
      rw [this, hi2] at hi1
      rcases hi1 with hi1 | hi1 <;> cases hi1
    | trapped h2 hi2 ht2 => rfl

/-! ## How each operation ends -/

/-- A 32-bit result is the low half of the register it is left in. -/
@[simp] theorem low32_of32 (s : SljitState) (v : BitVec 32) : low32 (s.of32 v) = v := BitVec.setWidth_append_eq_right

/-- Addition, subtraction and multiplication raise on overflow, and store the sign-extended result. -/
theorem arith_ends (op : SljitOp2) (s : SljitState) :
    SljitEnds (emitInt4Arith op .empty) (0, s)
      (if op.overflows (low32 s.r0) (low32 s.r1) then .raised .int4Overflow
      else .stored (int32GetDatum (op.result (low32 s.r0) (low32 s.r1)))) := by
  refine ends_next (i := .op2 op) rfl rfl (ends_jumpIf (i := .jumpIf .notOverflow) rfl rfl rfl ?_ ?_)
  · intro h
    have h' : op.overflows (low32 s.r0) (low32 s.r1) = false := by simpa using h
    rw [h', if_neg (by decide)]
    refine ends_next (i := .movS32 .r0) rfl rfl (ends_stored rfl ?_)
    simp [SljitState.reg, int32GetDatum]
  · intro h
    have h' : op.overflows (low32 s.r0) (low32 s.r1) = true := by simpa using h
    rw [h', if_pos rfl]
    exact ends_raised rfl

/-- A comparison stores 1 or 0. -/
theorem cmp_ends (c : SljitCond) (s : SljitState) :
    SljitEnds (emitInt4Cmp c .empty) (0, s) (.stored (boolGetDatum (condOf (low32 s.r0) (low32 s.r1) c))) :=
  ends_next (i := .op2uSub32 (.reg .r1)) rfl rfl (ends_next (i := .opFlags c) rfl rfl (ends_stored rfl rfl))

/-- The cast to int8 sign-extends. -/
theorem toInt8_ends (s : SljitState) :
    SljitEnds (emitInlineFuncexpr .int4ToInt8 .empty) (0, s) (.stored (int32GetDatum (low32 s.r0))) :=
  ends_next (i := .movS32 .r0) rfl rfl (ends_stored rfl rfl)

/-- The cast to int2 compares the whole register with the bounds. -/
theorem toInt2_ends (s : SljitState) :
    SljitEnds (emitInt4ToInt2 .empty) (0, s)
      (if s.r0.sle (sljitImm 32767) ∧ (sljitImm (-32768)).sle s.r0 then .stored ((s.r0.setWidth 16).signExtend 64)
      else .raised .int2Overflow) := by
  refine ends_jumpIf (i := .cmp .sigLessEqual .r0 (sljitImm 32767)) rfl rfl rfl ?_ ?_
  · intro hhi
    refine ends_jumpIf (i := .cmp .sigGreaterEqual .r0 (sljitImm (-32768))) rfl rfl rfl ?_ ?_
    · intro hlo
      rw [if_pos ⟨hhi, hlo⟩]
      exact ends_next (i := .movS16) rfl rfl (ends_stored rfl rfl)
    · intro hlo
      rw [if_neg (fun h => absurd (h.2.symm.trans hlo) (by decide))]
      exact ends_raised rfl
  · intro hhi
    rw [if_neg (fun h => absurd (h.1.symm.trans hhi) (by decide))]
    exact ends_raised rfl

/-- The conditions of the division checks, read back. -/
theorem cond_ne_true {w : Nat} {a b : BitVec w} : condOf a b .notEqual = true ↔ a ≠ b := by
  simp [condOf]

theorem cond_ne_false {w : Nat} {a b : BitVec w} : condOf a b .notEqual = false ↔ a = b := by
  simp [condOf]

/-- The immediate the dividend is compared with. -/
theorem low32_min : low32 (pgInt32Min.signExtend 64) = pgInt32Min := by decide

/-- Division compares the whole divisor with 0 and -1, the dividend's low half with the smallest int4. -/
theorem div_ends (s : SljitState) :
    SljitEnds (emitInt4Div .empty) (0, s)
      (if s.r1 = sljitImm 0 then .raised .divisionByZero
      else if low32 s.r0 = pgInt32Min ∧ s.r1 = sljitImm (-1) then .raised .int4Overflow
      else if divTraps (low32 s.r0) (low32 s.r1) then .trapped
      else .stored (int32GetDatum ((low32 s.r0).sdiv (low32 s.r1)))) := by
  have divide : ∀ s' : SljitState, s'.r0 = s.r0 → s'.r1 = s.r1 →
      SljitEnds (emitInt4Div .empty) (6, s') (if divTraps (low32 s.r0) (low32 s.r1) then .trapped
        else .stored (int32GetDatum ((low32 s.r0).sdiv (low32 s.r1)))) := by
    intro s' h0 h1
    rw [← h0, ← h1]
    by_cases ht : divTraps (low32 s'.r0) (low32 s'.r1) = true
    · rw [if_pos ht]
      exact .trapped .refl (Or.inl rfl) ht
    · rw [if_neg ht]
      refine ends_next (i := .divS32) rfl (if_neg ht) (ends_next (i := .movS32 .r0) rfl rfl (ends_stored rfl ?_))
      simp [SljitState.reg, int32GetDatum]
  refine ends_jumpIf (i := .cmp .notEqual .r1 (sljitImm 0)) rfl rfl rfl ?_ ?_
  · intro hz
    have hz' : s.r1 ≠ sljitImm 0 := cond_ne_true.1 hz
    rw [if_neg hz']
    refine ends_next (i := .op2uSub32 (.imm (pgInt32Min.signExtend 64))) rfl rfl
      (ends_jumpIf (i := .jumpIf .notEqual) rfl rfl rfl ?_ ?_)
    · intro hm
      have hmin : low32 s.r0 ≠ pgInt32Min := fun h => cond_ne_true.1 hm (h.trans low32_min.symm)
      rw [if_neg (fun h => hmin h.1)]
      exact divide _ rfl rfl
    · intro hm
      have hmin : low32 s.r0 = pgInt32Min := (cond_ne_false.1 hm).trans low32_min
      refine ends_jumpIf (i := .cmp .notEqual .r1 (sljitImm (-1))) rfl rfl rfl ?_ ?_
      · intro h1
        rw [if_neg (fun h => cond_ne_true.1 h1 h.2)]
        exact divide _ rfl rfl
      · intro h1
        rw [if_pos ⟨hmin, cond_ne_false.1 h1⟩]
        exact ends_raised rfl
  · intro hz
    have hz' : s.r1 = sljitImm 0 := cond_ne_false.1 hz
    rw [if_pos hz']
    exact ends_raised rfl

/-- Modulo makes the same comparisons, and stores 0 where division raises. -/
theorem mod_ends (s : SljitState) :
    SljitEnds (emitInt4Mod .empty) (0, s)
      (if s.r1 = sljitImm 0 then .raised .divisionByZero
      else if low32 s.r0 = pgInt32Min ∧ s.r1 = sljitImm (-1) then .stored 0
      else if divTraps (low32 s.r0) (low32 s.r1) then .trapped
      else .stored (int32GetDatum ((low32 s.r0).srem (low32 s.r1)))) := by
  have divide : ∀ s' : SljitState, s'.r0 = s.r0 → s'.r1 = s.r1 →
      SljitEnds (emitInt4Mod .empty) (5, s') (if divTraps (low32 s.r0) (low32 s.r1) then .trapped
        else .stored (int32GetDatum ((low32 s.r0).srem (low32 s.r1)))) := by
    intro s' h0 h1
    rw [← h0, ← h1]
    by_cases ht : divTraps (low32 s'.r0) (low32 s'.r1) = true
    · rw [if_pos ht]
      exact .trapped .refl (Or.inr rfl) ht
    · rw [if_neg ht]
      refine ends_next (i := .divmodS32) rfl (if_neg ht) (ends_next (i := .movS32 .r1) rfl rfl
        (ends_jump (i := .jump) rfl rfl rfl (ends_stored rfl ?_)))
      simp [SljitState.reg, int32GetDatum]
  refine ends_jumpIf (i := .cmp .notEqual .r1 (sljitImm 0)) rfl rfl rfl ?_ ?_
  · intro hz
    have hz' : s.r1 ≠ sljitImm 0 := cond_ne_true.1 hz
    rw [if_neg hz']
    refine ends_next (i := .op2uSub32 (.imm (pgInt32Min.signExtend 64))) rfl rfl
      (ends_jumpIf (i := .jumpIf .notEqual) rfl rfl rfl ?_ ?_)
    · intro hm
      have hmin : low32 s.r0 ≠ pgInt32Min := fun h => cond_ne_true.1 hm (h.trans low32_min.symm)
      rw [if_neg (fun h => hmin h.1)]
      exact divide _ rfl rfl
    · intro hm
      have hmin : low32 s.r0 = pgInt32Min := (cond_ne_false.1 hm).trans low32_min
      refine ends_jumpIf (i := .cmp .equal .r1 (sljitImm (-1))) rfl rfl rfl ?_ ?_
      · intro h1
        rw [if_pos ⟨hmin, by simpa [condOf, SljitState.reg] using h1⟩]
        exact ends_next (i := .movImm 0) rfl rfl (ends_stored rfl rfl)
      · intro h1
        have hne : s.r1 ≠ sljitImm (-1) := by simpa [condOf, SljitState.reg] using h1
        rw [if_neg (fun h => hne h.2)]
        exact divide _ rfl rfl
  · intro hz
    have hz' : s.r1 = sljitImm 0 := cond_ne_false.1 hz
    rw [if_pos hz']
    exact ends_raised rfl

/-! ## The Datums of an int4 -/

variable {a b : BitVec 32} {d : Datum}

/-- The low half of an image is the value. -/
theorem low32_image (h : IsInt4Image a d) : low32 d = a := by
  rcases h with rfl | rfl
  · unfold low32 int32GetDatum
    ext i hi
    simp [BitVec.getLsbD_signExtend, hi, show i < 64 by omega, ← BitVec.getLsbD_eq_getElem]
  · unfold low32 directCallDatum
    simp

/-- Both images of 0 are 0, and of nothing else. -/
theorem image_eq_zero (h : IsInt4Image a d) : d = sljitImm 0 ↔ a = 0#32 := by
  constructor
  · intro hd
    rw [← low32_image h, hd]
    decide
  · rintro rfl
    rcases h with rfl | rfl <;> decide

/-- Only the sign-extended image of -1 is -1. -/
theorem image_eq_neg_one (h : IsInt4Image b d) : d = sljitImm (-1) ↔ b = -1 ∧ d ≠ directCallDatum b := by
  constructor
  · intro hd
    have hb : b = -1 := by
      rw [← low32_image h, hd]
      decide
    subst hb hd
    exact ⟨rfl, by decide⟩
  · rintro ⟨rfl, hne⟩
    rcases h with rfl | rfl
    · decide
    · exact absurd rfl hne

theorem toInt_int32GetDatum (a : BitVec 32) : (int32GetDatum a).toInt = a.toInt := BitVec.toInt_signExtend_of_le (by decide)

theorem toInt_directCallDatum (a : BitVec 32) : (directCallDatum a).toInt = a.toNat := by
  have := a.isLt
  rw [directCallDatum, BitVec.toInt_setWidth, Int.bmod_eq_of_le] <;> omega

/-- The low half of a stored int4 is its value. -/
theorem low32_int32GetDatum (a : BitVec 32) : low32 (int32GetDatum a) = a := low32_image (Or.inl rfl)

/-! ## Agreement -/

/-- Arithmetic agrees with a function that raises on the same overflow. -/
theorem arith_agrees (c : Bool) (v : BitVec 32) :
    SljitEnd.Agrees (if c then .raised .int4Overflow else .stored (int32GetDatum v))
      (if c then .error .int4Overflow else .ok v : Except JitError (BitVec 32)) := by
  cases c with
  | true => exact rfl
  | false => exact low32_int32GetDatum v

/-- A comparison agrees with `DEF_CMP` of its condition. -/
theorem cmp_agrees (c : Bool) : SljitEnd.Agrees (.stored (boolGetDatum c)) (defCmp c) := by
  cases c <;> exact rfl

/-- The division that would trap: the checks of the code do not see that the divisor is -1. -/
theorem divTraps_iff (h : IsInt4Image b d) :
    divTraps a b = true ∧ d ≠ sljitImm 0 ∧ ¬ (a = pgInt32Min ∧ d = sljitImm (-1)) ↔
      a = pgInt32Min ∧ b = -1 ∧ d = directCallDatum b := by
  simp only [divTraps, Bool.or_eq_true, Bool.and_eq_true, beq_iff_eq]
  rw [image_eq_neg_one h, Ne, image_eq_zero h]
  constructor
  · rintro ⟨h0 | ⟨ha, hb⟩, hnz, hno⟩
    · exact absurd h0 hnz
    · refine ⟨ha, hb, ?_⟩
      by_contra hne
      exact hno ⟨ha, hb, hne⟩
  · rintro ⟨rfl, rfl, hd⟩
    exact ⟨Or.inr ⟨rfl, rfl⟩, by decide, fun h => h.2.2 hd⟩

/-- A division by a known rule: the quotient and the remainder differ only in what they do with the smallest int4 and -1. -/
theorem div_agrees (h : IsInt4Image b d) (minEnd : SljitEnd) (minResult : Except JitError (BitVec 32)) (v : BitVec 32)
    (hmin : minEnd.Agrees minResult) :
    SljitEnd.Agrees
        (if d = sljitImm 0 then .raised .divisionByZero
        else if a = pgInt32Min ∧ d = sljitImm (-1) then minEnd
        else if divTraps a b then .trapped
        else .stored (int32GetDatum v))
        (if b = 0 then .error .divisionByZero
        else if a = pgInt32Min ∧ b = -1 then minResult
        else .ok v) ↔
      ¬ (a = pgInt32Min ∧ b = -1 ∧ d = directCallDatum b) := by
  rw [← divTraps_iff h]
  by_cases hz : d = sljitImm 0
  · have hb : b = 0 := (image_eq_zero h).1 hz
    rw [if_pos hz, if_pos hb]
    exact ⟨fun _ hno => hno.2.1 hz, fun _ => rfl⟩
  · have hb : b ≠ 0 := fun hb => hz ((image_eq_zero h).2 hb)
    rw [if_neg hz, if_neg hb]
    by_cases hm : a = pgInt32Min ∧ d = sljitImm (-1)
    · rw [if_pos hm, if_pos ⟨hm.1, ((image_eq_neg_one h).1 hm.2).1⟩]
      exact ⟨fun _ hno => hno.2.2 hm, fun _ => hmin⟩
    · rw [if_neg hm]
      by_cases ht : divTraps a b = true
      · rw [if_pos ht]
        have hmin' := (divTraps_iff h).1 ⟨ht, hz, hm⟩
        rw [if_pos ⟨hmin'.1, hmin'.2.1⟩]
        constructor
        · intro hag
          cases minResult with
          | ok _ => exact hag.elim
          | error _ => exact hag.elim
        · intro hno
          exact absurd ⟨ht, hz, hm⟩ hno
      · rw [if_neg ht]
        have hno : ¬ (a = pgInt32Min ∧ b = -1) := by
          rintro ⟨rfl, rfl⟩
          exact ht (by decide)
        rw [if_neg hno]
        exact ⟨fun _ h' => ht h'.1, fun _ => low32_int32GetDatum v⟩

/-- The cast to int2 misreads exactly the negative int2 values that come zero-extended. -/
theorem toInt2_agrees (h : IsInt4Image a d) :
    SljitEnd.Agrees
        (if d.sle (sljitImm 32767) ∧ (sljitImm (-32768)).sle d then .stored ((d.setWidth 16).signExtend 64)
        else .raised .int2Overflow)
        (jitInt42Cast a) ↔
      ¬ (-32768 ≤ a.toInt ∧ a.toInt < 0 ∧ d = directCallDatum a) := by
  have hcond : (d.sle (sljitImm 32767) ∧ (sljitImm (-32768)).sle d) ↔ d.toInt ≤ 32767 ∧ -32768 ≤ d.toInt := by
    rw [BitVec.sle_iff_toInt_le, BitVec.sle_iff_toInt_le]
    rfl
  have hcast : SljitEnd.Agrees (.stored ((d.setWidth 16).signExtend 64)) (.ok ((a.setWidth 16).signExtend 32)) := by
    rw [← low32_image h]
    unfold low32 SljitEnd.Agrees
    ext i hi
    simp [BitVec.getElem_signExtend, show i < 64 by omega]
  have hsign : d = directCallDatum a → a.toInt < 0 → 32767 < d.toInt := by
    rintro rfl hneg
    rw [toInt_directCallDatum]
    have := BitVec.toInt_eq_toNat_cond a
    split at this <;> omega
  have hread : ¬ (a.toInt < 0 ∧ d = directCallDatum a) → d.toInt = a.toInt := by
    intro hno
    rcases h with rfl | rfl
    · exact toInt_int32GetDatum a
    · rw [toInt_directCallDatum]
      have := BitVec.toInt_eq_toNat_cond a
      have hnn : ¬ a.toInt < 0 := fun hneg => hno ⟨hneg, rfl⟩
      split at this <;> omega
  unfold jitInt42Cast
  by_cases hneg : a.toInt < 0 ∧ d = directCallDatum a
  · have hbig := hsign hneg.2 hneg.1
    rw [if_neg (fun hc => by have := (hcond.1 hc).1; omega)]
    by_cases hlow : -32768 ≤ a.toInt
    · have hin : ¬ (a.toInt < -32768 ∨ 32767 < a.toInt) := by omega
      rw [if_neg hin]
      exact ⟨fun hag => hag.elim, fun hno => absurd ⟨hlow, hneg⟩ hno⟩
    · have hout : a.toInt < -32768 ∨ 32767 < a.toInt := by omega
      rw [if_pos hout]
      exact ⟨fun _ hno => hlow hno.1, fun _ => rfl⟩
  · have heq := hread hneg
    rw [heq] at hcond
    refine ⟨fun _ hno => hneg hno.2, fun _ => ?_⟩
    by_cases hin : a.toInt ≤ 32767 ∧ -32768 ≤ a.toInt
    · have hin' : ¬ (a.toInt < -32768 ∨ 32767 < a.toInt) := by omega
      rw [if_pos (hcond.2 hin), if_neg hin']
      exact hcast
    · have hout : a.toInt < -32768 ∨ 32767 < a.toInt := by omega
      rw [if_neg (fun hc => hin (hcond.1 hc)), if_pos hout]
      exact rfl

end InlineInt4Aux

end PgJitter
