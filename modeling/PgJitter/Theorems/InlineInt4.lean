import PgJitter.Lemmas.InlineInt4

/-!
# Inlined int4 operations

Each inlined operation against the native function of its table entry, for the Datums that an int4 can come in. The arithmetic
and the comparisons look at 32 bits and always agree. The division, the modulo and the cast to int2 compare whole registers with
-1, 32767 and -32768: they agree on sign-extended Datums, and on zero-extended ones that are not negative, and misread the others.
-/

namespace PgJitter

open InlineInt4Aux

/-- How many arguments an operation loads. -/
def JitInlineOp.nargs : JitInlineOp → Nat
  | .int4ToInt8 | .int4ToInt2 => 1
  | _ => 2

/-- A Datum that the emitted checks misread: a divisor -1 of the smallest int4 that comes zero-extended, and a negative int2
value that comes zero-extended to the cast. -/
def Misread : JitInlineOp → (a b : BitVec 32) → (r0 r1 : Datum) → Prop
  | .int4Div, a, b, _, r1 => a = pgInt32Min ∧ b = -1 ∧ r1 = directCallDatum b
  | .int4Mod, a, b, _, r1 => a = pgInt32Min ∧ b = -1 ∧ r1 = directCallDatum b
  | .int4ToInt2, a, _, r0, _ => -32768 ≤ a.toInt ∧ a.toInt < 0 ∧ r0 = directCallDatum a
  | _, _, _, _, _ => False

/-- A run of the emitted code ends as the native function does. -/
def InlinedRight (op : JitInlineOp) (a b : BitVec 32) (s : SljitState) : Prop :=
  ∃ e, SljitEnds (emitInlineFuncexpr op .empty) (0, s) e ∧ e.Agrees (op.jitFn a b)

/-- The end of the run decides. -/
theorem inlinedRight_iff (op : JitInlineOp) {a b : BitVec 32} {s : SljitState} {e : SljitEnd}
    (h : SljitEnds (emitInlineFuncexpr op .empty) (0, s) e) : InlinedRight op a b s ↔ e.Agrees (op.jitFn a b) := by
  constructor
  · rintro ⟨e', h', hag⟩
    rw [ends_unique h h']
    exact hag
  · intro hag
    exact ⟨e, h, hag⟩

/-- Each inlined int4 operation raises when the native function does and otherwise stores its result, without a division that
traps, exactly when its arguments are not misread. -/
theorem inlined_int4_right_iff (op : JitInlineOp) (a b : BitVec 32) (s : SljitState) (ha : IsInt4Image a s.r0)
    (hb : op.nargs = 2 → IsInt4Image b s.r1) : InlinedRight op a b s ↔ ¬ Misread op a b s.r0 s.r1 := by
  have always : ∀ {p : Prop}, p → (p ↔ ¬ False) := fun h => ⟨fun _ => id, fun _ => h⟩
  cases op with
  | int4Add =>
    have h := arith_ends .add32 s
    rw [low32_image ha, low32_image (hb rfl)] at h
    exact (inlinedRight_iff .int4Add h).trans (always (arith_agrees _ _))
  | int4Sub =>
    have h := arith_ends .sub32 s
    rw [low32_image ha, low32_image (hb rfl)] at h
    exact (inlinedRight_iff .int4Sub h).trans (always (arith_agrees _ _))
  | int4Mul =>
    have h := arith_ends .mul32 s
    rw [low32_image ha, low32_image (hb rfl)] at h
    exact (inlinedRight_iff .int4Mul h).trans (always (arith_agrees _ _))
  | int4Div =>
    have h := div_ends s
    rw [low32_image ha, low32_image (hb rfl)] at h
    exact (inlinedRight_iff .int4Div h).trans (div_agrees (hb rfl) (.raised .int4Overflow) (.error .int4Overflow) _ rfl)
  | int4Mod =>
    have h := mod_ends s
    rw [low32_image ha, low32_image (hb rfl)] at h
    exact (inlinedRight_iff .int4Mod h).trans (div_agrees (hb rfl) (.stored 0) (.ok 0) _ rfl)
  | int4Eq =>
    have h := cmp_ends .equal s
    rw [low32_image ha, low32_image (hb rfl)] at h
    exact (inlinedRight_iff .int4Eq h).trans (always (cmp_agrees _))
  | int4Ne =>
    have h := cmp_ends .notEqual s
    rw [low32_image ha, low32_image (hb rfl)] at h
    exact (inlinedRight_iff .int4Ne h).trans (always (cmp_agrees _))
  | int4Lt =>
    have h := cmp_ends .sigLess s
    rw [low32_image ha, low32_image (hb rfl)] at h
    exact (inlinedRight_iff .int4Lt h).trans (always (cmp_agrees _))
  | int4Le =>
    have h := cmp_ends .sigLessEqual s
    rw [low32_image ha, low32_image (hb rfl)] at h
    exact (inlinedRight_iff .int4Le h).trans (always (cmp_agrees _))
  | int4Gt =>
    have h := cmp_ends .sigGreater s
    rw [low32_image ha, low32_image (hb rfl)] at h
    exact (inlinedRight_iff .int4Gt h).trans (always (cmp_agrees _))
  | int4Ge =>
    have h := cmp_ends .sigGreaterEqual s
    rw [low32_image ha, low32_image (hb rfl)] at h
    exact (inlinedRight_iff .int4Ge h).trans (always (cmp_agrees _))
  | int4ToInt8 =>
    have h := toInt8_ends s
    rw [low32_image ha] at h
    exact (inlinedRight_iff .int4ToInt8 h).trans (always (BitVec.setWidth_eq _))
  | int4ToInt2 => exact (inlinedRight_iff .int4ToInt2 (toInt2_ends s)).trans (toInt2_agrees ha)

namespace InlineInt4Witness

/-- The registers loaded with two Datums. -/
def loaded (r0 r1 : Datum) : SljitState := ⟨r0, r1, fun _ => false, 0⟩

/-- 7 divided by a zero-extended 2. -/
theorem seven_by_two : IsInt4Image 7 (loaded (int32GetDatum 7) (directCallDatum 2)).r0 ∧
    IsInt4Image 2 (loaded (int32GetDatum 7) (directCallDatum 2)).r1 ∧
    (InlinedRight .int4Div 7 2 (loaded (int32GetDatum 7) (directCallDatum 2)) ↔
      ¬ Misread .int4Div 7 2 (int32GetDatum 7) (directCallDatum 2)) :=
  ⟨Or.inl rfl, Or.inr rfl,
    inlined_int4_right_iff .int4Div 7 2 (loaded (int32GetDatum 7) (directCallDatum 2)) (Or.inl rfl) (fun _ => Or.inr rfl)⟩

/-- The smallest int4 divided by a -1 that a direct call left: the division is carried out. -/
theorem min_by_zero_extended_neg_one :
    ¬ ∀ (op : JitInlineOp) (a b : BitVec 32) (s : SljitState), IsInt4Image a s.r0 → (op.nargs = 2 → IsInt4Image b s.r1) →
      InlinedRight op a b s := by
  intro h
  obtain ⟨e, he, hag⟩ := h .int4Div pgInt32Min (-1) (loaded (int32GetDatum pgInt32Min) (directCallDatum (-1))) (Or.inl rfl)
    (fun _ => Or.inr rfl)
  have hrun := div_ends (loaded (int32GetDatum pgInt32Min) (directCallDatum (-1)))
  rw [if_neg (by decide), if_neg (by decide), if_pos (by decide)] at hrun
  have := ends_unique he hrun
  subst this
  exact hag

end InlineInt4Witness

end PgJitter
