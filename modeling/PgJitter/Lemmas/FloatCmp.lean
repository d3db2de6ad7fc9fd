import PgJitter.FloatCmp

/-!
# The order of floats

NaN is the top element: the C helpers compute the comparison of that order, and the emitted code takes its sign.
-/

namespace PgJitter

open Assembly

namespace FloatCmpAux

/-! ## The helpers compute the order -/

section Order

variable {α β : Type} [LinearOrder α] [LinearOrder β]

/-- The helper is the comparison of the order. -/
theorem float8CmpJit_eq (a b : PgFloat β) : float8CmpJit a b = orderingToInt (cmp a.key b.key) := by
  rw [orderingToInt_cmp]
  cases a <;> cases b <;> simp [float8CmpJit, PgFloat.key, PgFloat.isnan, PgFloat.lt]
  grind

/-- The cast to double keeps the machine's order. -/
theorem lt_widen (w : α ↪o β) (a b : PgFloat α) : (a.widen w).lt (b.widen w) = a.lt b := by
  cases a <;> cases b <;> simp [PgFloat.widen, PgFloat.lt]

theorem isnan_widen (w : α ↪o β) (a : PgFloat α) : (a.widen w).isnan = a.isnan := by cases a <;> rfl

theorem float4CmpJit_eq (w : α ↪o β) (a b : PgFloat α) : float4CmpJit a b = float8CmpJit (a.widen w) (b.widen w) := by
  simp only [float4CmpJit, float8CmpJit, lt_widen, isnan_widen]

/-- A float of either width as a double. -/
def toF8 (w : α ↪o β) : AnyFloat α β → PgFloat β
  | .f4 a => a.widen w
  | .f8 b => b

theorem isnan_toF8 (w : α ↪o β) (a : AnyFloat α β) : (toF8 w a).isnan = a.isnan := by
  cases a with
  | f4 a => exact isnan_widen w a
  | f8 b => rfl

/-- All the operators compare doubles with the helper. -/
theorem jitFloatOp_eq (w : α ↪o β) (op : CmpOp) (a b : AnyFloat α β) :
    jitFloatOp w op a b = boolToInt (op.cond (float8CmpJit (toF8 w a) (toF8 w b))) := by
  cases a with
  | f4 a =>
    cases b with
    | f4 b =>
      rw [toF8, toF8, ← float4CmpJit_eq]
      cases op <;> rfl
    | f8 b => cases op <;> rfl
  | f8 a => cases b <;> cases op <;> rfl

/-- All the btree functions compare doubles. -/
theorem jitBtfloatcmp_eq (w : α ↪o β) (a b : AnyFloat α β) :
    jitBtfloatcmp w a b = jitBtfloat8cmp (toF8 w a) (toF8 w b) := by
  cases a with
  | f4 a =>
    cases b with
    | f4 b => simp only [jitBtfloatcmp, jitBtfloat4cmp, jitBtfloat8cmp, toF8, lt_widen]
    | f8 b => rfl
  | f8 a => cases b <;> rfl

/-- The btree function is the helper on two numbers and on two NaNs. -/
theorem jitBtfloat8cmp_of_isnan_eq {a b : PgFloat β} (h : a.isnan = b.isnan) : jitBtfloat8cmp a b = float8CmpJit a b := by
  cases a <;> cases b <;> first | rfl | nomatch h

/-- On one NaN and one number the btree function finds equality. -/
theorem jitBtfloat8cmp_of_isnan_ne {a b : PgFloat β} (h : a.isnan ≠ b.isnan) : jitBtfloat8cmp a b = 0 := by
  cases a <;> cases b <;> first | rfl | exact absurd rfl h

end Order

/-! ## Running the emitted code -/

section Run

variable {β : Type} [LinearOrder β] {toF64 : Datum → PgFloat β} {P : FloatProgram} {c : FloatCond} {pc : Nat}
  {s s' : FloatState β} {d : Datum}

/-- From a position on, the code runs to its end and leaves a Datum in R0. -/
def StoresFrom (toF64 : Datum → PgFloat β) (P : FloatProgram) (pc : Nat) (s : FloatState β) (d : Datum) : Prop :=
  ∃ s', Runs (FloatInsn.exec toF64) P (pc, s) (P.here, s') ∧ s'.r0 = d

/-- An instruction that falls through. -/
theorem from_next {i : FloatInsn} (hi : P.code[pc]? = some i) (he : i.exec toF64 s = .next s')
    (h : StoresFrom toF64 P (pc + 1) s' d) : StoresFrom toF64 P pc s d := by
  obtain ⟨t, ht, hd⟩ := h
  exact ⟨t, .next hi he ht, hd⟩

/-- A jump that is taken. -/
theorem from_jump {i : FloatInsn} {l : Nat} (hi : P.code[pc]? = some i) (he : i.exec toF64 s = .jump s')
    (hl : P.target pc = some l) (h : StoresFrom toF64 P l s' d) : StoresFrom toF64 P pc s d := by
  obtain ⟨t, ht, hd⟩ := h
  exact ⟨t, .jump hi he hl ht, hd⟩

/-- A conditional jump, by its condition. -/
theorem from_jumpIf {i : FloatInsn} {b : Bool} {l : Nat} (hi : P.code[pc]? = some i) (he : i.exec toF64 s = floatJumpIf b s)
    (hl : P.target pc = some l) (ht : b = true → StoresFrom toF64 P l s d) (hf : b = false → StoresFrom toF64 P (pc + 1) s d) :
    StoresFrom toF64 P pc s d := by
  cases b with
  | true => exact from_jump hi he hl (ht rfl)
  | false => exact from_next hi he (hf rfl)

/-- The end of the code. -/
theorem from_here (h : pc = P.here) (hd : s.r0 = d) : StoresFrom toF64 P pc s d := by
  subst h
  exact ⟨s, .refl, hd⟩

/-- A comparison whose flag is stored. -/
theorem from_cmpFlags {a b : FloatReg} (hi : P.code[pc]? = some (.cmpF64 a b)) (hi' : P.code[pc + 1]? = some (.opFlags c))
    (h : ∀ t : FloatState β, t.fr0 = s.fr0 → t.fr1 = s.fr1 → t.r0 = boolGetDatum (floatCondOf (s.freg a) (s.freg b) c) →
      StoresFrom toF64 P (pc + 2) t d) : StoresFrom toF64 P pc s d :=
  from_next hi rfl (from_next hi' rfl (h _ rfl rfl rfl))

/-- A comparison of a register with itself finds a NaN. -/
theorem unordered_self (a : PgFloat β) : floatCondOf a a .unordered = a.isnan := Bool.or_self _

theorem ordered_self (a : PgFloat β) : floatCondOf a a .ordered = !a.isnan := congrArg (!·) (Bool.or_self _)

/-- A stored truth value, compared with 0. -/
theorem boolGetDatum_eq_zero (b : Bool) : (boolGetDatum b == 0) = !b := by cases b <;> decide

/-- The ordered comparison that an operator needs. -/
def orderedCond : CmpOp → FloatCond
  | .eq => .equal
  | .ne => .notEqual
  | .lt => .less
  | .le => .lessEqual
  | .gt => .greater
  | .ge => .greaterEqual

/-- On numbers the ordered comparison is the sign of the helper. -/
theorem ordered_cond {a b : PgFloat β} (h : (a.isnan || b.isnan) = false) (op : CmpOp) :
    floatCondOf a b (orderedCond op) = op.cond (float8CmpJit a b) := by
  rw [float8CmpJit_eq, orderingToInt_cmp]
  cases a with
  | nan => nomatch h
  | num a =>
    cases b with
    | nan => nomatch h
    | num b =>
      rcases lt_trichotomy a b with hlt | rfl | hgt
      · cases op <;>
          simp [PgFloat.key, CmpOp.cond, orderedCond, floatCondOf, PgFloat.eq, PgFloat.lt, PgFloat.le, hlt, hlt.ne, hlt.le, hlt.not_gt]
      · cases op <;> simp [PgFloat.key, CmpOp.cond, orderedCond, floatCondOf, PgFloat.eq, PgFloat.lt, PgFloat.le]
      · cases op <;>
          simp [PgFloat.key, CmpOp.cond, orderedCond, floatCondOf, PgFloat.eq, PgFloat.lt, PgFloat.le, hgt, hgt.ne', hgt.le, hgt.not_gt]

/-- The helper on a NaN. -/
theorem float8CmpJit_of_nan {a b : PgFloat β} (h : (a.isnan || b.isnan) = true) :
    float8CmpJit a b = if a.isnan then if b.isnan then 0 else 1 else -1 := by
  cases a <;> cases b <;> first | rfl | nomatch h

/-- The code starts with the ordered comparison. -/
structure StartsOrdered (c : FloatCond) (P : FloatProgram) : Prop where
  code : ∀ k < 7, P.code[k]? =
    [.copyToF64 .fr0, .copyToF64 .fr1, .cmpF64 .fr0 .fr1, .jumpIf .unordered, .cmpF64 .fr0 .fr1, .opFlags c, .jump][k]?
  nan : P.target 3 = some 7
  done : P.target 6 = some P.here

/-- Code that starts with the ordered comparison stores the sign of the helper, when what comes after it does so for NaN. -/
theorem stores_of_startsOrdered {op : CmpOp} (hP : StartsOrdered (orderedCond op) P) (s : FloatState β)
    (hnan : ∀ t : FloatState β, t.fr0 = toF64 s.r0 → t.fr1 = toF64 s.r1 → (t.fr0.isnan || t.fr1.isnan) = true →
      StoresFrom toF64 P 7 t (boolGetDatum (op.cond (if t.fr0.isnan then if t.fr1.isnan then 0 else 1 else -1)))) :
    FloatStores toF64 P s (boolGetDatum (op.cond (float8CmpJit (toF64 s.r0) (toF64 s.r1)))) := by
  have hstart : StoresFrom toF64 P 0 s (boolGetDatum (op.cond (float8CmpJit (toF64 s.r0) (toF64 s.r1)))) := by
    refine from_next (hP.code 0 (by decide)) rfl (from_next (hP.code 1 (by decide)) rfl
      (from_next (hP.code 2 (by decide)) rfl ?_))
    refine from_jumpIf (b := (toF64 s.r0).isnan || (toF64 s.r1).isnan) (hP.code 3 (by decide)) rfl hP.nan ?_ ?_
    · intro h
      rw [float8CmpJit_of_nan h]
      exact hnan _ rfl rfl h
    · intro h
      refine from_cmpFlags (hP.code 4 (by decide)) (hP.code 5 (by decide)) fun t _ _ hr0 => ?_
      refine from_jump (hP.code 6 (by decide)) rfl hP.done (from_here rfl (hr0.trans ?_))
      exact congrArg boolGetDatum (ordered_cond h op)
  exact hstart

/-! ### What each comparison does with NaN -/

/-- Equality: true when both are NaN. -/
theorem float8Eq_stores (s : FloatState β) :
    FloatStores toF64 (emitFloat8Eq .empty) s (boolGetDatum (CmpOp.cond .eq (float8CmpJit (toF64 s.r0) (toF64 s.r1)))) := by
  refine stores_of_startsOrdered ⟨by decide, rfl, rfl⟩ s fun t _ _ h => from_cmpFlags rfl rfl fun u _ h1 hr0 => ?_
  rw [FloatState.freg, unordered_self] at hr0
  refine from_jumpIf (i := .cmpZero true) (b := (u.r0 == 0) == true) rfl rfl rfl ?_ ?_
  · intro hz
    rw [hr0, boolGetDatum_eq_zero, beq_true, Bool.not_eq_true'] at hz
    exact from_here rfl (by rw [hr0, hz]; rfl)
  · intro hz
    rw [hr0, boolGetDatum_eq_zero, beq_true, Bool.not_eq_false'] at hz
    refine from_cmpFlags rfl rfl fun v _ _ hv => from_here rfl ?_
    rw [hv, FloatState.freg, unordered_self, h1, hz]
    cases t.fr1.isnan <;> rfl

/-- Inequality: true unless both are NaN. -/
theorem float8Ne_stores (s : FloatState β) :
    FloatStores toF64 (emitFloat8Ne .empty) s (boolGetDatum (CmpOp.cond .ne (float8CmpJit (toF64 s.r0) (toF64 s.r1)))) := by
  refine stores_of_startsOrdered ⟨by decide, rfl, rfl⟩ s fun t _ _ h => from_cmpFlags rfl rfl fun u _ h1 hr0 => ?_
  rw [FloatState.freg, unordered_self] at hr0
  refine from_jumpIf (i := .cmpZero true) (b := (u.r0 == 0) == true) rfl rfl rfl ?_ ?_
  · intro hz
    rw [hr0, boolGetDatum_eq_zero, beq_true, Bool.not_eq_true'] at hz
    rw [hz]
    exact from_next (i := .movImm 1) rfl rfl (from_here rfl rfl)
  · intro hz
    rw [hr0, boolGetDatum_eq_zero, beq_true, Bool.not_eq_false'] at hz
    refine from_cmpFlags rfl rfl fun v _ _ hv => from_jump (i := .jump) rfl rfl rfl (from_here rfl ?_)
    rw [hv, FloatState.freg, ordered_self, h1, hz]
    cases t.fr1.isnan <;> rfl

/-- Less: true when the first is not NaN. -/
theorem float8Lt_stores (s : FloatState β) :
    FloatStores toF64 (emitFloat8Lt .empty) s (boolGetDatum (CmpOp.cond .lt (float8CmpJit (toF64 s.r0) (toF64 s.r1)))) := by
  refine stores_of_startsOrdered ⟨by decide, rfl, rfl⟩ s fun t _ _ h => from_cmpFlags rfl rfl fun u _ _ hr0 => from_here rfl ?_
  rw [hr0, FloatState.freg, ordered_self]
  cases t.fr0.isnan <;> cases t.fr1.isnan <;> rfl

/-- Less or equal: true when the first is not NaN or both are. -/
theorem float8Le_stores (s : FloatState β) :
    FloatStores toF64 (emitFloat8Le .empty) s (boolGetDatum (CmpOp.cond .le (float8CmpJit (toF64 s.r0) (toF64 s.r1)))) := by
  refine stores_of_startsOrdered ⟨by decide, rfl, rfl⟩ s fun t _ _ h => from_cmpFlags rfl rfl fun u _ h1 hr0 => ?_
  rw [FloatState.freg, unordered_self] at hr0
  refine from_jumpIf (i := .cmpZero false) (b := (u.r0 == 0) == false) rfl rfl rfl ?_ ?_
  · intro hz
    rw [hr0, boolGetDatum_eq_zero, beq_false, Bool.not_not] at hz
    refine from_cmpFlags rfl rfl fun v _ _ hv => from_here rfl ?_
    rw [hv, FloatState.freg, unordered_self, h1, hz]
    cases t.fr1.isnan <;> rfl
  · intro hz
    rw [hr0, boolGetDatum_eq_zero, beq_false, Bool.not_not] at hz
    rw [hz]
    exact from_next (i := .movImm 1) rfl rfl (from_jump (i := .jump) rfl rfl rfl (from_here rfl rfl))

/-- Greater: true when the first alone is NaN. -/
theorem float8Gt_stores (s : FloatState β) :
    FloatStores toF64 (emitFloat8Gt .empty) s (boolGetDatum (CmpOp.cond .gt (float8CmpJit (toF64 s.r0) (toF64 s.r1)))) := by
  refine stores_of_startsOrdered ⟨by decide, rfl, rfl⟩ s fun t _ _ h => from_cmpFlags rfl rfl fun u _ h1 hr0 => ?_
  rw [FloatState.freg, unordered_self] at hr0
  refine from_jumpIf (i := .cmpZero true) (b := (u.r0 == 0) == true) rfl rfl rfl ?_ ?_
  · intro hz
    rw [hr0, boolGetDatum_eq_zero, beq_true, Bool.not_eq_true'] at hz
    exact from_here rfl (by rw [hr0, hz]; rfl)
  · intro hz
    rw [hr0, boolGetDatum_eq_zero, beq_true, Bool.not_eq_false'] at hz
    refine from_cmpFlags rfl rfl fun v _ _ hv => from_here rfl ?_
    rw [hv, FloatState.freg, ordered_self, h1, hz]
    cases t.fr1.isnan <;> rfl

/-- Greater or equal: true when the first is NaN. -/
theorem float8Ge_stores (s : FloatState β) :
    FloatStores toF64 (emitFloat8Ge .empty) s (boolGetDatum (CmpOp.cond .ge (float8CmpJit (toF64 s.r0) (toF64 s.r1)))) := by
  refine stores_of_startsOrdered ⟨by decide, rfl, rfl⟩ s fun t _ _ h => from_cmpFlags rfl rfl fun u _ _ hr0 => from_here rfl ?_
  rw [hr0, FloatState.freg, unordered_self]
  cases t.fr0.isnan <;> cases t.fr1.isnan <;> rfl

/-- The emitted comparisons store the sign of the helper. -/
theorem float8Cmp_stores (op : CmpOp) (s : FloatState β) :
    FloatStores toF64 (emitFloat8Cmp op .empty) s (boolGetDatum (op.cond (float8CmpJit (toF64 s.r0) (toF64 s.r1)))) := by
  cases op with
  | eq => exact float8Eq_stores s
  | ne => exact float8Ne_stores s
  | lt => exact float8Lt_stores s
  | le => exact float8Le_stores s
  | gt => exact float8Gt_stores s
  | ge => exact float8Ge_stores s

end Run

end FloatCmpAux

end PgJitter
