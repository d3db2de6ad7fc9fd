import PgJitter.CompileExpr

/-!
# Helpers for `CompileExpr.lean`: the runs of the interpreter

What one step of the interpreter changes, and what a run over some steps leaves as it was. Jumps go forward, so that a run takes no more
steps than there are positions before its end.
-/

namespace PgJitter
namespace CompileExprAux

open Relation

variable {G : Type} {env : ExprEnv G} {steps : List (ExprEvalStep G)}

/-! ## One step -/

/-- What a step of a chain changes: at most its location and its flag. -/
theorem execBoolStep_frame (stop : Bool) (pos : BoolStepPos) (n jumpdone : Nat) (c : Cell) (pc : Nat) (s : EvalState) :
    ((execBoolStep stop pos n jumpdone c pc s).1 = pc + 1 ∨ (execBoolStep stop pos n jumpdone c pc s).1 = jumpdone) ∧
      (∀ c', c' ≠ c → (execBoolStep stop pos n jumpdone c pc s).2.cells c' = s.cells c') ∧
      (∀ k, k ≠ n → (execBoolStep stop pos n jumpdone c pc s).2.anynull k = s.anynull k) ∧
      (execBoolStep stop pos n jumpdone c pc s).2.result = s.result := by
  have hcell : ∀ {c'} (d : NullableDatum), c' ≠ c → Function.update s.cells c d c' = s.cells c' := fun d hne =>
    Function.update_of_ne hne _ _
  have hflag : ∀ {k} (f : Nat → Bool) (b : Bool), k ≠ n → Function.update f n b k = f k := fun f b hne => Function.update_of_ne hne _ _
  cases pos with
  | last =>
    simp only [execBoolStep]
    split_ifs
    · exact ⟨.inl rfl, fun _ _ => rfl, fun _ _ => rfl, rfl⟩
    · exact ⟨.inl rfl, fun _ _ => rfl, fun _ _ => rfl, rfl⟩
    · exact ⟨.inl rfl, fun _ hne => hcell _ hne, fun _ _ => rfl, rfl⟩
    · exact ⟨.inl rfl, fun _ _ => rfl, fun _ _ => rfl, rfl⟩
  | first =>
    simp only [execBoolStep, if_true]
    split_ifs
    · exact ⟨.inl rfl, fun _ _ => rfl, fun k hne => (hflag _ _ hne).trans (hflag _ _ hne), rfl⟩
    · exact ⟨.inr rfl, fun _ _ => rfl, fun k hne => hflag _ _ hne, rfl⟩
    · exact ⟨.inl rfl, fun _ _ => rfl, fun k hne => hflag _ _ hne, rfl⟩
  | step =>
    simp only [execBoolStep, reduceCtorEq, if_false]
    split_ifs
    · exact ⟨.inl rfl, fun _ _ => rfl, fun k hne => hflag _ _ hne, rfl⟩
    · exact ⟨.inr rfl, fun _ _ => rfl, fun _ _ => rfl, rfl⟩
    · exact ⟨.inl rfl, fun _ _ => rfl, fun _ _ => rfl, rfl⟩

/-- What a step changes: it goes on or to a target, and writes at most its location, its flag and its column. -/
structure StepFrame (step : ExprEvalStep G) (pc pc' : Nat) (s s' : EvalState) : Prop where
  goes : pc' = pc + 1 ∨ pc' ∈ step.op.targets
  cells : ∀ c, c ≠ step.resvalue → s'.cells c = s.cells c
  anynull : ∀ n, step.op.anynull? ≠ some n → s'.anynull n = s.anynull n
  result : step.op.column? = none → s'.result = s.result

/-- A step that only stores a value and goes on or to a target. -/
theorem stepFrame_store {step : ExprEvalStep G} {pc pc' : Nat} {s : EvalState} (hgoes : pc' = pc + 1 ∨ pc' ∈ step.op.targets)
    (d : NullableDatum) : StepFrame step pc pc' s (s.store step.resvalue d) :=
  ⟨hgoes, fun _ hne => Function.update_of_ne hne _ _, fun _ _ => rfl, fun _ => rfl⟩

/-- A step that only goes on or to a target. -/
theorem stepFrame_same {step : ExprEvalStep G} {pc pc' : Nat} (s : EvalState) (hgoes : pc' = pc + 1 ∨ pc' ∈ step.op.targets) :
    StepFrame step pc pc' s s :=
  ⟨hgoes, fun _ _ => rfl, fun _ _ => rfl, fun _ => rfl⟩

/-- What the interpreter changes at a step. -/
theorem execStep_frame {step : ExprEvalStep G} {pc pc' : Nat} {s s' : EvalState} (h : execStep env step pc s = some (pc', s')) :
    StepFrame step pc pc' s s' := by
  obtain ⟨op, c⟩ := step
  cases op with
  | done => cases h
  | const k => cases h; exact stepFrame_store (.inl rfl) _
  | var src attnum => cases h; exact stepFrame_store (.inl rfl) _
  | assignVar src attnum resultnum =>
    cases h
    exact ⟨.inl rfl, fun _ _ => rfl, fun _ _ => rfl, fun hcolumn => (Option.some_ne_none _ hcolumn).elim⟩
  | assignTmp resultnum =>
    cases h
    exact ⟨.inl rfl, fun _ _ => rfl, fun _ _ => rfl, fun hcolumn => (Option.some_ne_none _ hcolumn).elim⟩
  | funcExpr fn fcinfo nargs =>
    cases h
    exact stepFrame_store (.inl rfl) _
  | funcExprStrict fn fcinfo nargs =>
    cases h
    unfold execFunc
    split
    · exact stepFrame_store (.inl rfl) _
    · exact stepFrame_store (.inl rfl) _
  | boolAndStep pos n jumpdone =>
    have hframe := execBoolStep_frame false pos n jumpdone c pc s
    rw [Option.some.inj h] at hframe
    obtain ⟨hgoes, hcells, hanynull, hresult⟩ := hframe
    exact ⟨hgoes.imp_right List.mem_singleton.2, hcells, fun k hk => hanynull k fun heq => hk (heq ▸ rfl), fun _ => hresult⟩
  | boolOrStep pos n jumpdone =>
    have hframe := execBoolStep_frame true pos n jumpdone c pc s
    rw [Option.some.inj h] at hframe
    obtain ⟨hgoes, hcells, hanynull, hresult⟩ := hframe
    exact ⟨hgoes.imp_right List.mem_singleton.2, hcells, fun k hk => hanynull k fun heq => hk (heq ▸ rfl), fun _ => hresult⟩
  | boolNotStep => cases h; exact stepFrame_store (.inl rfl) _
  | qual jumpdone =>
    simp only [execStep] at h
    split at h
    · cases h
      exact stepFrame_store (.inr List.mem_cons_self) _
    · cases h
      exact stepFrame_same s (.inl rfl)
  | jump jumpdone => cases h; exact stepFrame_same s (.inr List.mem_cons_self)
  | jumpIfNull jumpdone =>
    cases h
    refine stepFrame_same s ?_
    split
    · exact .inr List.mem_cons_self
    · exact .inl rfl
  | jumpIfNotNull jumpdone =>
    cases h
    refine stepFrame_same s ?_
    split
    · exact .inl rfl
    · exact .inr List.mem_cons_self
  | jumpIfNotTrue jumpdone =>
    cases h
    refine stepFrame_same s ?_
    split
    · exact .inr List.mem_cons_self
    · exact .inl rfl
  | nulltestIsNull => cases h; exact stepFrame_store (.inl rfl) _
  | nulltestIsNotNull => cases h; exact stepFrame_store (.inl rfl) _
  | caseTestval value => cases h; exact stepFrame_store (.inl rfl) _
  | other n targets =>
    cases h
    refine stepFrame_store ?_ _
    cases hway : (env.other n s.cells).2 with
    | zero => exact .inl rfl
    | succ way =>
      rw [List.getD_cons_succ, List.getD_eq_getElem?_getD]
      cases ht : targets[way]? with
      | none => exact .inl rfl
      | some t => exact .inr (List.mem_of_getElem? ht)

/-! ## Runs -/

/-- What one turn of the loop changes. -/
theorem interpStep_frame {a b : Nat × EvalState} (h : InterpStep env steps a b) :
    ∃ step, steps[a.1]? = some step ∧ step.op ≠ .done ∧ StepFrame step a.1 b.1 a.2 b.2 := by
  obtain ⟨step, hstep, hexec⟩ := h
  obtain ⟨pc', s'⟩ := b
  refine ⟨step, hstep, fun hdone => ?_, execStep_frame hexec⟩
  rw [execStep, hdone] at hexec
  cases hexec

/-- A run goes forward. -/
theorem interpStep_lt (hforward : ForwardJumps steps) {a b : Nat × EvalState} (h : InterpStep env steps a b) : a.1 < b.1 := by
  obtain ⟨step, hstep, -, hframe⟩ := interpStep_frame h
  rcases hframe.goes with heq | hmem
  · omega
  · exact hforward a.1 step hstep b.1 hmem

theorem interpRun_le (hforward : ForwardJumps steps) {a b : Nat × EvalState} (h : ReflTransGen (InterpStep env steps) a b) :
    a.1 ≤ b.1 := by
  induction h with
  | refl => exact Nat.le_refl _
  | tail _ hstep ih => exact Nat.le_trans ih (Nat.le_of_lt (interpStep_lt hforward hstep))

/-- More fuel changes nothing. -/
theorem execInterp_mono {fuel fuel' pc : Nat} {s r : EvalState} (h : execInterpExpr env steps fuel pc s = some r) (hle : fuel ≤ fuel') :
    execInterpExpr env steps fuel' pc s = some r := by
  induction fuel generalizing fuel' pc s with
  | zero => cases h
  | succ fuel ih =>
    obtain ⟨k, rfl⟩ : ∃ k, fuel' = k + 1 := ⟨fuel' - 1, by omega⟩
    rw [execInterpExpr] at h ⊢
    cases hstep : steps[pc]? with
    | none => rw [hstep] at h; cases h
    | some step =>
      rw [hstep] at h
      dsimp only at h ⊢
      cases hexec : execStep env step pc s with
      | none => rwa [hexec] at h
      | some b =>
        rw [hexec] at h
        exact ih h (by omega)

/-- What the interpreter gives from the end of a run, it gives from the beginning. -/
theorem execInterp_of_run (hforward : ForwardJumps steps) {a b : Nat × EvalState} (h : ReflTransGen (InterpStep env steps) a b)
    {r : EvalState}
    (hr : execInterpExpr env steps (steps.length - b.1) b.1 b.2 = some r) :
    execInterpExpr env steps (steps.length - a.1) a.1 a.2 = some r := by
  induction h using ReflTransGen.head_induction_on with
  | refl => exact hr
  | head hstep hrest ih =>
    rename_i a c
    have hlt := interpStep_lt hforward hstep
    obtain ⟨step, hat, hexec⟩ := hstep
    obtain ⟨hin, -⟩ := List.getElem?_eq_some_iff.1 hat
    obtain ⟨k, hk⟩ : ∃ k, steps.length - a.1 = k + 1 := ⟨steps.length - a.1 - 1, by omega⟩
    rw [hk, execInterpExpr, hat]
    dsimp only
    rw [hexec]
    exact execInterp_mono ih (by omega)

/-- The run of `execUntil`. -/
theorem run_of_execUntil {stop fuel pc : Nat} {s s' : EvalState} (h : execUntil env steps stop fuel pc s = some s') :
    ReflTransGen (InterpStep env steps) (pc, s) (stop, s') := by
  induction fuel generalizing pc s with
  | zero =>
    rw [execUntil] at h
    split at h
    · rename_i heq
      cases h
      rw [heq]
    · cases h
  | succ fuel ih =>
    rw [execUntil] at h
    split at h
    · rename_i heq
      cases h
      rw [heq]
    · cases hstep : steps[pc]? with
      | none => rw [hstep] at h; cases h
      | some step =>
        rw [hstep] at h
        dsimp only at h
        cases hexec : execStep env step pc s with
        | none => rw [hexec] at h; cases h
        | some b =>
          rw [hexec] at h
          exact (ih h).head ⟨step, hstep, hexec⟩

/-- What no step between writes, a run leaves. -/
theorem run_frame (hforward : ForwardJumps steps) {a b : Nat × EvalState} (h : ReflTransGen (InterpStep env steps) a b) :
    (∀ c, (∀ j, a.1 ≤ j → j < b.1 → resAt steps j ≠ some c) → b.2.cells c = a.2.cells c) ∧
      (∀ n, (∀ j op, a.1 ≤ j → j < b.1 → opAt steps j = some op → op.anynull? ≠ some n) → b.2.anynull n = a.2.anynull n) ∧
      ((∀ j op, a.1 ≤ j → j < b.1 → opAt steps j = some op → op.column? = none) → b.2.result = a.2.result) := by
  induction h using ReflTransGen.head_induction_on with
  | refl => exact ⟨fun _ _ => rfl, fun _ _ => rfl, fun _ => rfl⟩
  | head hstep hrest ih =>
    rename_i a c
    obtain ⟨hcells, hanynull, hresult⟩ := ih
    have hlt := interpStep_lt hforward hstep
    have hle := interpRun_le hforward hrest
    obtain ⟨step, hat, -, hframe⟩ := interpStep_frame hstep
    have hop : opAt steps a.1 = some step.op := by rw [opAt, hat, Option.map_some]
    refine ⟨fun x hx => ?_, fun n hn => ?_, fun hcolumns => ?_⟩
    · rw [hcells x fun j hj => hx j (by omega)]
      refine hframe.cells x fun heq => hx a.1 (Nat.le_refl _) (by omega) ?_
      rw [resAt, hat, Option.map_some, heq]
    · rw [hanynull n fun j op hj => hn j op (by omega)]
      exact hframe.anynull n (hn a.1 step.op (Nat.le_refl _) (by omega) hop)
    · rw [hresult fun j op hj => hcolumns j op (by omega)]
      exact hframe.result (hcolumns a.1 step.op (Nat.le_refl _) (by omega) hop)

/-- The constants stay. -/
theorem sameConstants_run {m : EvalState} {a b : Nat × EvalState} (h : ReflTransGen (InterpStep env steps) a b)
    (hsame : SameConstants steps m a.2) : SameConstants steps m b.2 := by
  induction h with
  | refl => exact hsame
  | tail _ hstep ih =>
    obtain ⟨step, hat, -, hframe⟩ := interpStep_frame hstep
    intro fcinfo argno hunwritten
    rw [hframe.cells _ (hunwritten step (List.mem_of_getElem? hat)).symm]
    exact ih fcinfo argno hunwritten

end CompileExprAux
end PgJitter
