import PgJitter.Lemmas.CaseEval
import PgJitter.Lemmas.CompileInterp

/-!
# Helpers for `CaseEval.lean`: the run of one WHEN of two comparisons

The interpreter comes from the first step of a WHEN to its THEN when both comparisons are true, and else to where the conditional jump
goes. A null is loaded, compared and jumped on like any other value, so that there is one run for all of them.
-/

namespace PgJitter
namespace CaseWhenAux

open Relation CaseDetectAux CaseEvalAux CompileExprAux

variable {G : Type} {steps : List (ExprEvalStep G)} {m : EvalState} {fns : CaseFuncs G} {env : ExprEnv G} {c : Cell} {stop : Nat}

/-! ## The end of a run -/

/-- More fuel than there are steps left changes nothing. -/
theorem execUntil_fuel (hforward : ForwardJumps steps) {fuel fuel' pc : Nat} (h : steps.length ≤ pc + fuel)
    (h' : steps.length ≤ pc + fuel') (s : EvalState) : execUntil env steps stop fuel pc s = execUntil env steps stop fuel' pc s := by
  induction fuel generalizing fuel' pc s with
  | zero =>
    have hnone : steps[pc]? = none := List.getElem?_eq_none (by omega)
    cases fuel' with
    | zero => rfl
    | succ fuel' => rw [execUntil, execUntil, hnone]
  | succ fuel ih =>
    cases hstep : steps[pc]? with
    | none =>
      cases fuel' with
      | zero => rw [execUntil, execUntil, hstep]
      | succ fuel' => rw [execUntil, execUntil, hstep]
    | some step =>
      obtain ⟨hlt, -⟩ := List.getElem?_eq_some_iff.1 hstep
      obtain ⟨k, rfl⟩ : ∃ k, fuel' = k + 1 := ⟨fuel' - 1, by omega⟩
      rw [execUntil, execUntil, hstep]
      dsimp only
      cases hexec : execStep env step pc s with
      | none => rfl
      | some b =>
        obtain ⟨pc', s'⟩ := b
        have hturn : InterpStep env steps (pc, s) (pc', s') := ⟨step, hstep, hexec⟩
        have hpc : pc < pc' := interpStep_lt hforward hturn
        dsimp only
        rw [ih (by omega) (show steps.length ≤ pc' + k by omega)]

/-- A run to a step before the end comes to the end with what comes to it from that step. -/
theorem execUntil_run (hforward : ForwardJumps steps) {a b : Nat × EvalState} (h : ReflTransGen (InterpStep env steps) a b)
    (hstop : b.1 ≤ stop) {fuel fuel' : Nat} (hfuel : steps.length ≤ a.1 + fuel) (hfuel' : steps.length ≤ b.1 + fuel') :
    execUntil env steps stop fuel a.1 a.2 = execUntil env steps stop fuel' b.1 b.2 := by
  induction h using ReflTransGen.head_induction_on generalizing fuel with
  | refl => exact execUntil_fuel hforward hfuel hfuel' b.2
  | head hstep hrest ih =>
    rename_i a d
    have hlt := interpStep_lt hforward hstep
    have hle := interpRun_le hforward hrest
    obtain ⟨step, hat, hexec⟩ := hstep
    obtain ⟨hin, -⟩ := List.getElem?_eq_some_iff.1 hat
    obtain ⟨k, rfl⟩ : ∃ k, fuel = k + 1 := ⟨fuel - 1, by omega⟩
    rw [execUntil, if_neg (by omega), hat]
    dsimp only
    rw [hexec]
    exact ih (by omega)

/-! ## Single steps -/

/-- One turn of the loop, by what stands at the step. -/
theorem turn {pc pc' : Nat} {s s' : EvalState} {op : EvalOp G} {c' : Cell} (hop : opAt steps pc = some op)
    (hres : resAt steps pc = some c') (hexec : execStep env ⟨op, c'⟩ pc s = some (pc', s')) :
    InterpStep env steps (pc, s) (pc', s') :=
  ⟨_, stepAt hop hres, hexec⟩

/-- The first of two conditions: a false one ends the AND, and else the flag says whether it was null. -/
theorem turn_andFirst {pc t n : Nat} (s : EvalState) {c' : Cell} (hop : opAt steps pc = some (.boolAndStep .first n t))
    (hres : resAt steps pc = some c') :
    ∃ s', s'.cells = s.cells ∧ ((givesTrue (s.cells c') = false ∧ InterpStep env steps (pc, s) (t, s')) ∨
      (InterpStep env steps (pc, s) (pc + 1, s') ∧ s'.anynull n = !givesTrue (s.cells c'))) := by
  have hexec : execStep env ⟨.boolAndStep .first n t, c'⟩ pc s = some (execBoolStep false .first n t c' pc s) := rfl
  cases hnull : (s.cells c').isnull with
  | true =>
    refine ⟨(s.setAnynull n false).setAnynull n true, rfl, .inr ⟨turn hop hres ?_, ?_⟩⟩
    · rw [hexec]
      simp only [execBoolStep, hnull, if_true]
    · rw [givesTrue, hnull]
      exact Function.update_self ..
  | false =>
    cases hval : datumGetBool (s.cells c').value with
    | true =>
      refine ⟨s.setAnynull n false, rfl, .inr ⟨turn hop hres ?_, ?_⟩⟩
      · rw [hexec]
        simp [execBoolStep, hnull, hval]
      · rw [givesTrue, hnull, hval]
        exact Function.update_self ..
    | false =>
      refine ⟨s.setAnynull n false, rfl, .inl ⟨?_, turn hop hres ?_⟩⟩
      · rw [givesTrue, hval, Bool.and_false]
      · rw [hexec]
        simp [execBoolStep, hnull, hval]

/-- The second of two conditions: what it leaves is true when it is and the first one was not null. -/
theorem turn_andLast {pc t n : Nat} (s : EvalState) {c' : Cell} (hop : opAt steps pc = some (.boolAndStep .last n t))
    (hres : resAt steps pc = some c') :
    ∃ s', InterpStep env steps (pc, s) (pc + 1, s') ∧ givesTrue (s'.cells c') = (givesTrue (s.cells c') && !s.anynull n) := by
  have hexec : execStep env ⟨.boolAndStep .last n t, c'⟩ pc s = some (execBoolStep false .last n t c' pc s) := rfl
  cases hnull : (s.cells c').isnull with
  | true =>
    refine ⟨s, turn hop hres ?_, ?_⟩
    · rw [hexec]
      simp only [execBoolStep, hnull, if_true]
    · rw [givesTrue, hnull]
      rfl
  | false =>
    cases hval : datumGetBool (s.cells c').value with
    | false =>
      refine ⟨s, turn hop hres ?_, ?_⟩
      · rw [hexec]
        simp [execBoolStep, hnull, hval]
      · rw [givesTrue, hval, Bool.and_false, Bool.false_and]
    | true =>
      cases hflag : s.anynull n with
      | true =>
        refine ⟨s.store c' ⟨0, true⟩, turn hop hres ?_, ?_⟩
        · rw [hexec]
          simp [execBoolStep, hnull, hval, hflag]
        · rw [EvalState.cells_store, Function.update_self, Bool.not_true, Bool.and_false]
          rfl
      | false =>
        refine ⟨s, turn hop hres ?_, ?_⟩
        · rw [hexec]
          simp [execBoolStep, hnull, hval, hflag]
        · rw [Bool.not_false, Bool.and_true]

/-- A run between two steps keeps what no step between them writes. -/
theorem kept_run (hforward : ForwardJumps steps) {lo pc pc' : Nat} {s₀ s s' : EvalState}
    (hrun : ReflTransGen (InterpStep env steps) (pc, s) (pc', s')) (hs : Kept steps lo stop s₀ s) (hlo : lo ≤ pc) (hle : pc' ≤ stop) :
    Kept steps lo stop s₀ s' := by
  intro x hx
  have hsame : s'.cells x = s.cells x := (run_frame hforward hrun).1 x fun n hn hlt =>
    hx n (Nat.le_trans hlo hn) (Nat.lt_of_lt_of_le hlt hle)
  rw [hsame]
  exact hs x hx

/-! ## The run of a WHEN -/

/-- A WHEN that runs as the AND of its comparisons, at the step `i` of a CASE from `lo` to `stop`. -/
structure RunsAt (steps : List (ExprEvalStep G)) (c : Cell) (load : EvalOp G) (lo stop i : Nat) (w : RangeWhen G) : Prop where
  low : opAt steps i = some load
  high : opAt steps (i + 3) = some load
  compiled : CompiledWhen steps c i w
  and_ : ∃ anynull, opAt steps (i + 2) = some (.boolAndStep .first anynull (i + 6)) ∧
    opAt steps (i + 5) = some (.boolAndStep .last anynull (i + 6))
  ownLow : OwnArgs steps lo stop w.lowFcinfo i
  ownHigh : OwnArgs steps lo stop w.highFcinfo (i + 3)
  start : lo ≤ i
  inside : i + 7 ≤ stop

/-- The load and the call of a comparison. -/
theorem compare_run {lo pc fcinfo : Nat} {s₀ s : EvalState} {fn : G} {load : EvalOp G} {d : NullableDatum} (hs : Kept steps lo stop s₀ s)
    (hown : OwnArgs steps lo stop fcinfo pc) (hload : opAt steps pc = some load) (hloaded : load.loaded env s = some d)
    (hcall : opAt steps (pc + 1) = some (.funcExprStrict fn fcinfo 2)) (hres : resAt steps (pc + 1) = some c) :
    ∃ s', ReflTransGen (InterpStep env steps) (pc, s) (pc + 2, s') ∧
      givesTrue (s'.cells c) = callsTrue env fn (loadedArgs steps fcinfo pc s₀ d) ∧ s'.anynull = s.anynull := by
  obtain ⟨x, hx⟩ := exists_resAt hload
  obtain ⟨r, hexec, hr⟩ := execStep_call env fn fcinfo c (pc + 1) (s.store x d)
  refine ⟨_, .head (turn hload hx (execStep_load hloaded)) (.single (turn hcall hres hexec)), ?_, rfl⟩
  rw [EvalState.cells_store, Function.update_self, hr, args_of_own hown hs hx]

/-- One WHEN: the run comes to its THEN when both comparisons are true, and else to where the conditional jump goes. -/
theorem when_run (hforward : ForwardJumps steps) {load : EvalOp G} {lo i next : Nat} {w : RangeWhen G}
    (hw : RunsAt steps c load lo stop i w) (hjump : opAt steps (i + 6) = some (.jumpIfNotTrue next)) {d : NullableDatum}
    (hload : ∀ s, load.loaded env s = some d) {s₀ s : EvalState} (hs : Kept steps lo stop s₀ s) :
    ∃ s', ReflTransGen (InterpStep env steps) (i, s) (if w.ownHolds env steps s₀ d i then i + 7 else next, s') := by
  obtain ⟨n, hfirst, hlast⟩ := hw.and_
  have hstart := hw.start
  have hinside := hw.inside
  have htest := hw.compiled.tests
  -- from the conditional jump on, with what the AND has left
  have hend : ∀ s', ReflTransGen (InterpStep env steps) (i, s) (i + 6, s') → givesTrue (s'.cells c) = w.ownHolds env steps s₀ d i →
      ∃ s', ReflTransGen (InterpStep env steps) (i, s) (if w.ownHolds env steps s₀ d i then i + 7 else next, s') := by
    intro s' hrun htrue
    refine ⟨s', hrun.tail ?_⟩
    rw [← htrue]
    exact turn hjump (htest 6 (by simp)) (execStep_jumpIfNotTrue env next c (i + 6) s')
  obtain ⟨s1, hrun1, hlow, -⟩ := compare_run hs hw.ownLow hw.low (hload s) hw.compiled.low (htest 1 (by simp))
  obtain ⟨s2, hcells, ⟨hfalse, hturn⟩ | ⟨hturn, hflag⟩⟩ := turn_andFirst s1 hfirst (htest 2 (by simp))
  · -- the first comparison is false
    refine hend s2 (hrun1.tail hturn) ?_
    rw [hcells, hfalse, RangeWhen.ownHolds, ← hlow, hfalse, Bool.false_and]
  · have hrun2 := hrun1.tail hturn
    have hs2 := kept_run hforward hrun2 hs hstart (by omega)
    obtain ⟨s3, hrun3, hhigh, hkept⟩ := compare_run hs2 hw.ownHigh hw.high (hload s2) hw.compiled.high (htest 4 (by simp))
    obtain ⟨s4, hturn4, htrue⟩ := turn_andLast s3 hlast (htest 5 (by simp))
    refine hend s4 ((hrun2.trans hrun3).tail hturn4) ?_
    rw [htrue, hhigh, hkept, hflag, Bool.not_not, hlow, RangeWhen.ownHolds, Bool.and_comm]

end CaseWhenAux
end PgJitter
