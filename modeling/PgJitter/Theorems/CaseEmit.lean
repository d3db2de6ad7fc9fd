import PgJitter.Lemmas.CaseEmit
import PgJitter.Theorems.CaseBsearch

/-!
# CASE patterns in the emission

When the patterns of both passes are used as they are meant, and when a compilation that fails leaves the step array as it was.
-/

namespace PgJitter

open LeftScan CaseDetectAux CaseEmitAux

variable {G : Type} {α β : Type} [LinearOrder α] [LinearOrder β] (F : FloatFormats α β) (T : PgText) (fns : CaseFuncs G)
  (desc : Nat → Datum) (steps : List (ExprEvalStep G)) (m : EvalState)

namespace CaseEmitAux

variable {F T fns desc steps m}

/-- The scan for patterns leaves the stores of its patterns. -/
theorem preScan_eq : caseBsearchPreScan F T fns desc steps m = setupCaseBsearchArrays (detectCaseBsearch F T fns steps m) desc steps := by
  unfold caseBsearchPreScan
  dsimp only
  split
  · rfl
  · rename_i hnone
    rw [List.length_eq_zero_iff.1 (Nat.eq_zero_of_not_pos hnone)]
    rfl

/-- Where every simple pattern ends before every range pattern begins, the patterns follow one another. -/
theorem detect_chained (hforward : ForwardJumps steps)
    (h : ∀ p ∈ simplePatterns F T fns steps m, ∀ q ∈ rangePatterns F T fns steps m, p.elseEndOpno ≤ q.startOpno) :
    Chained CasePattern.startOpno CasePattern.elseEndOpno (detectCaseBsearch F T fns steps m) :=
  List.pairwise_append.2 ⟨simple_chained hforward, range_chained hforward, h⟩

/-- The main loop replaces patterns that follow one another, and emits nothing inside them. -/
theorem emitExpr_replays (hforward : ForwardJumps steps)
    (hchained : Chained CasePattern.startOpno CasePattern.elseEndOpno (detectCaseBsearch F T fns steps m)) :
    Replays (fun p : CasePattern => p.startOpno + 1) CasePattern.elseEndOpno 0 (detectCaseBsearch F T fns steps m)
      (emitExpr F T fns desc steps m) := by
  unfold emitExpr
  rw [preScan_eq, setup_eq_stores]
  exact emitSteps_replays _ (length_stores desc _) (batchCode_stores desc _) (fun p hp => pattern_site hforward hp) hchained

end CaseEmitAux

/-- In a step array whose jumps go forward, the patterns that the detector reports are used as they are meant exactly when every one of
the first pass ends before every one of the second pass begins: the list has those of the first pass first, and the cursor of the main
loop only goes on. -/
theorem case_patterns_used_iff (hforward : ForwardJumps steps) :
    PatternsUsed F T fns desc steps m ↔
      ∀ p ∈ simplePatterns F T fns steps m, ∀ q ∈ rangePatterns F T fns steps m, p.elseEndOpno ≤ q.startOpno := by
  constructor
  · intro h p hp q hq
    have hlt := (List.pairwise_append.1 h.increasing).2.2 p hp q hq
    have hlong := (range_site hforward hq).1.long
    rcases (List.pairwise_append.1 h.disjoint).2.2 p hp q hq with hle | hle
    · exact hle
    · omega
  · intro h
    have hchained := detect_chained hforward h
    have hreplays : Replays (fun p : CasePattern => p.startOpno + 1) CasePattern.elseEndOpno 0
        (detectCaseBsearch F T fns steps m) (emitExpr F T fns desc steps m) := emitExpr_replays hforward hchained
    refine ⟨hchained.imp_of_mem fun hp _ hle => ?_, hchained.imp Or.inl, hreplays.taken, fun p hp hplain => ?_⟩
    · have hlong := (pattern_site hforward hp).long
      omega
    · have hlong := (pattern_site hforward hp).long
      exact hreplays.outside _ hplain p hp ⟨Nat.le_succ _, hlong⟩

/-- A compilation of a step array whose jumps go forward leaves it as it was whenever it returns false, exactly when it ends before the
scan for patterns, or code is generated, or the fields that the setup overwrites had the bits of the descriptors already (as when no
pattern is found): nothing that the setup stores is taken back. -/
theorem failed_compile_keeps_steps_iff (c : CompileChecks G) (hforward : ForwardJumps steps) :
    ((sljitCompileExpr F T fns c desc steps m).1 = false → (sljitCompileExpr F T fns c desc steps m).2 = steps) ↔
      c.declines steps = true ∨ c.reusesSharedCode = true ∨ c.createCompiler = false ∨
        c.generateCode (emitExpr F T fns desc steps m) = true ∨ HoldsDesc desc steps (detectCaseBsearch F T fns steps m) := by
  have hsetup : setupCaseBsearchArrays (detectCaseBsearch F T fns steps m) desc steps = steps ↔
      HoldsDesc desc steps (detectCaseBsearch F T fns steps m) := setup_eq_iff (starts_ne hforward) desc
  unfold sljitCompileExpr
  by_cases hdeclines : c.declines steps = true
  · rw [if_pos hdeclines]
    exact iff_of_true (fun _ => rfl) (.inl hdeclines)
  by_cases hshared : c.reusesSharedCode = true
  · rw [if_neg hdeclines, if_pos hshared]
    exact iff_of_true (fun h => nomatch h) (.inr (.inl hshared))
  by_cases hcreate : c.createCompiler = false
  · rw [if_neg hdeclines, if_neg hshared, if_pos hcreate]
    exact iff_of_true (fun _ => rfl) (.inr (.inr (.inl hcreate)))
  rw [if_neg hdeclines, if_neg hshared, if_neg hcreate, preScan_eq]
  dsimp only
  rw [hsetup]
  cases hgenerate : c.generateCode (emitExpr F T fns desc steps m) with
  | true => exact iff_of_true (fun h => nomatch h) (.inr (.inr (.inr (.inl rfl))))
  | false =>
    refine ⟨fun h => .inr (.inr (.inr (.inr (h rfl)))), fun h _ => ?_⟩
    rcases h with h | h | h | h | h
    · exact absurd h hdeclines
    · exact absurd h hshared
    · exact absurd h hcreate
    · exact nomatch h
    · exact h

/-! ## Witnesses -/

namespace CaseEmitWitness

open CaseBsearchWitness

/-- `int4lt` and `int4ge`. -/
inductive Fn where
  | lt
  | ge
  deriving DecidableEq

/-- Their addresses, and what is known of these. -/
def int4Funcs : CaseFuncs Fn where
  addr
    | .lt => 1
    | .ge => 2
  collation _ := 0
  directNargs _ := some 2
  classify a := if a = 1 then some (.i32, .lt) else if a = 2 then some (.i32, .ge) else none
  genericLt _ := none
  fn _ := .other fun _ _ _ => 0

/-- The argument arrays: the second argument of the call `1000 * n + k` is the constant `k`. -/
def constArgs : EvalState := ⟨fun
  | .arg fcinfo 1 => ⟨BitVec.ofNat 64 (fcinfo % 1000), false⟩
  | _ => ⟨0, true⟩, fun _ => false, fun _ => ⟨0, true⟩⟩

/-- `WHEN x < k THEN r` at the step `s`. -/
def whenLt (done s k r : Nat) : List (ExprEvalStep Fn) :=
  [⟨.var .scan 0, .arg k 0⟩, ⟨.funcExprStrict .lt k 2, .other 0⟩, ⟨.jumpIfNotTrue (s + 5), .other 0⟩,
    ⟨.const ⟨BitVec.ofNat 64 r, false⟩, .state⟩, ⟨.jump done, .state⟩]

/-- `CASE WHEN x < 10 THEN 1 WHEN x < 20 THEN 2 WHEN x < 30 THEN 3 WHEN x < 40 THEN 4 ELSE 5 END` at the step `s`. -/
def caseLt (s : Nat) : List (ExprEvalStep Fn) :=
  whenLt (s + 21) s 10 1 ++ whenLt (s + 21) (s + 5) 20 2 ++ whenLt (s + 21) (s + 10) 30 3 ++ whenLt (s + 21) (s + 15) 40 4 ++
    [⟨.const ⟨5, false⟩, .state⟩]

/-- `WHEN x >= lo AND x < hi THEN r` at the step `s`. -/
def whenIn (done s lo hi r : Nat) : List (ExprEvalStep Fn) :=
  [⟨.var .scan 0, .arg (1000 + lo) 0⟩, ⟨.funcExprStrict .ge (1000 + lo) 2, .other 0⟩, ⟨.boolAndStep .first 0 (s + 6), .other 0⟩,
    ⟨.var .scan 0, .arg (2000 + hi) 0⟩, ⟨.funcExprStrict .lt (2000 + hi) 2, .other 0⟩, ⟨.boolAndStep .last 0 (s + 6), .other 0⟩,
    ⟨.jumpIfNotTrue (s + 9), .other 0⟩, ⟨.const ⟨BitVec.ofNat 64 r, false⟩, .state⟩, ⟨.jump done, .state⟩]

/-- The CASE of the ranges from 0 to 10, 20, 30 and 40, at the step 0. -/
def caseIn : List (ExprEvalStep Fn) :=
  whenIn 37 0 0 10 1 ++ whenIn 37 9 10 20 2 ++ whenIn 37 18 20 30 3 ++ whenIn 37 27 30 40 4 ++ [⟨.const ⟨5, false⟩, .state⟩]

/-- Two columns, the range CASE first. -/
def rangeThenSimple : List (ExprEvalStep Fn) :=
  caseIn ++ [⟨.assignTmp 0, .state⟩] ++ caseLt 38 ++ [⟨.assignTmp 1, .state⟩, ⟨.done, .state⟩]

/-- One column. -/
def simpleOnly : List (ExprEvalStep Fn) := caseLt 0 ++ [⟨.assignTmp 0, .state⟩, ⟨.done, .state⟩]

/-- Descriptors at large addresses. -/
def descAt (k : Nat) : Datum := BitVec.ofNat 64 (0x7f00beef0000 + 0x100 * k)

/-- Jumps go forward when those of every step of the array do. -/
theorem forward_of_all {l : List (ExprEvalStep Fn)}
    (h : (l.zipIdx.all fun (step, pc) => step.op.targets.all fun t => decide (pc < t)) = true) : ForwardJumps l := by
  intro pc step hstep t ht
  have hpc := List.all_eq_true.1 h (step, pc) (List.mk_mem_zipIdx_iff_getElem?.2 hstep)
  exact of_decide_eq_true (List.all_eq_true.1 hpc t ht)

/-- The array of one column is found to hold one pattern, and its jumps go forward. -/
theorem one_column : ForwardJumps simpleOnly ∧
    (detectCaseBsearch signedFloats wordTexts int4Funcs simpleOnly constArgs).map CasePattern.startOpno = [0] :=
  ⟨forward_of_all rfl, rfl⟩

/-- The two columns are found in the wrong order. -/
theorem two_columns : ForwardJumps rangeThenSimple ∧
    (detectCaseBsearch signedFloats wordTexts int4Funcs rangeThenSimple constArgs).map CasePattern.startOpno = [38, 0] :=
  ⟨forward_of_all rfl, rfl⟩

/-- The one pattern is used as it is meant. -/
theorem one_column_used : PatternsUsed signedFloats wordTexts int4Funcs descAt simpleOnly constArgs := by
  refine (case_patterns_used_iff signedFloats wordTexts int4Funcs descAt simpleOnly constArgs one_column.1).2 fun p _ q hq => ?_
  have hnone : (rangePatterns signedFloats wordTexts int4Funcs simpleOnly constArgs).length = 0 := rfl
  rw [List.length_eq_zero_iff.1 hnone] at hq
  exact absurd hq List.not_mem_nil

/-- The range CASE is listed after the simple CASE that follows it, and the cursor never comes back to it. -/
theorem range_case_first : ForwardJumps rangeThenSimple ∧
    ¬ PatternsUsed signedFloats wordTexts int4Funcs descAt rangeThenSimple constArgs ∧
    (takenOf (emitExpr signedFloats wordTexts int4Funcs descAt rangeThenSimple constArgs)).map CasePattern.startOpno = [38] := by
  refine ⟨two_columns.1, fun h => ?_, rfl⟩
  have hmap : ((detectCaseBsearch signedFloats wordTexts int4Funcs rangeThenSimple constArgs).map CasePattern.startOpno).Pairwise (· < ·) :=
    List.pairwise_map.2 h.increasing
  rw [two_columns.2] at hmap
  exact absurd hmap (by decide)

/-- A compilation of an expression of a plan, with or without code at the end. -/
def compiles (code : Bool) : CompileChecks Fn where
  hasParent := true
  exprHasFastPath _ := false
  shouldSkipTinyScanExpr _ := false
  minExprSteps := 4
  parallelOff := false
  isParallelWorker := false
  inlineable op := op.strictCall.isSome
  reusesSharedCode := false
  createCompiler := true
  generateCode _ := code

/-- `CASE WHEN x < 10 THEN 1 WHEN x < 20 THEN 2 WHEN x < 30 THEN 3 ELSE 5 END`: a branch short of a pattern. -/
def shortCase : List (ExprEvalStep Fn) :=
  whenLt 16 0 10 1 ++ whenLt 16 5 20 2 ++ whenLt 16 10 30 3 ++ [⟨.const ⟨5, false⟩, .state⟩, ⟨.assignTmp 0, .state⟩, ⟨.done, .state⟩]

/-- The array is read to its end, and no code is generated: without a pattern, it stays as it was. -/
theorem without_pattern_keeps :
    (compiles false).declines shortCase = false ∧
    (sljitCompileExpr signedFloats wordTexts int4Funcs (compiles false) descAt shortCase constArgs).2 = shortCase := by
  have hnone : detectCaseBsearch signedFloats wordTexts int4Funcs shortCase constArgs = [] := rfl
  have hholds : HoldsDesc descAt shortCase (detectCaseBsearch signedFloats wordTexts int4Funcs shortCase constArgs) := by
    rw [hnone]
    exact fun pk hpk => absurd hpk List.not_mem_nil
  exact ⟨rfl, (failed_compile_keeps_steps_iff signedFloats wordTexts int4Funcs descAt shortCase constArgs (compiles false)
    (forward_of_all rfl)).2 (.inr (.inr (.inr (.inr hholds)))) rfl⟩

/-- Without code, the conditional jump of the first branch is left with half of the descriptor's address as its target. -/
theorem without_code_changes :
    ForwardJumps simpleOnly ∧
    (sljitCompileExpr signedFloats wordTexts int4Funcs (compiles false) descAt simpleOnly constArgs).1 = false ∧
    (sljitCompileExpr signedFloats wordTexts int4Funcs (compiles false) descAt simpleOnly constArgs).2 ≠ simpleOnly ∧
    opAt (sljitCompileExpr signedFloats wordTexts int4Funcs (compiles false) descAt simpleOnly constArgs).2 2 =
      some (.jumpIfNotTrue 0xbeef0000) :=
  ⟨one_column.1, rfl, by decide, rfl⟩

end CaseEmitWitness

end PgJitter
