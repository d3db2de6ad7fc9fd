import PgJitter.CaseDetect

/-!
# The emission over CASE patterns

What `sljit_compile_expr` (`src/pg_jitter_sljit.c`) does with the patterns that the detector reports: the cursor of its main loop, which
emits a pattern as one call of a helper and every other step by its opcode, and the exits of the function, with the step array as it
stands at each. The detector reports no pattern with `is_range`, so no step is marked in `skip_step`.
-/

namespace PgJitter

open LeftScan

variable {G : Type}

/-! ## The main loop -/

/-- The opcodes that are emitted in batches: `EEOP_*_VAR` and `EEOP_ASSIGN_*_VAR`, each of one slot. -/
def EvalOp.batchCode : EvalOp G → Option (Bool × VarSource)
  | var src _ => some (false, src)
  | assignVar src _ _ => some (true, src)
  | _ => none

/-- `is_jump_target`. -/
def isJumpTarget (steps : List (ExprEvalStep G)) (i : Nat) : Bool := steps.any fun step => step.op.targets.contains i

/-- `batch_end`, from the step `i` on. -/
def batchEnd (isTarget : Nat → Bool) (steps : List (ExprEvalStep G)) (code : Bool × VarSource) : Nat → Nat → Nat
  | 0, i => i
  | left + 1, i =>
    if i + 1 < steps.length ∧ isTarget (i + 1) = false ∧ (opAt steps (i + 1)).bind EvalOp.batchCode = some code then
      batchEnd isTarget steps code left (i + 1)
    else i

/-- The step after what is emitted at the step `i`. -/
def emitNext (isTarget : Nat → Bool) (steps : List (ExprEvalStep G)) (i : Nat) : Nat :=
  match (opAt steps i).bind EvalOp.batchCode with
  | some code => batchEnd isTarget steps code steps.length i + 1
  | none => i + 1

/-- The main loop: the pattern at the cursor is emitted at its second step, and the loop goes on at its end. -/
def emitSteps (isTarget : Nat → Bool) (steps : List (ExprEvalStep G)) (patterns : List CasePattern) : List (Event CasePattern) :=
  replay (fun p => p.startOpno + 1) CasePattern.elseEndOpno (emitNext isTarget steps) steps.length steps.length 0 patterns

/-! ## The exits -/

/-- What `sljit_compile_expr` asks of the expression and of its surroundings: the checks before the compilation, whether a worker finds
code of its leader that it can relocate, whether a compiler can be created, and whether code is generated from what was emitted. -/
structure CompileChecks (G : Type) where
  hasParent : Bool
  exprHasFastPath : List (ExprEvalStep G) → Bool
  shouldSkipTinyScanExpr : List (ExprEvalStep G) → Bool
  minExprSteps : Nat
  parallelOff : Bool
  isParallelWorker : Bool
  inlineable : EvalOp G → Bool
  reusesSharedCode : Bool
  createCompiler : Bool
  generateCode : List (Event CasePattern) → Bool

/-- The exits before the compilation, in the order of the code. -/
def CompileChecks.declines (c : CompileChecks G) (steps : List (ExprEvalStep G)) : Bool :=
  !c.hasParent || c.exprHasFastPath steps || c.shouldSkipTinyScanExpr steps ||
    (decide (0 < c.minExprSteps) && decide (steps.length < c.minExprSteps)) || (c.parallelOff && c.isParallelWorker) ||
    !steps.any fun step => c.inlineable step.op

section Compile

variable {α β : Type} [LinearOrder α] [LinearOrder β] (F : FloatFormats α β) (T : PgText) (fns : CaseFuncs G)

/-- The steps after the scan for patterns; the descriptors of the patterns are at `desc`. -/
def caseBsearchPreScan (desc : Nat → Datum) (steps : List (ExprEvalStep G)) (m : EvalState) : List (ExprEvalStep G) :=
  let patterns := detectCaseBsearch F T fns steps m
  if 0 < patterns.length then setupCaseBsearchArrays patterns desc steps else steps

/-- What the main loop emits: the jump targets are those of the array on entry. -/
def emitExpr (desc : Nat → Datum) (steps : List (ExprEvalStep G)) (m : EvalState) : List (Event CasePattern) :=
  emitSteps (isJumpTarget steps) (caseBsearchPreScan F T fns desc steps m) (detectCaseBsearch F T fns steps m)

/-- `sljit_compile_expr`: what it returns, and the step array that it leaves. -/
def sljitCompileExpr (c : CompileChecks G) (desc : Nat → Datum) (steps : List (ExprEvalStep G)) (m : EvalState) :
    Bool × List (ExprEvalStep G) :=
  if c.declines steps then (false, steps)
  else if c.reusesSharedCode then (true, setupCaseBsearchArrays (detectCaseBsearch F T fns steps m) desc steps)
  else if c.createCompiler = false then (false, steps)
  else
    let steps' := caseBsearchPreScan F T fns desc steps m
    (c.generateCode (emitExpr F T fns desc steps m), steps')

/-! ## What is asked of the patterns -/

/-- The patterns are used as they are meant: they are listed from left to right and are disjoint, the emission replaces every one of them,
and emits no step that the setup overwrites. With every pattern replaced, none of them is left to the interpreter; it comes to see what the
setup overwrites when the compilation fails, which is a matter of its own (`sljitCompileExpr`). -/
structure PatternsUsed (desc : Nat → Datum) (steps : List (ExprEvalStep G)) (m : EvalState) : Prop where
  increasing : (detectCaseBsearch F T fns steps m).Pairwise fun p q => p.startOpno < q.startOpno
  disjoint : (detectCaseBsearch F T fns steps m).Pairwise fun p q =>
    p.elseEndOpno ≤ q.startOpno ∨ q.elseEndOpno ≤ p.startOpno
  replaced : takenOf (emitExpr F T fns desc steps m) = detectCaseBsearch F T fns steps m
  dead : ∀ p ∈ detectCaseBsearch F T fns steps m, ¬ Plain (emitExpr F T fns desc steps m) (p.startOpno + 2)

/-- The store of a descriptor changes nothing: the field that it overwrites has these bits already. -/
def HoldsDesc (desc : Nat → Datum) (steps : List (ExprEvalStep G)) (patterns : List CasePattern) : Prop :=
  ∀ pk ∈ patterns.zipIdx, ∀ op, opAt steps (pk.1.startOpno + 2) = some op → op.setConstvalValue (desc pk.2) = op

end Compile

end PgJitter
