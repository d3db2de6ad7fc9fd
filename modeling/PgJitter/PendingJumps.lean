import PgJitter.CaseEmit

/-!
# The recorded jumps of an expression

`pending_jumps` in `sljit_compile_expr` (`src/pg_jitter_sljit.c`): the main loop emits jumps to steps that have no label yet and
records them with their targets, and a last loop binds them. The array is allocated for four entries a step. The cursor of the main
loop is `emitExpr`; what is modelled here is what each turn does to the array, to the labels of the steps, and to the bindings of
the recorded jumps. The jumps and labels that stay inside the code of one step are left out.
-/

namespace PgJitter

open LeftScan

variable {G : Type}

/-! ## Steps -/

/-- What the opcodes behind `EvalOp.other` are to the recorded jumps: the fields that the emission reads. -/
inductive OtherOp where
  /-- `EEOP_AGG_STRICT_INPUT_CHECK_ARGS`, `EEOP_AGG_STRICT_INPUT_CHECK_ARGS_1` and `EEOP_AGG_STRICT_INPUT_CHECK_NULLS` -/
  | aggStrictInputCheck (nargs : Nat) (jumpnull : ℤ)
  | aggPlainPergroupNullcheck (jumpnull : ℤ)
  /-- `EEOP_AGG_PRESORTED_DISTINCT_SINGLE` and `EEOP_AGG_PRESORTED_DISTINCT_MULTI` -/
  | aggPresortedDistinct (jumpdistinct : ℤ)
  /-- `EEOP_HASHDATUM_FIRST_STRICT` and `EEOP_HASHDATUM_NEXT32_STRICT` -/
  | hashdatumStrict (jumpdone : ℤ)
  | returningexpr (jumpdone : ℤ)
  | aggStrictDeserialize (jumpnull : ℤ)
  | rowcompareStep (fnStrict : Bool) (jumpnull jumpdone : ℤ)
  | sbsrefSubscripts (jumpdone : ℤ)
  | jsonexprPath (jumpEnd jumpEmpty jumpError jumpEvalCoercion : ℤ)
  /-- An opcode that records no jump. -/
  | rest
  deriving DecidableEq, Repr

/-- An entry of `pending_jumps`: the jump and the step it goes to, or `-1` for a null path, or `-2` when it is bound. -/
structure PendingJump where
  jump : Nat
  target : ℤ
  deriving DecidableEq, Repr

/-- What the compiler has emitted: so many recorded jumps and labels, `step_labels`, `pending_jumps`, and the calls of
`sljit_set_label` on recorded jumps. -/
structure JumpEmit where
  njumps : Nat
  nlabels : Nat
  stepLabels : Nat → Option Nat
  pending : List PendingJump
  bound : List (Nat × Nat)

namespace JumpEmit

/-- Before the main loop. -/
def init : JumpEmit := ⟨0, 0, fun _ => none, [], []⟩

/-- A jump is emitted and recorded. -/
def record (target : ℤ) (e : JumpEmit) : JumpEmit :=
  { e with njumps := e.njumps + 1, pending := e.pending ++ [⟨e.njumps, target⟩] }

/-- `sljit_set_label` on a recorded jump; there may be no label. -/
def setLabel (jump : Nat) (label : Option Nat) (e : JumpEmit) : JumpEmit :=
  match label with
  | none => e
  | some l => { e with bound := e.bound ++ [(jump, l)] }

/-- `step_labels[i] = sljit_emit_label(C)`. -/
def labelStep (i : Nat) (e : JumpEmit) : JumpEmit :=
  { e with nlabels := e.nlabels + 1, stepLabels := Function.update e.stepLabels i (some e.nlabels) }

/-- The labels of the steps from one up to another. -/
def labelSteps (i next : Nat) (e : JumpEmit) : JumpEmit := (List.range' i (next - i)).foldl (fun e k => e.labelStep k) e

/-- The null checks of some arguments: two to four in one branch, any other number in a branch each. -/
def recordNullChecks (nargs : Nat) (target : ℤ) (e : JumpEmit) : JumpEmit :=
  if nargs ≤ 4 ∧ 1 < nargs then e.record target else (List.range nargs).foldl (fun e _ => e.record target) e

/-- `pending_jumps[j].target = -2`. -/
def mark (j : Nat) (e : JumpEmit) : JumpEmit := { e with pending := e.pending.modify j fun p => { p with target := -2 } }

/-- The loop that binds the null checks of a function: the entries from `null_check_start` on with the target `-1`. -/
def resolveNullChecks (start label : Nat) (e : JumpEmit) : JumpEmit :=
  (List.range' start (e.pending.length - start)).foldl (fun e j =>
    match e.pending[j]? with
    | some p => if p.target = -1 then (e.setLabel p.jump (some label)).mark j else e
    | none => e) e

/-- A label that is not that of a step. -/
def emitLabel (e : JumpEmit) : Nat × JumpEmit := (e.nlabels, { e with nlabels := e.nlabels + 1 })

/-- `EEOP_FUNCEXPR_STRICT` and its forms for one and two arguments. -/
def strictCall (nargs : Nat) (e : JumpEmit) : JumpEmit :=
  let nullCheckStart := e.pending.length
  let (nullPath, e) := (e.recordNullChecks nargs (-1)).emitLabel
  e.resolveNullChecks nullCheckStart nullPath

/-- A strict hash step: the jump past its null path is recorded, bound here, and marked. -/
def strictHash (jumpdone : ℤ) (e : JumpEmit) : JumpEmit :=
  let skipNull := e.njumps
  let (after, e) := ((e.record (-1)).record jumpdone).emitLabel
  (e.setLabel skipNull (some after)).mark (e.pending.length - 2)

end JumpEmit

/-- `targets` of `EEOP_JSONEXPR_PATH`. -/
def jsonTargets (jumpEnd jumpEmpty jumpError jumpEvalCoercion : ℤ) : List ℤ :=
  jumpEnd :: [jumpEmpty, jumpError, jumpEvalCoercion].filter fun t => decide (0 ≤ t) && t != jumpEnd

/-- A target is a step of the array. -/
def isStep (stepsLen : Nat) (t : ℤ) : Bool := decide (0 ≤ t) && decide (t < stepsLen)

/-- What the opcodes behind `EvalOp.other` record. -/
def emitOther (stepsLen : Nat) (op : OtherOp) (e : JumpEmit) : JumpEmit :=
  match op with
  | .aggStrictInputCheck nargs jumpnull => e.recordNullChecks nargs jumpnull
  | .aggPlainPergroupNullcheck jumpnull => e.record jumpnull
  | .aggPresortedDistinct jumpdistinct => e.record jumpdistinct
  | .hashdatumStrict jumpdone => e.strictHash jumpdone
  | .returningexpr jumpdone => e.record jumpdone
  | .aggStrictDeserialize jumpnull => e.record jumpnull
  | .rowcompareStep fnStrict jumpnull jumpdone =>
    let e := if fnStrict then e.record jumpnull else e
    (e.record jumpnull).record jumpdone
  | .sbsrefSubscripts jumpdone => e.record jumpdone
  | .jsonexprPath jumpEnd jumpEmpty jumpError jumpEvalCoercion =>
    (jsonTargets jumpEnd jumpEmpty jumpError jumpEvalCoercion).foldl (fun e t => if isStep stepsLen t then e.record t else e) e
  | .rest => e

/-- What the `switch` of the main loop records for one opcode. -/
def emitOp (others : Nat → OtherOp) (stepsLen : Nat) (op : EvalOp G) (e : JumpEmit) : JumpEmit :=
  match op with
  | .funcExprStrict _ _ nargs => e.strictCall nargs
  | .boolAndStep _ _ jumpdone => e.record jumpdone
  | .boolOrStep _ _ jumpdone => e.record jumpdone
  | .qual jumpdone => e.record jumpdone
  | .jump jumpdone => e.record jumpdone
  | .jumpIfNull jumpdone => e.record jumpdone
  | .jumpIfNotNull jumpdone => e.record jumpdone
  | .jumpIfNotTrue jumpdone => (e.record jumpdone).record jumpdone
  | .other n _ => emitOther stepsLen (others n) e
  | _ => e

/-- One turn of the main loop: a pattern is one call with a jump to its end from either path, anything else goes by its opcode; the
steps that a pattern or a batch passes over get labels too. -/
def emitEvent (others : Nat → OtherOp) (steps : List (ExprEvalStep G)) (e : JumpEmit) : Event CasePattern → JumpEmit
  | .plain i next =>
    let e := e.labelStep i
    let e := match opAt steps i with
      | some op => emitOp others steps.length op e
      | none => e
    e.labelSteps (i + 1) next
  | .taken p =>
    let e := e.labelStep (p.startOpno + 1)
    let e := (e.record p.elseEndOpno).record p.elseEndOpno
    e.labelSteps (p.startOpno + 2) (min p.elseEndOpno steps.length)

/-- The loop that binds the recorded jumps. -/
def fixUp (stepsLen : Nat) (e : JumpEmit) : JumpEmit :=
  e.pending.foldl (fun e p => if isStep stepsLen p.target then e.setLabel p.jump (e.stepLabels p.target.toNat) else e) e

/-- What is recorded, from the allocation of the array to the end of the function. -/
def recordedJumps {α β : Type} [LinearOrder α] [LinearOrder β] (F : FloatFormats α β) (T : PgText) (fns : CaseFuncs G)
    (others : Nat → OtherOp) (desc : Nat → Datum) (steps : List (ExprEvalStep G)) (m : EvalState) : JumpEmit :=
  let steps' := caseBsearchPreScan F T fns desc steps m
  fixUp steps'.length ((emitExpr F T fns desc steps m).foldl (emitEvent others steps') .init)

/-- What is recorded, over the whole function; `none` where it returns before the array is allocated. -/
def pendingJumps {α β : Type} [LinearOrder α] [LinearOrder β] (F : FloatFormats α β) (T : PgText) (fns : CaseFuncs G)
    (others : Nat → OtherOp) (c : CompileChecks G) (desc : Nat → Datum) (steps : List (ExprEvalStep G)) (m : EvalState) :
    Option JumpEmit :=
  if c.declines steps then none
  else if c.reusesSharedCode then none
  else if c.createCompiler = false then none
  else some (recordedJumps F T fns others desc steps m)

/-! ## What is asked of the recorded jumps -/

/-- The entries fit in the array, and each recorded jump is bound to exactly one label. -/
structure JumpsRight (stepsLen : Nat) (e : JumpEmit) : Prop where
  room : e.pending.length ≤ stepsLen * 4
  bound : ∀ p ∈ e.pending, ∃ label, e.bound.filter (fun b => b.1 == p.jump) = [(p.jump, label)]

/-- The array is allocated: nothing declines the expression, no code of a leader is used, and there is a compiler. -/
def CompileChecks.allocates (c : CompileChecks G) (steps : List (ExprEvalStep G)) : Bool :=
  !c.declines steps && !c.reusesSharedCode && c.createCompiler

/-! ## What the steps record -/

/-- How many entries the null checks of some arguments take. -/
def nullCheckEntries (nargs : Nat) : Nat := if nargs ≤ 4 ∧ 1 < nargs then 1 else nargs

/-- How many entries an opcode behind `EvalOp.other` takes. -/
def OtherOp.entries (stepsLen : Nat) : OtherOp → Nat
  | aggStrictInputCheck nargs _ => nullCheckEntries nargs
  | hashdatumStrict _ => 2
  | rowcompareStep fnStrict _ _ => if fnStrict then 3 else 2
  | jsonexprPath jumpEnd jumpEmpty jumpError jumpEvalCoercion =>
    ((jsonTargets jumpEnd jumpEmpty jumpError jumpEvalCoercion).filter (isStep stepsLen)).length
  | rest => 0
  | _ => 1

/-- How many entries an opcode takes. -/
def EvalOp.entries (others : Nat → OtherOp) (stepsLen : Nat) : EvalOp G → Nat
  | funcExprStrict _ _ nargs => nullCheckEntries nargs
  | boolAndStep _ _ _ => 1
  | boolOrStep _ _ _ => 1
  | qual _ => 1
  | jump _ => 1
  | jumpIfNull _ => 1
  | jumpIfNotNull _ => 1
  | jumpIfNotTrue _ => 2
  | other n _ => (others n).entries stepsLen
  | _ => 0

/-- How many entries the opcode of a step takes. -/
def stepEntries (others : Nat → OtherOp) (steps : List (ExprEvalStep G)) (k : Nat) : Nat :=
  ((opAt steps k).map (EvalOp.entries others steps.length)).getD 0

/-- The patterns that the main loop replaces: those of the detector's list up to the first that begins before the end of the one
before it. -/
def replacedPatterns (patterns : List CasePattern) : List CasePattern :=
  reachable (fun p : CasePattern => p.startOpno + 1) CasePattern.elseEndOpno 0 patterns

/-- A step lies in one of some patterns, after its first step. -/
def inPattern (patterns : List CasePattern) (k : Nat) : Bool :=
  inside (fun p : CasePattern => p.startOpno + 1) CasePattern.elseEndOpno patterns k

/-- How many entries the steps take, with two for each pattern that is replaced in place of its steps. -/
def entriesAsked (others : Nat → OtherOp) (steps : List (ExprEvalStep G)) (patterns : List CasePattern) : Nat :=
  (∑ k ∈ Finset.range steps.length, if inPattern (replacedPatterns patterns) k then 0 else stepEntries others steps k) +
    2 * (replacedPatterns patterns).length

/-- Where the descriptor of a pattern overwrites the target of a QUAL or of a JUMP_IF_NOT_TRUE outside the patterns that are
replaced, the low half of its address is a step of the array. -/
def OverwrittenToStep (desc : Nat → Datum) (steps : List (ExprEvalStep G)) (patterns : List CasePattern) : Prop :=
  ∀ pk ∈ patterns.zipIdx, inPattern (replacedPatterns patterns) (pk.1.startOpno + 2) = false → ∀ t,
    opAt steps (pk.1.startOpno + 2) = some (.qual t) ∨ opAt steps (pk.1.startOpno + 2) = some (.jumpIfNotTrue t) →
      (low32 (desc pk.2)).toNat < steps.length

/-- The targets that an opcode behind `EvalOp.other` records without a check. -/
def OtherOp.targets : OtherOp → List ℤ
  | aggStrictInputCheck _ jumpnull => [jumpnull]
  | aggPlainPergroupNullcheck jumpnull => [jumpnull]
  | aggPresortedDistinct jumpdistinct => [jumpdistinct]
  | hashdatumStrict jumpdone => [jumpdone]
  | returningexpr jumpdone => [jumpdone]
  | aggStrictDeserialize jumpnull => [jumpnull]
  | rowcompareStep _ jumpnull jumpdone => [jumpnull, jumpdone]
  | sbsrefSubscripts jumpdone => [jumpdone]
  | jsonexprPath _ _ _ _ => []
  | rest => []

/-- The step arrays of the executor: every jump goes forward, to a step. -/
structure PlanJumps (others : Nat → OtherOp) (steps : List (ExprEvalStep G)) : Prop where
  forward : ForwardJumps steps
  toStep : ∀ i op, opAt steps i = some op → ∀ t ∈ op.targets, t < steps.length
  others : ∀ i n targets, opAt steps i = some (.other n targets) → ∀ t ∈ (others n).targets, isStep steps.length t = true

end PgJitter
