import PgJitter.Expr
import PgJitter.Lib.Reaching

/-!
# Constant arguments of a call

`pg_jitter_resolve_constant_func_arg` (`src/pg_jitter_common.c`), which decides whether an argument of a function step is known
when the expression is compiled, and the flow of control and contents through a step array that its answer has to hold for.
-/

namespace PgJitter

open Reaching

variable {F : Type}

/-- What the function reads of a call: which call it is, `nargs`, and the contents of `args` when the expression is compiled. -/
structure FunctionCallInfo where
  id : Nat
  nargs : Nat
  args : Nat → NullableDatum

/-- The backward scan of the steps before `opno` for one that writes the slot; `prefilled` is the answer when there is none. -/
def resolveScan (steps : List (ExprEvalStep F)) (slot : Cell) (prefilled : NullableDatum) : Nat → Option NullableDatum
  | 0 => some prefilled
  | j + 1 =>
    match steps[j]? with
    | none => resolveScan steps slot prefilled j
    | some step =>
      if step.resvalue = slot then
        match step.op with
        | .const c => some c
        | _ => none
      else resolveScan steps slot prefilled j

/-- `pg_jitter_resolve_constant_func_arg`: the value and null flag it reports, or `none` where it returns false. -/
def resolveConstantFuncArg (steps : List (ExprEvalStep F)) (opno : Nat) (fcinfo : FunctionCallInfo) (argno : Int) :
    Option NullableDatum :=
  if argno < 0 ∨ argno ≥ fcinfo.nargs then none
  else resolveScan steps (.arg fcinfo.id argno.toNat) (fcinfo.args argno.toNat) opno

/-! ## Control flow -/

/-- Where a step at `pc` may go, and what it may store in its location on the way (`none`: nothing), for any input row, any
functions and any branch taken. A computed value may be anything; a boolean test stores one of two. -/
def OpFlow (op : EvalOp F) (pc : Nat) (w : Option NullableDatum) (next : Nat) : Prop :=
  match op with
  | .done => False
  | .const c => w = some c ∧ next = pc + 1
  | .var .. | .funcExpr .. | .funcExprStrict .. | .caseTestval _ => w.isSome ∧ next = pc + 1
  | .assignVar .. | .assignTmp _ => w = none ∧ next = pc + 1
  | .boolAndStep .last .. | .boolOrStep .last .. => (w = none ∨ w = some ⟨0, true⟩) ∧ next = pc + 1
  | .boolAndStep _ _ jumpdone | .boolOrStep _ _ jumpdone => w = none ∧ (next = pc + 1 ∨ next = jumpdone)
  | .boolNotStep => (∃ b n, w = some ⟨boolGetDatum b, n⟩) ∧ next = pc + 1
  | .qual jumpdone => w = none ∧ next = pc + 1 ∨ w = some ⟨boolGetDatum false, false⟩ ∧ next = jumpdone
  | .jump jumpdone => w = none ∧ next = jumpdone
  | .jumpIfNull jumpdone | .jumpIfNotNull jumpdone | .jumpIfNotTrue jumpdone =>
    w = none ∧ (next = pc + 1 ∨ next = jumpdone)
  | .nulltestIsNull | .nulltestIsNotNull => (∃ b, w = some ⟨boolGetDatum b, false⟩) ∧ next = pc + 1
  | .other _ targets => next = pc + 1 ∨ next ∈ targets

/-- A memory after a step that may have stored in a location. -/
def applyStore (m : Cell → NullableDatum) (c : Cell) : Option NullableDatum → Cell → NullableDatum
  | none => m
  | some d => Function.update m c d

/-- A store into a location is read back. -/
theorem applyStore_self (m : Cell → NullableDatum) (c : Cell) (d : NullableDatum) : applyStore m c (some d) c = d := by
  simp only [applyStore, Function.update_self]

/-- The other locations keep their content. -/
theorem applyStore_of_ne (m : Cell → NullableDatum) {c slot : Cell} (h : c ≠ slot) (w : Option NullableDatum) :
    applyStore m c w slot = m slot := by
  cases w with
  | none => rfl
  | some d => exact Function.update_of_ne h.symm d m

/-- One step of a run: the next step and the locations, any branch taken. -/
def FlowStep (steps : List (ExprEvalStep F)) (a b : Nat × (Cell → NullableDatum)) : Prop :=
  ∃ step w, steps[a.1]? = some step ∧ OpFlow step.op a.1 w b.1 ∧ b.2 = applyStore a.2 step.resvalue w

/-- A run of the steps. -/
abbrev FlowRun (steps : List (ExprEvalStep F)) : Nat × (Cell → NullableDatum) → Nat × (Cell → NullableDatum) → Prop :=
  Relation.ReflTransGen (FlowStep steps)

/-- The flow of the steps as far as one location sees it. -/
def slotFlow (steps : List (ExprEvalStep F)) (slot : Cell) : FlowGraph Nat NullableDatum where
  edge pc w next := ∃ step w', steps[pc]? = some step ∧ OpFlow step.op pc w' next ∧
    w = if step.resvalue = slot then w' else none

/-- Whenever the argument is reported constant, the slot holds the reported value and null flag in every run that starts with
the contents of compile time and reaches `opno`. -/
def ReportedConstantHolds (steps : List (ExprEvalStep F)) (opno : Nat) (fcinfo : FunctionCallInfo) (argno : Int) : Prop :=
  ∀ d, resolveConstantFuncArg steps opno fcinfo argno = some d →
    ∀ m m', (∀ k, m (.arg fcinfo.id k) = fcinfo.args k) → FlowRun steps (0, m) (opno, m') →
      m' (.arg fcinfo.id argno.toNat) = d

end PgJitter
