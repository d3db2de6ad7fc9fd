import Mathlib.Logic.Function.Basic

/-!
# Expression step arrays

The compiled expressions of PostgreSQL's executor, which the JIT reads: an array of steps, each with an opcode, the location its
result goes to, and its own data. `execStep` is what `ExecInterpExpr` does on one step. The source's functions take the array as
`state->steps`; a location is the pair of a `resvalue` and a `resnull` pointer, which the executor always sets together.
-/

namespace PgJitter

/-- A machine word holding a value, or a pointer to one. -/
abbrev Datum := BitVec 64

/-- A value and its null flag. -/
structure NullableDatum where
  value : Datum
  isnull : Bool
  deriving DecidableEq, Repr

/-- `BoolGetDatum`. -/
def boolGetDatum (b : Bool) : Datum := if b then 1 else 0

/-- `DatumGetBool`. -/
def datumGetBool (d : Datum) : Bool := d != 0

/-- `fetch_att` of a value of `w` bytes that is passed in a word: it is extended with its sign. A single byte is a `char`, and whether
that has a sign is up to the platform. -/
def fetchByval (charIsSigned : Bool) (w : Nat) (v : BitVec (8 * w)) : Datum :=
  if w = 1 ∧ charIsSigned = false then v.setWidth 64 else v.signExtend 64

/-- Where a step may put its result: the fields of the `ExprState`, an argument of a call, or another location that the executor
allocated (the test value of a CASE, the result of a WHEN). -/
inductive Cell where
  | state
  | arg (fcinfo argno : Nat)
  | other (n : Nat)
  deriving DecidableEq, Repr

/-- The tuple slot a column is read from. -/
inductive VarSource where
  | inner
  | outer
  | scan
  deriving DecidableEq, Repr

/-- The place of a step in a chain of AND or OR steps. -/
inductive BoolStepPos where
  | first
  | step
  | last
  deriving DecidableEq, Repr

/-- The opcodes, with the fields of the union `d` that the step reads. A function is an `F`; `anynull` is the location of a flag;
`other` is any other opcode: it computes a value from the locations, and may go to one of its targets. -/
inductive EvalOp (F : Type) where
  | done
  | const (c : NullableDatum)
  | var (src : VarSource) (attnum : Nat)
  | assignVar (src : VarSource) (attnum resultnum : Nat)
  | assignTmp (resultnum : Nat)
  | funcExpr (fn : F) (fcinfo nargs : Nat)
  | funcExprStrict (fn : F) (fcinfo nargs : Nat)
  | boolAndStep (pos : BoolStepPos) (anynull jumpdone : Nat)
  | boolOrStep (pos : BoolStepPos) (anynull jumpdone : Nat)
  | boolNotStep
  | qual (jumpdone : Nat)
  | jump (jumpdone : Nat)
  | jumpIfNull (jumpdone : Nat)
  | jumpIfNotNull (jumpdone : Nat)
  | jumpIfNotTrue (jumpdone : Nat)
  | nulltestIsNull
  | nulltestIsNotNull
  | caseTestval (value : Option Cell)
  | other (n : Nat) (targets : List Nat)
  deriving DecidableEq, Repr

/-- A step: its opcode and the location of its result. -/
structure ExprEvalStep (F : Type) where
  op : EvalOp F
  resvalue : Cell
  deriving DecidableEq, Repr

/-- What the steps write: the locations, the `anynull` flags, and the columns of the result slot. -/
structure EvalState where
  cells : Cell → NullableDatum
  anynull : Nat → Bool
  result : Nat → NullableDatum

/-- What the steps read and do not write: the columns of the input slots, the case value of the expression context, the functions
as what they return for their arguments, and the other opcodes as what they store and which way they go. -/
structure ExprEnv (F : Type) where
  slot : VarSource → Nat → NullableDatum
  caseValue : NullableDatum
  call : F → List NullableDatum → NullableDatum
  other : Nat → (Cell → NullableDatum) → NullableDatum × Nat

namespace EvalState

/-- Write a location. -/
def store (s : EvalState) (c : Cell) (d : NullableDatum) : EvalState := { s with cells := Function.update s.cells c d }

/-- Write an `anynull` flag. -/
def setAnynull (s : EvalState) (n : Nat) (b : Bool) : EvalState := { s with anynull := Function.update s.anynull n b }

/-- Write a column of the result slot. -/
def assign (s : EvalState) (n : Nat) (d : NullableDatum) : EvalState := { s with result := Function.update s.result n d }

/-- The arguments of a call. -/
def args (s : EvalState) (fcinfo nargs : Nat) : List NullableDatum := (List.range nargs).map fun k => s.cells (.arg fcinfo k)

@[simp] theorem cells_store (s : EvalState) (c : Cell) (d : NullableDatum) :
    (s.store c d).cells = Function.update s.cells c d := rfl

@[simp] theorem anynull_store (s : EvalState) (c : Cell) (d : NullableDatum) : (s.store c d).anynull = s.anynull := rfl

@[simp] theorem result_store (s : EvalState) (c : Cell) (d : NullableDatum) : (s.store c d).result = s.result := rfl

@[simp] theorem cells_setAnynull (s : EvalState) (n : Nat) (b : Bool) : (s.setAnynull n b).cells = s.cells := rfl

@[simp] theorem anynull_setAnynull (s : EvalState) (n : Nat) (b : Bool) :
    (s.setAnynull n b).anynull = Function.update s.anynull n b := rfl

@[simp] theorem result_setAnynull (s : EvalState) (n : Nat) (b : Bool) : (s.setAnynull n b).result = s.result := rfl

@[simp] theorem cells_assign (s : EvalState) (n : Nat) (d : NullableDatum) : (s.assign n d).cells = s.cells := rfl

@[simp] theorem anynull_assign (s : EvalState) (n : Nat) (d : NullableDatum) : (s.assign n d).anynull = s.anynull := rfl

@[simp] theorem result_assign (s : EvalState) (n : Nat) (d : NullableDatum) :
    (s.assign n d).result = Function.update s.result n d := rfl

end EvalState

variable {F : Type}

/-- A step of an AND (`stop = false`) or OR (`stop = true`) chain on its result location, as in the interpreter: the first step
clears the flag, a null sets it, and a value that decides the chain leaves it; the last step never jumps. -/
def execBoolStep (stop : Bool) (pos : BoolStepPos) (anynull jumpdone : Nat) (c : Cell) (pc : Nat) (s : EvalState) :
    Nat × EvalState :=
  let d := s.cells c
  match pos with
  | .last =>
    if d.isnull then (pc + 1, s)
    else if datumGetBool d.value = stop then (pc + 1, s)
    else if s.anynull anynull then (pc + 1, s.store c ⟨0, true⟩)
    else (pc + 1, s)
  | pos =>
    let s := if pos = .first then s.setAnynull anynull false else s
    if d.isnull then (pc + 1, s.setAnynull anynull true)
    else if datumGetBool d.value = stop then (jumpdone, s)
    else (pc + 1, s)

/-- A call: `FUNCEXPR` always makes it, `FUNCEXPR_STRICT` only when no argument is null, and else sets the null flag alone. -/
def execFunc (env : ExprEnv F) (strict : Bool) (fn : F) (fcinfo nargs : Nat) (c : Cell) (s : EvalState) : EvalState :=
  if strict && (s.args fcinfo nargs).any (·.isnull) then s.store c ⟨(s.cells c).value, true⟩
  else s.store c (env.call fn (s.args fcinfo nargs))

/-- What `ExecInterpExpr` does on the step at `pc`: where it goes and the state it leaves, or `none` for `DONE`, which ends the
loop. -/
def execStep (env : ExprEnv F) (step : ExprEvalStep F) (pc : Nat) (s : EvalState) : Option (Nat × EvalState) :=
  let c := step.resvalue
  let d := s.cells c
  match step.op with
  | .done => none
  | .const k => some (pc + 1, s.store c k)
  | .var src attnum => some (pc + 1, s.store c (env.slot src attnum))
  | .assignVar src attnum resultnum => some (pc + 1, s.assign resultnum (env.slot src attnum))
  | .assignTmp resultnum => some (pc + 1, s.assign resultnum (s.cells .state))
  | .funcExpr fn fcinfo nargs => some (pc + 1, execFunc env false fn fcinfo nargs c s)
  | .funcExprStrict fn fcinfo nargs => some (pc + 1, execFunc env true fn fcinfo nargs c s)
  | .boolAndStep pos anynull jumpdone => some (execBoolStep false pos anynull jumpdone c pc s)
  | .boolOrStep pos anynull jumpdone => some (execBoolStep true pos anynull jumpdone c pc s)
  | .boolNotStep => some (pc + 1, s.store c ⟨boolGetDatum (!datumGetBool d.value), d.isnull⟩)
  | .qual jumpdone =>
    if d.isnull || !datumGetBool d.value then some (jumpdone, s.store c ⟨boolGetDatum false, false⟩) else some (pc + 1, s)
  | .jump jumpdone => some (jumpdone, s)
  | .jumpIfNull jumpdone => some (if d.isnull then jumpdone else pc + 1, s)
  | .jumpIfNotNull jumpdone => some (if d.isnull then pc + 1 else jumpdone, s)
  | .jumpIfNotTrue jumpdone => some (if d.isnull || !datumGetBool d.value then jumpdone else pc + 1, s)
  | .nulltestIsNull => some (pc + 1, s.store c ⟨boolGetDatum d.isnull, false⟩)
  | .nulltestIsNotNull => some (pc + 1, s.store c ⟨boolGetDatum (!d.isnull), false⟩)
  | .caseTestval value => some (pc + 1, s.store c (match value with | some v => s.cells v | none => env.caseValue))
  | .other n targets =>
    let (r, way) := env.other n s.cells
    some (((pc + 1) :: targets).getD way (pc + 1), s.store c r)

/-- The interpreter's loop: the state at the `DONE` step, or `none` when `fuel` steps do not reach one. -/
def execInterpExpr (env : ExprEnv F) (steps : List (ExprEvalStep F)) : Nat → Nat → EvalState → Option EvalState
  | 0, _, _ => none
  | fuel + 1, pc, s =>
    match steps[pc]? with
    | none => none
    | some step =>
      match execStep env step pc s with
      | none => some s
      | some (pc', s') => execInterpExpr env steps fuel pc' s'

/-- One turn of the loop. -/
def InterpStep (env : ExprEnv F) (steps : List (ExprEvalStep F)) (a b : Nat × EvalState) : Prop :=
  ∃ step, steps[a.1]? = some step ∧ execStep env step a.1 a.2 = some b

/-- The targets of a step. -/
def EvalOp.targets : EvalOp F → List Nat
  | .boolAndStep _ _ jumpdone => [jumpdone]
  | .boolOrStep _ _ jumpdone => [jumpdone]
  | .qual jumpdone => [jumpdone]
  | .jump jumpdone => [jumpdone]
  | .jumpIfNull jumpdone => [jumpdone]
  | .jumpIfNotNull jumpdone => [jumpdone]
  | .jumpIfNotTrue jumpdone => [jumpdone]
  | .other _ targets => targets
  | _ => []

/-- Every jump is forward. -/
def ForwardJumps (steps : List (ExprEvalStep F)) : Prop :=
  ∀ (pc : Nat) (step : ExprEvalStep F), steps[pc]? = some step → ∀ t ∈ step.op.targets, pc < t

end PgJitter
