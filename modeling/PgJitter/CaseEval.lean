import PgJitter.CaseDetect

/-!
# What a CASE pattern stands for

A pattern of `pg_jitter_detect_case_bsearch` (`src/pg_jitter_common.c`) replaces the steps that it covers by one call of a helper. Here
are the table of comparison functions behind `classify_cmp_fn` and `find_generic_lt_fn`, the run of the steps that are replaced, and what
the two passes take for granted of these steps and do not look at.
-/

namespace PgJitter

variable {G : Type}

/-! ## Comparison functions -/

/-- The types whose comparison functions are known. -/
inductive CmpType where
  | int4
  | int8
  | int2
  | date
  | oid
  | timestamp
  | float4
  | float8
  | bool
  | text
  | numeric
  | uuid
  | interval
  | bpchar
  | bytea
  | jsonb
  | network
  | array
  deriving DecidableEq, Repr

/-- The `CaseBSearchType` of the entries of a type. -/
def CmpType.bsType : CmpType → CaseBSearchType
  | int4 | date => .i32
  | int8 | timestamp | bool => .i64
  | int2 => .i16
  | oid => .u32
  | float4 => .f4
  | float8 => .f8
  | text | numeric | uuid | interval | bpchar | bytea | jsonb | network | array => .generic

/-- The types of `build_cmp_class_table`, in the order of the table. -/
def cmpClassTypes : List CmpType :=
  [.int4, .int8, .int2, .date, .oid, .timestamp, .float4, .float8, .bool, .text, .numeric, .uuid, .interval, .bpchar, .bytea, .jsonb,
    .network, .array]

/-- `add_cmp_group`. -/
def addCmpGroup (ty : CmpType) : List (CmpType × CaseCmp) := [(ty, .eq), (ty, .lt), (ty, .le), (ty, .gt), (ty, .ge)]

/-- `build_cmp_class_table`. -/
def buildCmpClassTable : List (CmpType × CaseCmp) := cmpClassTypes.flatMap addCmpGroup

/-- `classify_cmp_fn`, for the addresses of the functions. -/
def classifyCmpFn (addr : CmpType → CaseCmp → Nat) (fn : Nat) : Option (CaseBSearchType × CaseCmp) :=
  (buildCmpClassTable.find? fun e => addr e.1 e.2 == fn).map fun e => (e.1.bsType, e.2)

/-- The map of `find_generic_lt_fn`. -/
def genericLtTypes : List CmpType := [.text, .numeric, .uuid, .interval, .bpchar, .bytea, .jsonb, .network, .array]

/-- `find_generic_lt_fn`. -/
def findGenericLtFn (addr : CmpType → CaseCmp → Nat) (eqFn : Nat) : Option Nat :=
  (genericLtTypes.find? fun ty => addr ty .eq == eqFn).map fun ty => addr ty .lt

section Functions

variable {α β : Type} [LinearOrder α] [LinearOrder β] (F : FloatFormats α β) (T : PgText) {K : Type} [LinearOrder K]
  (key : CmpType → Nat → Datum → K)

/-- The comparison of two values of a type, which for a type that is passed by reference is that of their keys under a collation. -/
def CmpType.Compares : CmpType → CaseCmp → Nat → Datum → Datum → Prop
  | .int4, op, _, a, b => op.Rel (low32 a).toInt (low32 b).toInt
  | .date, op, _, a, b => op.Rel (low32 a).toInt (low32 b).toInt
  | .int8, op, _, a, b => op.Rel a.toInt b.toInt
  | .timestamp, op, _, a, b => op.Rel a.toInt b.toInt
  | .bool, op, _, a, b => op.Rel (datumGetBool a).toNat (datumGetBool b).toNat
  | .int2, op, _, a, b => op.Rel (a.setWidth 16).toInt (b.setWidth 16).toInt
  | .oid, op, _, a, b => op.Rel (low32 a).toNat (low32 b).toNat
  | .float4, op, _, a, b => op.Rel (datumGetFloat4 F a).key (datumGetFloat4 F b).key
  | .float8, op, _, a, b => op.Rel (datumGetFloat8 F a).key (datumGetFloat8 F b).key
  | ty, op, coll, a, b => op.Rel (key ty coll a) (key ty coll b)

instance {K : Type} [LinearOrder K] (op : CaseCmp) (a b : K) : Decidable (op.Rel a b) :=
  match op with
  | .eq => inferInstanceAs (Decidable (a = b))
  | .lt => inferInstanceAs (Decidable (a < b))
  | .le => inferInstanceAs (Decidable (a ≤ b))
  | .gt => inferInstanceAs (Decidable (b < a))
  | .ge => inferInstanceAs (Decidable (b ≤ a))

instance (ty : CmpType) (op : CaseCmp) (coll : Nat) (a b : Datum) : Decidable (ty.Compares F key op coll a b) :=
  match ty with
  | .int4 | .date => inferInstanceAs (Decidable (op.Rel (low32 a).toInt (low32 b).toInt))
  | .int8 | .timestamp => inferInstanceAs (Decidable (op.Rel a.toInt b.toInt))
  | .bool => inferInstanceAs (Decidable (op.Rel (datumGetBool a).toNat (datumGetBool b).toNat))
  | .int2 => inferInstanceAs (Decidable (op.Rel (a.setWidth 16).toInt (b.setWidth 16).toInt))
  | .oid => inferInstanceAs (Decidable (op.Rel (low32 a).toNat (low32 b).toNat))
  | .float4 => inferInstanceAs (Decidable (op.Rel (datumGetFloat4 F a).key (datumGetFloat4 F b).key))
  | .float8 => inferInstanceAs (Decidable (op.Rel (datumGetFloat8 F a).key (datumGetFloat8 F b).key))
  | .text => inferInstanceAs (Decidable (op.Rel (key .text coll a) (key .text coll b)))
  | .numeric => inferInstanceAs (Decidable (op.Rel (key .numeric coll a) (key .numeric coll b)))
  | .uuid => inferInstanceAs (Decidable (op.Rel (key .uuid coll a) (key .uuid coll b)))
  | .interval => inferInstanceAs (Decidable (op.Rel (key .interval coll a) (key .interval coll b)))
  | .bpchar => inferInstanceAs (Decidable (op.Rel (key .bpchar coll a) (key .bpchar coll b)))
  | .bytea => inferInstanceAs (Decidable (op.Rel (key .bytea coll a) (key .bytea coll b)))
  | .jsonb => inferInstanceAs (Decidable (op.Rel (key .jsonb coll a) (key .jsonb coll b)))
  | .network => inferInstanceAs (Decidable (op.Rel (key .network coll a) (key .network coll b)))
  | .array => inferInstanceAs (Decidable (op.Rel (key .array coll a) (key .array coll b)))

/-- The Datum holds a value of the type: a boolean is stored as `BoolGetDatum` stores it. -/
def CmpType.IsValue : CmpType → Datum → Prop
  | .bool, d => ∃ b, d = boolGetDatum b
  | _, _ => True

/-- PostgreSQL's comparison functions, at their addresses: the detector knows them by its table, and each is the operator of its type. -/
structure CmpFns (fns : CaseFuncs G) (addr : CmpType → CaseCmp → Nat) : Prop where
  addr_inj : ∀ ty op ty' op', addr ty op = addr ty' op' → ty = ty' ∧ op = op'
  classify : fns.classify = classifyCmpFn addr
  genericLt : fns.genericLt = findGenericLtFn addr
  compares : ∀ ty op coll a b, datumGetBool ((fns.fn (addr ty op)).call T coll a b) = true ↔ ty.Compares F key op coll a b

/-- A call of a comparison function, on two arguments that are not null. -/
def CallsCmpFns (fns : CaseFuncs G) (addr : CmpType → CaseCmp → Nat) (env : ExprEnv G) : Prop :=
  ∀ fn ty op a b, fns.addr fn = addr ty op →
    env.call fn [⟨a, false⟩, ⟨b, false⟩] = ⟨(fns.fn (addr ty op)).call T (fns.collation fn) a b, false⟩

end Functions

/-! ## The run of the steps -/

/-- The steps from `pc` until `stop` is reached: the state there, if it is reached in so many steps. -/
def execUntil (env : ExprEnv G) (steps : List (ExprEvalStep G)) (stop : Nat) : Nat → Nat → EvalState → Option EvalState
  | 0, pc, s => if pc = stop then some s else none
  | fuel + 1, pc, s =>
    if pc = stop then some s
    else
      match steps[pc]? with
      | none => none
      | some step =>
        match execStep env step pc s with
        | none => none
        | some (pc', s') => execUntil env steps stop fuel pc' s'

/-- The location of the result of a step. -/
def resAt (steps : List (ExprEvalStep G)) (i : Nat) : Option Cell := (steps[i]?).map ExprEvalStep.resvalue

/-- No step writes the location. -/
def Unwritten (steps : List (ExprEvalStep G)) (c : Cell) : Prop := ∀ step ∈ steps, step.resvalue ≠ c

instance (steps : List (ExprEvalStep G)) (c : Cell) : Decidable (Unwritten steps c) :=
  inferInstanceAs (Decidable (∀ step ∈ steps, step.resvalue ≠ c))

/-- The arguments that no step computes are those that the detector has read. -/
def SameConstants (steps : List (ExprEvalStep G)) (m s : EvalState) : Prop :=
  ∀ fcinfo argno, Unwritten steps (.arg fcinfo argno) → s.cells (.arg fcinfo argno) = m.cells (.arg fcinfo argno)

/-- What a load loads. -/
def EvalOp.loaded (env : ExprEnv G) (s : EvalState) : EvalOp G → Option NullableDatum
  | .var src attnum => some (env.slot src attnum)
  | .caseTestval (some c) => some (s.cells c)
  | .caseTestval none => some env.caseValue
  | _ => none

/-- The value of a helper's first parameter. -/
def helperVal : (ty : CaseBSearchType) → Datum → BitVec ty.width
  | .i32, d => low32 d
  | .u32, d => low32 d
  | .i16, d => low32 d
  | .i64, d => d
  | .f4, d => d
  | .f8, d => d
  | .generic, d => d

namespace CasePattern

variable (p : CasePattern)

/-- What the steps of the pattern leave in a location. -/
def linearResult (env : ExprEnv G) (steps : List (ExprEvalStep G)) (c : Cell) (s : EvalState) : Option NullableDatum :=
  (execUntil env steps p.elseEndOpno steps.length p.startOpno s).map fun s' => s'.cells c

section

variable {α β : Type} [LinearOrder α] [LinearOrder β] (F : FloatFormats α β) (T : PgText)

/-- What the helper returns. -/
def helperResult (v : Datum) : Datum := selectBsearchHelper F T p.info (helperVal p.info.bsType v) p.desc

/-- What is stored in place of the result of the steps: a null gives the default, and the helper is not called. -/
def callResult (d : NullableDatum) : Datum := if d.isnull then p.desc.defaultVal else p.helperResult F T d.value

/-- The call of the pattern gives what the steps give, for whatever is loaded. -/
def Agrees (env : ExprEnv G) (steps : List (ExprEvalStep G)) (m : EvalState) (c : Cell) (isValue : Datum → Prop) : Prop :=
  ∀ s d, SameConstants steps m s → (opAt steps p.startOpno).bind (EvalOp.loaded env s) = some d → (d.isnull = false → isValue d.value) →
    p.linearResult env steps c s = some ⟨p.callResult F T d, false⟩

end

end CasePattern

/-! ## The steps of the first pass -/

/-- A branch as the executor compiles it: its comparison has two arguments, and the CASE has one location for what its conditions and its
results give. -/
structure CompiledBranch (steps : List (ExprEvalStep G)) (c : Cell) (i : Nat) (b : SimpleBranch G) : Prop where
  call : opAt steps (i + 1) = some (.funcExprStrict b.fn b.fcinfo 2)
  test : resAt steps (i + 1) = some c
  jump : resAt steps (i + 2) = some c
  result : resAt steps (i + 3) = some c

/-- The steps of a simple pattern as the executor compiles them: one test value, which the CASE does not overwrite, and one location of
the result. -/
structure CompiledSimple (steps : List (ExprEvalStep G)) (c : Cell) (p : CasePattern) : Prop where
  forward : ForwardJumps steps
  branches : ∀ k b, p.startOpno + 5 * k < p.endOpno → simpleBranchAt steps (p.startOpno + 5 * k) = some b →
    CompiledBranch steps c (p.startOpno + 5 * k) b
  testval : ∀ k v, p.startOpno + 5 * k < p.endOpno → opAt steps p.startOpno = some (.caseTestval v) →
    opAt steps (p.startOpno + 5 * k) = some (.caseTestval v)
  testvalKept : ∀ c', opAt steps p.startOpno = some (.caseTestval (some c')) → ∀ k, p.startOpno ≤ k → k < p.elseEndOpno →
    resAt steps k ≠ some c'
  default : resAt steps p.endOpno = some c

/-- The value and the thresholds are of the types that the comparisons are for. -/
def CasePattern.Typed (fns : CaseFuncs G) (addr : CmpType → CaseCmp → Nat) (steps : List (ExprEvalStep G)) (m : EvalState)
    (p : CasePattern) (v : Datum) : Prop :=
  ∀ k b ty op, p.startOpno + 5 * k < p.endOpno → simpleBranchAt steps (p.startOpno + 5 * k) = some b → fns.addr b.fn = addr ty op →
    ty.IsValue v ∧ ty.IsValue (m.threshold b.fcinfo).value

/-- A branch compares the variable with a constant, the variable on the left, and like the first branch. -/
structure ComparesVariable (fns : CaseFuncs G) (steps : List (ExprEvalStep G)) (i : Nat) (first b : SimpleBranch G) : Prop where
  left : resAt steps i = some (.arg b.fcinfo 0)
  right : Unwritten steps (.arg b.fcinfo 1)
  collation : (fns.classify (fns.addr b.fn)).map Prod.fst = some .generic → fns.collation b.fn = fns.collation first.fn

/-- What the first pass does not look at: every branch of the pattern compares the variable with a constant. -/
def CasePattern.ComparesVariables (fns : CaseFuncs G) (steps : List (ExprEvalStep G)) (p : CasePattern) : Prop :=
  ∀ k first b, p.startOpno + 5 * k < p.endOpno → simpleBranchAt steps p.startOpno = some first →
    simpleBranchAt steps (p.startOpno + 5 * k) = some b → ComparesVariable fns steps (p.startOpno + 5 * k) first b

/-! ## What the branches compare -/

/-- The arguments of a call of two arguments, when the load at the step `j` has loaded `d`. -/
def loadedArgs (steps : List (ExprEvalStep G)) (fcinfo j : Nat) (s : EvalState) (d : NullableDatum) : List NullableDatum :=
  match resAt steps j with
  | some c => (s.store c d).args fcinfo 2
  | none => s.args fcinfo 2

/-- A strict call gives true: no argument is null, and what it returns is neither null nor false. -/
def callsTrue (env : ExprEnv G) (fn : G) (args : List NullableDatum) : Bool :=
  !args.any (·.isnull) && !(env.call fn args).isnull && datumGetBool (env.call fn args).value

/-- The arguments of a call in the steps from `lo` to `stop` are its own: each is what the load at the step `j` loads, or none of these
steps writes it. -/
def OwnArgs (steps : List (ExprEvalStep G)) (lo stop fcinfo j : Nat) : Prop :=
  ∀ argno < 2, resAt steps j = some (.arg fcinfo argno) ∨ ∀ n, lo ≤ n → n < stop → resAt steps n ≠ some (.arg fcinfo argno)

namespace SimpleBranch

variable (b : SimpleBranch G)

/-- The branch's own comparison is true: its function, with its own collation, on its own arguments, the one that the step `j` loads among
them. -/
def ownHolds (env : ExprEnv G) (steps : List (ExprEvalStep G)) (s : EvalState) (d : NullableDatum) (j : Nat) : Bool :=
  callsTrue env b.fn (loadedArgs steps b.fcinfo j s d)

/-- The comparison that the pattern has for the branch is true: the value on the left, what the detector has read from `args[1]` on the
right, and one collation for all branches. -/
def foldedHolds (T : PgText) (fns : CaseFuncs G) (m : EvalState) (collation : Nat) (v : Datum) : Bool :=
  datumGetBool ((fns.fn (fns.addr b.fn)).call T collation v (m.threshold b.fcinfo).value)

end SimpleBranch

namespace CasePattern

variable (p : CasePattern)

/-- The branches of a simple pattern, with their first steps. -/
def branches (steps : List (ExprEvalStep G)) : List (Nat × SimpleBranch G) :=
  (List.range ((p.endOpno - p.startOpno) / 5)).filterMap fun k =>
    (simpleBranchAt steps (p.startOpno + 5 * k)).map fun b => (p.startOpno + 5 * k, b)

/-- The constant of the first branch that holds, or else that of the ELSE. -/
def firstResult (steps : List (ExprEvalStep G)) (holds : Nat → SimpleBranch G → Bool) : Datum :=
  (((p.branches steps).find? fun x => holds x.1 x.2).map fun x => x.2.result.value).getD
    ((((opAt steps p.endOpno).bind EvalOp.constval).map NullableDatum.value).getD 0)

/-- The result by the branches' own comparisons. -/
def ownResult (env : ExprEnv G) (steps : List (ExprEvalStep G)) (s : EvalState) (d : NullableDatum) : Datum :=
  p.firstResult steps fun j b => b.ownHolds env steps s d j

/-- The result by the comparisons that the pattern has in their place, with the collation of the first branch. -/
def foldedResult (T : PgText) (fns : CaseFuncs G) (steps : List (ExprEvalStep G)) (m : EvalState) (v : Datum) : Datum :=
  p.firstResult steps fun _ b =>
    b.foldedHolds T fns m (((simpleBranchAt steps p.startOpno).map fun first => fns.collation first.fn).getD 0) v

/-- Every argument of a comparison is what the load of its branch loads, or no step of the CASE writes it. -/
def OwnArguments (steps : List (ExprEvalStep G)) : Prop :=
  ∀ k b, p.startOpno + 5 * k < p.endOpno → simpleBranchAt steps (p.startOpno + 5 * k) = some b →
    OwnArgs steps p.startOpno p.elseEndOpno b.fcinfo (p.startOpno + 5 * k)

end CasePattern

/-! ## The steps of the second pass -/

/-- A WHEN of two comparisons as the executor compiles it: its comparisons have two arguments, and the CASE has one location for what its
conditions give. -/
structure CompiledWhen (steps : List (ExprEvalStep G)) (c : Cell) (i : Nat) (w : RangeWhen G) : Prop where
  low : opAt steps (i + 1) = some (.funcExprStrict w.lowFn w.lowFcinfo 2)
  high : opAt steps (i + 4) = some (.funcExprStrict w.highFn w.highFcinfo 2)
  tests : ∀ k, k = 1 ∨ k = 2 ∨ k = 4 ∨ k = 5 ∨ k = 6 → resAt steps (i + k) = some c

/-- The steps of a range pattern as the executor compiles them, where a THEN is one step. -/
structure CompiledRange (steps : List (ExprEvalStep G)) (c : Cell) (p : CasePattern) : Prop where
  forward : ForwardJumps steps
  whens : ∀ k w, p.startOpno + 9 * k < p.endOpno → rangeWhenAt steps (p.startOpno + 9 * k) = some w →
    CompiledWhen steps c (p.startOpno + 9 * k) w

/-- The values and the bounds are of the types that the comparisons are for. -/
def CasePattern.TypedRange (fns : CaseFuncs G) (addr : CmpType → CaseCmp → Nat) (steps : List (ExprEvalStep G)) (m : EvalState)
    (p : CasePattern) (v : Datum) : Prop :=
  ∀ k w ty op, p.startOpno + 9 * k < p.endOpno → rangeWhenAt steps (p.startOpno + 9 * k) = some w →
    (fns.addr w.lowFn = addr ty op → ty.IsValue v ∧ ty.IsValue (m.threshold w.lowFcinfo).value) ∧
      (fns.addr w.highFn = addr ty op → ty.IsValue v ∧ ty.IsValue (m.threshold w.highFcinfo).value)

/-- Where a range begins. -/
def RangeWhen.lower (fns : CaseFuncs G) (m : EvalState) (w : RangeWhen G) : Option Int :=
  (fns.classify (fns.addr w.lowFn)).bind fun e => rangeBound e.1 (m.threshold w.lowFcinfo).value

/-- The first number after a range. -/
def RangeWhen.upper (fns : CaseFuncs G) (m : EvalState) (w : RangeWhen G) : Option Int :=
  (fns.classify (fns.addr w.highFn)).bind fun e =>
    (rangeBound e.1 (m.threshold w.highFcinfo).value).map fun hi => if e.2.isInclusive then hi + 1 else hi

/-- A WHEN that is true in a range: it is the AND of its two comparisons and of nothing else, each of the variable, on the left, with a
constant, the range does not end before it begins, and what follows is one constant and the end. -/
structure IsRange (fns : CaseFuncs G) (steps : List (ExprEvalStep G)) (m : EvalState) (c : Cell) (stop i : Nat) (w : RangeWhen G) :
    Prop where
  and_ : ∃ anynull, opAt steps (i + 2) = some (.boolAndStep .first anynull (i + 6)) ∧
    opAt steps (i + 5) = some (.boolAndStep .last anynull (i + 6))
  next : opAt steps (i + 6) = some (.jumpIfNotTrue (i + 9))
  lowLeft : resAt steps i = some (.arg w.lowFcinfo 0)
  lowRight : Unwritten steps (.arg w.lowFcinfo 1)
  highLeft : resAt steps (i + 3) = some (.arg w.highFcinfo 0)
  highRight : Unwritten steps (.arg w.highFcinfo 1)
  ordered : ∀ lo hi, w.lower fns m = some lo → w.upper fns m = some hi → lo ≤ hi
  result : ∃ r, opAt steps (i + 7) = some (.const r)
  place : resAt steps (i + 7) = some c
  done : opAt steps (i + 8) = some (.jump stop)

/-- What the second pass does not look at: every WHEN of the pattern is true in a range, and the ELSE is one constant. -/
structure CasePattern.IsRanges (fns : CaseFuncs G) (steps : List (ExprEvalStep G)) (m : EvalState) (c : Cell) (p : CasePattern) :
    Prop where
  whens : ∀ k, p.startOpno + 9 * k < p.endOpno → ∃ w, rangeWhenAt steps (p.startOpno + 9 * k) = some w ∧
    IsRange fns steps m c p.elseEndOpno (p.startOpno + 9 * k) w
  default : resAt steps p.endOpno = some c
  ends : p.endOpno + 1 = p.elseEndOpno ∨ opAt steps (p.endOpno + 1) = some (.jump p.elseEndOpno)

/-! ## THEN and ELSE of more than one step -/

/-- The WHENs from a step on, each followed by the one that its conditional jump goes to, before the step `stop`. -/
def whensFrom (steps : List (ExprEvalStep G)) (stop : Nat) : Nat → Nat → List (Nat × RangeWhen G)
  | 0, _ => []
  | fuel + 1, i =>
    if stop ≤ i then []
    else
      match rangeWhenAt steps i, (opAt steps (i + 6)).bind EvalOp.jumpIfNotTrueTarget with
      | some w, some next => (i, w) :: whensFrom steps stop fuel next
      | _, _ => []

namespace RangeWhen

variable (w : RangeWhen G)

/-- The WHEN's own comparisons are both true: their functions on their own arguments, what the steps `i` and `i + 3` load among them. -/
def ownHolds (env : ExprEnv G) (steps : List (ExprEvalStep G)) (s : EvalState) (d : NullableDatum) (i : Nat) : Bool :=
  callsTrue env w.lowFn (loadedArgs steps w.lowFcinfo i s d) && callsTrue env w.highFn (loadedArgs steps w.highFcinfo (i + 3) s d)

/-- The comparisons that the pattern has for the WHEN are both true: the value on the left, what the detector has read from `args[1]` on
the right. -/
def foldedHolds (T : PgText) (fns : CaseFuncs G) (m : EvalState) (v : Datum) : Bool :=
  datumGetBool ((fns.fn (fns.addr w.lowFn)).call T (fns.collation w.lowFn) v (m.threshold w.lowFcinfo).value) &&
    datumGetBool ((fns.fn (fns.addr w.highFn)).call T (fns.collation w.highFn) v (m.threshold w.highFcinfo).value)

end RangeWhen

/-- A WHEN of a range, before a THEN of any length: it is the AND of its two comparisons and of nothing else, the range does not end before
it begins, and where the WHEN is not true, the CASE goes on behind the first jump to its end. -/
structure IsWhen (fns : CaseFuncs G) (steps : List (ExprEvalStep G)) (m : EvalState) (stop i : Nat) (w : RangeWhen G) : Prop where
  and_ : ∃ anynull, opAt steps (i + 2) = some (.boolAndStep .first anynull (i + 6)) ∧
    opAt steps (i + 5) = some (.boolAndStep .last anynull (i + 6))
  ordered : ∀ lo hi, w.lower fns m = some lo → w.upper fns m = some hi → lo ≤ hi
  then_ : ∃ last, i + 7 ≤ last ∧ opAt steps (i + 6) = some (.jumpIfNotTrue (last + 1)) ∧ opAt steps last = some (.jump stop) ∧
    ∀ n, i + 7 ≤ n → n < last → opAt steps n ≠ some (.jump stop)

/-- Both comparisons of a WHEN have the variable on the left and a constant on the right. -/
structure ComparesBounds (steps : List (ExprEvalStep G)) (i : Nat) (w : RangeWhen G) : Prop where
  lowLeft : resAt steps i = some (.arg w.lowFcinfo 0)
  lowRight : Unwritten steps (.arg w.lowFcinfo 1)
  highLeft : resAt steps (i + 3) = some (.arg w.highFcinfo 0)
  highRight : Unwritten steps (.arg w.highFcinfo 1)

/-- The steps from `pc` on, run to the end of the CASE, leave the constant that stands at the step `i`. -/
def GivesConst (env : ExprEnv G) (steps : List (ExprEvalStep G)) (stop : Nat) (c : Cell) (i pc : Nat) (s : EvalState) : Prop :=
  ∃ k, opAt steps i = some (.const k) ∧ (execUntil env steps stop steps.length pc s).map (fun s' => s'.cells c) = some k

namespace CasePattern

variable (p : CasePattern)

/-- The WHENs of a range pattern, with their first steps. -/
def whens (steps : List (ExprEvalStep G)) : List (Nat × RangeWhen G) := whensFrom steps p.endOpno steps.length p.startOpno

/-- The first step of the THEN of the first WHEN that holds, or else that of the ELSE. -/
def firstEntry (steps : List (ExprEvalStep G)) (holds : Nat → RangeWhen G → Bool) : Nat :=
  (((p.whens steps).find? fun x => holds x.1 x.2).map fun x => x.1 + 7).getD p.endOpno

/-- The step that is entered by the WHENs' own comparisons. -/
def ownEntry (env : ExprEnv G) (steps : List (ExprEvalStep G)) (s : EvalState) (d : NullableDatum) : Nat :=
  p.firstEntry steps fun i w => w.ownHolds env steps s d i

/-- The step that is entered by the comparisons that the pattern has in their place. -/
def foldedEntry (T : PgText) (fns : CaseFuncs G) (steps : List (ExprEvalStep G)) (m : EvalState) (v : Datum) : Nat :=
  p.firstEntry steps fun _ w => w.foldedHolds T fns m v

/-- Every argument of a comparison is what the load before it loads, or no step of the CASE writes it. -/
def OwnBounds (steps : List (ExprEvalStep G)) : Prop :=
  ∀ x ∈ p.whens steps, OwnArgs steps p.startOpno p.elseEndOpno x.2.lowFcinfo x.1 ∧
    OwnArgs steps p.startOpno p.elseEndOpno x.2.highFcinfo (x.1 + 3)

/-- The values and the bounds are of the types that the comparisons are for. -/
def TypedWhens (fns : CaseFuncs G) (addr : CmpType → CaseCmp → Nat) (steps : List (ExprEvalStep G)) (m : EvalState) (v : Datum) :
    Prop :=
  ∀ x ∈ p.whens steps, ∀ ty op,
    (fns.addr x.2.lowFn = addr ty op → ty.IsValue v ∧ ty.IsValue (m.threshold x.2.lowFcinfo).value) ∧
      (fns.addr x.2.highFn = addr ty op → ty.IsValue v ∧ ty.IsValue (m.threshold x.2.highFcinfo).value)

end CasePattern

end PgJitter
