import PgJitter.CaseBsearch
import PgJitter.Lib.LeftScan

/-!
# The detection of CASE patterns

`pg_jitter_detect_case_bsearch` and `pg_jitter_setup_case_bsearch_arrays` (`src/pg_jitter_common.c`): the two passes over a step array
that look for a CASE whose branches a binary search can replace, and the store of the descriptors in the steps of the patterns found.
The detector reads the constant argument of a comparison from the call's argument array as it stands, and stops a pass when 16 patterns
are found.
-/

namespace PgJitter

open LeftScan

variable {G : Type}

/-! ## Steps -/

/-- What the detector looks up of the functions that steps call: `fn_addr` and `fncollation` of a call, `jit_find_direct_fn` for its
number of arguments, `classify_cmp_fn`, `find_generic_lt_fn`, and the function at an address. -/
structure CaseFuncs (G : Type) where
  addr : G → Nat
  collation : G → Nat
  directNargs : Nat → Option Nat
  classify : Nat → Option (CaseBSearchType × CaseCmp)
  genericLt : Nat → Option Nat
  fn : Nat → CaseCmpFn

/-- `is_equality`. -/
def CaseCmp.isEquality (op : CaseCmp) : Bool := op == eq

/-- `is_less`. -/
def CaseCmp.isLess (op : CaseCmp) : Bool := op == lt || op == le

/-- `is_inclusive`. -/
def CaseCmp.isInclusive (op : CaseCmp) : Bool := op == le || op == ge

namespace EvalOp

/-- `is_var_opcode`. -/
def isVar : EvalOp G → Bool
  | var _ _ => true
  | _ => false

/-- `EEOP_CASE_TESTVAL`. -/
def isCaseTestval : EvalOp G → Bool
  | caseTestval _ => true
  | _ => false

/-- `is_funcexpr_strict`, with the call. -/
def strictCall : EvalOp G → Option (G × Nat)
  | funcExprStrict fn fcinfo _ => some (fn, fcinfo)
  | _ => none

/-- The target of `EEOP_JUMP_IF_NOT_TRUE`. -/
def jumpIfNotTrueTarget : EvalOp G → Option Nat
  | jumpIfNotTrue jumpdone => some jumpdone
  | _ => none

/-- The target of `EEOP_JUMP`. -/
def jumpTarget : EvalOp G → Option Nat
  | jump jumpdone => some jumpdone
  | _ => none

/-- The value of `EEOP_CONST`. -/
def constval : EvalOp G → Option NullableDatum
  | const c => some c
  | _ => none

/-- The step between or after the two comparisons of a range. -/
def isAndStep (pos : BoolStepPos) : EvalOp G → Bool
  | qual _ => true
  | boolAndStep p _ _ => p = pos ∨ p = .step
  | _ => false

end EvalOp

/-- `same_var`. -/
def sameVar : EvalOp G → EvalOp G → Bool
  | .var src attnum, .var src' attnum' => src = src' ∧ attnum = attnum'
  | _, _ => false

/-- The opcode of a step. -/
def opAt (steps : List (ExprEvalStep G)) (i : Nat) : Option (EvalOp G) := (steps[i]?).map ExprEvalStep.op

/-- `fcinfo_data->args[1]`. -/
def EvalState.threshold (m : EvalState) (fcinfo : Nat) : NullableDatum := m.cells (.arg fcinfo 1)

/-! ## Patterns -/

/-- A pattern: `CaseBSearchInfo` with its descriptor. -/
structure CasePattern where
  startOpno : Nat
  endOpno : Nat
  elseEndOpno : Nat
  info : CaseBSearchInfo
  desc : CaseBSearchDesc info.bsType.width

/-- A threshold as the descriptor stores it. -/
def storeThreshold : (ty : CaseBSearchType) → Datum → BitVec ty.width
  | .i32, d => low32 d
  | .u32, d => low32 d
  | .i16, d => castInt16 (low32 d)
  | .i64, d => d
  | .f4, d => d
  | .f8, d => d
  | .generic, d => d

/-- The least pattern that is worth it, `CASE_BSEARCH_MIN_BRANCHES`. -/
def caseBsearchMinBranches : Nat := 4

/-- The size of the callers' arrays. -/
def maxCasePatterns : Nat := 16

section Detect

variable {α β : Type} [LinearOrder α] [LinearOrder β] (F : FloatFormats α β) (T : PgText) (fns : CaseFuncs G)
  (steps : List (ExprEvalStep G)) (m : EvalState)

/-! ## The first pass -/

/-- The five steps of a branch. -/
structure SimpleBranch (G : Type) where
  load : EvalOp G
  fn : G
  fcinfo : Nat
  next : Nat
  result : NullableDatum
  done : Nat

/-- The five steps at a position. -/
def simpleBranchAt (i : Nat) : Option (SimpleBranch G) := do
  let load ← opAt steps i
  let (fn, fcinfo) ← (opAt steps (i + 1)).bind EvalOp.strictCall
  let next ← (opAt steps (i + 2)).bind EvalOp.jumpIfNotTrueTarget
  let result ← (opAt steps (i + 3)).bind EvalOp.constval
  let done ← (opAt steps (i + 4)).bind EvalOp.jumpTarget
  return ⟨load, fn, fcinfo, next, result, done⟩

/-- The checks of a first branch, with the type and the comparison. -/
def simpleFirst (b : SimpleBranch G) : Option (CaseBSearchType × CaseCmp) :=
  if (b.load.isVar || b.load.isCaseTestval) && !b.result.isnull && !(m.threshold b.fcinfo).isnull &&
      fns.directNargs (fns.addr b.fn) == some 2 then
    fns.classify (fns.addr b.fn)
  else none

/-- The checks of a later branch, at the step `j`. -/
def simpleLater (first b : SimpleBranch G) (j : Nat) : Bool :=
  (if first.load.isVar then sameVar first.load b.load else b.load.isCaseTestval) && fns.addr b.fn == fns.addr first.fn &&
    !(m.threshold b.fcinfo).isnull && !b.result.isnull && b.done == first.done && b.next == j + 5

/-- The branches from the step `j` on. -/
def moreBranches (first : SimpleBranch G) : Nat → Nat → List (SimpleBranch G)
  | 0, _ => []
  | fuel + 1, j =>
    match simpleBranchAt steps j with
    | none => []
    | some b => if simpleLater fns m first b j then b :: moreBranches first fuel (j + 5) else []

/-- The ELSE after the branches: a constant, and then the end, or a jump to it. -/
def simpleElse (j done : Nat) : Option Datum := do
  let c ← (opAt steps j).bind EvalOp.constval
  if c.isnull then none
  else if j + 1 = done ∨ (opAt steps (j + 1)).bind EvalOp.jumpTarget = some done then some c.value
  else none

/-- How a threshold lies to the one before it, `cmp_result`. -/
def monotoneCmp (fn : CaseCmpFn) (collation : Nat) (isLess : Bool) : CaseBSearchType → Datum → Datum → Int
  | .i32, prev, curr => orderingToInt (compare (low32 curr).toInt (low32 prev).toInt)
  | .i64, prev, curr => orderingToInt (compare curr.toInt prev.toInt)
  | .u32, prev, curr => orderingToInt (compare (low32 curr).toNat (low32 prev).toNat)
  | .i16, prev, curr => orderingToInt (compare (castInt16 (low32 curr)).toInt (castInt16 (low32 prev)).toInt)
  | .f4, prev, curr => float4CmpJit (datumGetFloat4 F curr) (datumGetFloat4 F prev)
  | .f8, prev, curr => float8CmpJit (datumGetFloat8 F curr) (datumGetFloat8 F prev)
  | .generic, prev, curr =>
    let call a b := datumGetBool (fn.call T collation a b)
    if call prev curr then (if isLess then 1 else -1)
    else if call curr prev then (if isLess then -1 else 1)
    else 0

/-- The check of the thresholds of an inequality. -/
def monotone (fn : CaseCmpFn) (collation : Nat) (isLess : Bool) (ty : CaseBSearchType) (thresholds : List Datum) : Bool :=
  (thresholds.zip thresholds.tail).all fun (prev, curr) =>
    let c := monotoneCmp F T fn collation isLess ty prev curr
    if isLess then 0 < c else c < 0

/-- The comparison that sorts the branches of an equality. -/
def thresholdCmp (fn : CaseCmpFn) (orderFn : Option CaseCmpFn) (collation : Nat) (useMemcmp : Bool) :
    (ty : CaseBSearchType) → BitVec ty.width → BitVec ty.width → Int
  | .i32, a, b => orderingToInt (compare a.toInt b.toInt)
  | .i64, a, b => orderingToInt (compare a.toInt b.toInt)
  | .u32, a, b => orderingToInt (compare a.toNat b.toNat)
  | .i16, a, b => orderingToInt (compare a.toInt b.toInt)
  | .f4, a, b => float4CmpJit (datumGetFloat4 F a) (datumGetFloat4 F b)
  | .f8, a, b => float8CmpJit (datumGetFloat8 F a) (datumGetFloat8 F b)
  | .generic, a, b =>
    if useMemcmp then textMemcmp (T.bytes a) (T.bytes b)
    else orderCmp (fun a b => datumGetBool ((orderFn.getD fn).call T collation a b)) a b

/-- The sorted branches, when no threshold is there twice. -/
def sortBranches {w : Nat} (cmp : BitVec w → BitVec w → Int) (pairs : List (BitVec w × Datum)) : Option (List (BitVec w × Datum)) :=
  let sorted := pairs.mergeSort fun a b => cmp a.1 b.1 ≤ 0
  if (sorted.zip sorted.tail).any fun (a, b) => cmp a.1 b.1 = 0 then none else some sorted

/-- The descriptor of the branches. -/
def CaseBSearchDesc.ofBranches {w : Nat} (cmpFn : CaseCmpFn) (cmpOrderFn : Option CaseCmpFn) (cmpCollation : Nat) (defaultVal : Datum)
    (rangeMin : Option Datum) (pairs : List (BitVec w × Datum)) : CaseBSearchDesc w where
  n := pairs.length
  cmpFn := cmpFn
  cmpOrderFn := cmpOrderFn
  cmpCollation := cmpCollation
  defaultVal := defaultVal
  rangeMin := rangeMin.getD 0
  hasRangeMin := rangeMin.isSome
  thresholds k := (pairs[k]?.map Prod.fst).getD 0
  results k := (pairs[k]?.map Prod.snd).getD 0

/-- The descriptor of a simple pattern: the branches as they are, or sorted for an equality with an order; `none` when a threshold is
there twice. -/
def simpleDesc (ty : CaseBSearchType) (op : CaseCmp) (first : SimpleBranch G) (defaultVal : Datum) (branches : List (SimpleBranch G)) :
    Option (CaseBSearchDesc ty.width) :=
  let cmpFn := fns.fn (fns.addr first.fn)
  let orderFn := if ty = .generic ∧ op = .eq then (fns.genericLt (fns.addr first.fn)).map fns.fn else none
  let collation := if ty = .generic then fns.collation first.fn else 0
  let build := CaseBSearchDesc.ofBranches cmpFn orderFn collation defaultVal none
  let pairs := branches.map fun b => (storeThreshold ty (m.threshold b.fcinfo).value, b.result.value)
  if op = .eq ∧ (ty ≠ .generic ∨ orderFn.isSome) then
    let useMemcmp := caseBsearchGenericEqCanMemcmp T (CaseBSearchDesc.ofBranches cmpFn orderFn collation defaultVal none [])
    (sortBranches (thresholdCmp F T cmpFn orderFn collation useMemcmp ty) pairs).map build
  else some (build pairs)

/-- One turn of the first pass. -/
def simpleLook (i : Nat) : Look CasePattern :=
  match (simpleBranchAt steps i).bind fun first => (simpleFirst fns m first).map fun (ty, op) => (first, ty, op) with
  | none => .skip (i + 1)
  | some (first, ty, op) =>
    let branches := first :: moreBranches fns steps m first steps.length (i + 5)
    let j := i + 5 * branches.length
    if (branches.zipIdx.all fun (b, k) => b.next == i + (k + 1) * 5) = false then .skip (i + 1)
    else
      match simpleElse steps j first.done with
      | none => .skip (i + 1)
      | some default =>
        let thresholds := branches.map fun b => (m.threshold b.fcinfo).value
        if branches.length < caseBsearchMinBranches then .skip j
        else if op.isEquality = false ∧
            monotone F T (fns.fn (fns.addr first.fn)) (fns.collation first.fn) op.isLess ty thresholds = false then .skip j
        else
          match simpleDesc F T fns m ty op first default branches with
          | none => .skip j
          | some desc => .found ⟨i, j, first.done, ⟨ty, op.isEquality, op.isLess, op.isInclusive⟩, desc⟩ first.done

/-! ## The second pass -/

/-- The seven steps of a WHEN with two comparisons. -/
structure RangeWhen (G : Type) where
  load : EvalOp G
  lowFn : G
  lowFcinfo : Nat
  highLoad : EvalOp G
  highFn : G
  highFcinfo : Nat

/-- The seven steps at a position. -/
def rangeWhenAt (i : Nat) : Option (RangeWhen G) := do
  let load ← (opAt steps i).filter EvalOp.isVar
  let (lowFn, lowFcinfo) ← (opAt steps (i + 1)).bind EvalOp.strictCall
  let _ ← (opAt steps (i + 2)).filter (EvalOp.isAndStep .first)
  let highLoad ← (opAt steps (i + 3)).filter EvalOp.isVar
  let (highFn, highFcinfo) ← (opAt steps (i + 4)).bind EvalOp.strictCall
  let _ ← (opAt steps (i + 5)).filter (EvalOp.isAndStep .last)
  let _ ← (opAt steps (i + 6)).bind EvalOp.jumpIfNotTrueTarget
  return ⟨load, lowFn, lowFcinfo, highLoad, highFn, highFcinfo⟩

/-- Both bounds are constants that are not null. -/
def RangeWhen.bounded (w : RangeWhen G) : Bool := !(m.threshold w.lowFcinfo).isnull && !(m.threshold w.highFcinfo).isnull

/-- The first jump from a step on to a target that counts, in so many steps. -/
def findJump (counts : Nat → Bool) : Nat → Nat → Option (Nat × Nat)
  | 0, _ => none
  | left + 1, s =>
    match opAt steps s with
    | none => none
    | some op =>
      match op.jumpTarget with
      | some target => if counts target then some (s, target) else findJump counts left (s + 1)
      | none => findJump counts left (s + 1)

/-- How far the end of a THEN is looked for. -/
def maxThenSteps : Nat := 20

/-- `MAX_RANGE_BRANCHES`. -/
def maxRangeBranches : Nat := 128

/-- A branch of a range pattern: its WHEN and the first step of its THEN. -/
structure RangeBranch (G : Type) where
  when_ : RangeWhen G
  thenStep : Nat

/-- The checks of a first WHEN: `>=` and `<` or `<=` of one type, on one variable; the type, and whether the upper bound is inclusive. -/
def rangeFirst (w : RangeWhen G) : Option (CaseBSearchType × Bool) :=
  if sameVar w.load w.highLoad then
    match fns.classify (fns.addr w.lowFn), fns.classify (fns.addr w.highFn) with
    | some (lowType, .ge), some (highType, op) =>
      if op.isLess && lowType == highType && w.bounded m then some (highType, op.isInclusive) else none
    | _, _ => none
  else none

/-- The checks of a later WHEN. -/
def rangeLater (first w : RangeWhen G) : Bool :=
  sameVar first.load w.load && sameVar first.load w.highLoad && fns.addr w.lowFn == fns.addr first.lowFn &&
    fns.addr w.highFn == fns.addr first.highFn && w.bounded m

/-- The branches from the step `j` on, at most so many, and the step after them. -/
def moreRanges (first : RangeWhen G) (done : Nat) : Nat → Nat → List (RangeBranch G) × Nat
  | 0, j => ([], j)
  | left + 1, j =>
    match (if j + 7 < steps.length then rangeWhenAt steps j else none) with
    | none => ([], j)
    | some w =>
      if rangeLater fns m first w = false then ([], j)
      else
        match findJump steps (fun target => target == done) maxThenSteps (j + 7) with
        | none => ([], j)
        | some (jump, _) =>
          let (rest, j') := moreRanges first done left (jump + 1)
          (⟨w, j + 7⟩ :: rest, j')

/-- The value of a bound, for the types that are checked for gaps. -/
def rangeBound : CaseBSearchType → Datum → Option Int
  | .i32, d => some (low32 d).toInt
  | .i64, d => some d.toInt
  | .i16, d => some (castInt16 (low32 d)).toInt
  | _, _ => none

/-- `case_range_upper_sentinel_representable`. -/
def caseRangeUpperSentinelRepresentable : CaseBSearchType → Datum → Bool
  | .i16, upper => (low32 upper).toInt ≤ 32767
  | .i32, upper => (low32 upper).toInt < 2 ^ 31 - 1
  | .i64, upper => upper.toInt < 2 ^ 63 - 1
  | _, _ => false

/-- The lower bound of a branch. -/
def RangeBranch.low (b : RangeBranch G) : Datum := (m.threshold b.when_.lowFcinfo).value

/-- The upper bound of a branch. -/
def RangeBranch.high (b : RangeBranch G) : Datum := (m.threshold b.when_.highFcinfo).value

/-- Every range begins where the one before it ends. -/
def contiguous (ty : CaseBSearchType) (inclusive : Bool) (branches : List (RangeBranch G)) : Bool :=
  ((branches.zip branches.tail).all fun (b, b') =>
    match rangeBound ty (b.high m), rangeBound ty (b'.low m) with
    | some hi, some lo =>
      (!inclusive || caseRangeUpperSentinelRepresentable ty (b.high m)) && (if inclusive then hi + 1 else hi) == lo
    | _, _ => false) &&
  (!inclusive || branches.all fun b => caseRangeUpperSentinelRepresentable ty (b.high m))

/-- The threshold of a range: its upper bound, made exclusive. -/
def rangeThreshold (inclusive : Bool) (ty : CaseBSearchType) (upper : Datum) : BitVec ty.width :=
  if inclusive then storeThreshold ty upper + 1 else storeThreshold ty upper

/-- The results, when every THEN begins with a constant that is not null. -/
def constResults : List (RangeBranch G) → Option (List Datum)
  | [] => some []
  | b :: rest => do
    let c ← (opAt steps b.thenStep).bind EvalOp.constval
    if c.isnull then none else return c.value :: (← constResults rest)

/-- One turn of the second pass. -/
def rangeLook (i : Nat) : Look CasePattern :=
  match (rangeWhenAt steps i).bind fun first => (rangeFirst fns m first).bind fun (ty, inclusive) =>
      (findJump steps (fun _ => true) maxThenSteps (i + 7)).map fun (jump, done) => (first, ty, inclusive, jump, done) with
  | none => .skip (i + 1)
  | some (first, ty, inclusive, jump, done) =>
    let (rest, j) := moreRanges fns steps m first done (maxRangeBranches - 1) (jump + 1)
    let branches := ⟨first, i + 7⟩ :: rest
    if branches.length < caseBsearchMinBranches then .skip j
    else if contiguous m ty inclusive branches = false then .skip j
    else
      match (opAt steps j).bind EvalOp.constval with
      | none => .skip j
      | some c =>
        if c.isnull then .skip j
        else
          match constResults steps branches with
          | none => .skip done
          | some results =>
            let pairs := (branches.map fun b => rangeThreshold inclusive ty (b.high m)).zip results
            let low := (m.threshold first.lowFcinfo).value
            .found ⟨i, j, done, ⟨ty, false, true, false⟩,
              CaseBSearchDesc.ofBranches (fns.fn 0) none 0 c.value (some low) pairs⟩ done

/-! ## The detector -/

/-- The patterns of the first pass. -/
def simplePatterns : List CasePattern :=
  scan (simpleLook F T fns steps m) (steps.length - 5) steps.length maxCasePatterns 0

/-- The patterns of the second pass, in the room that the first one leaves. -/
def rangePatterns : List CasePattern :=
  scan (rangeLook fns steps m) (steps.length - 7) steps.length
    (maxCasePatterns - (simplePatterns F T fns steps m).length) 0

/-- `pg_jitter_detect_case_bsearch`. -/
def detectCaseBsearch : List CasePattern := simplePatterns F T fns steps m ++ rangePatterns F T fns steps m

end Detect

/-! ## The store of the descriptors -/

/-- The store to `d.constval.value`, the first word of the union, by the fields that lie there: `jumpdone` in its low half, or the
pointer `anynull`. The steps that a pattern has there are of these kinds. -/
def EvalOp.setConstvalValue (op : EvalOp G) (value : Datum) : EvalOp G :=
  match op with
  | const c => const { c with value := value }
  | jumpIfNotTrue _ => jumpIfNotTrue (low32 value).toNat
  | qual _ => qual (low32 value).toNat
  | boolAndStep pos _ jumpdone => boolAndStep pos value.toNat jumpdone
  | op => op

/-- The store of one descriptor at an address. -/
def storeDesc (steps : List (ExprEvalStep G)) (p : CasePattern) (desc : Datum) : List (ExprEvalStep G) :=
  steps.modify (p.startOpno + 2) fun step => { step with op := step.op.setConstvalValue desc }

/-- `pg_jitter_setup_case_bsearch_arrays` for the patterns it detects; the `k`-th descriptor is at `desc k`. -/
def setupCaseBsearchArrays (patterns : List CasePattern) (desc : Nat → Datum) (steps : List (ExprEvalStep G)) :
    List (ExprEvalStep G) :=
  patterns.zipIdx.foldl (fun steps (p, k) => storeDesc steps p (desc k)) steps

end PgJitter
