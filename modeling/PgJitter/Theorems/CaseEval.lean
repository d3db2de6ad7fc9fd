import PgJitter.Lemmas.CaseFold
import PgJitter.Lemmas.CaseEnter

/-!
# CASE patterns and the steps they replace: the results
-/

namespace PgJitter

open CaseEvalAux CaseSimpleAux CaseFoldAux

section

variable {G : Type} {α β : Type} [LinearOrder α] [LinearOrder β] (F : FloatFormats α β) (T : PgText) {K : Type} [LinearOrder K]
  (key : CmpType → Nat → Datum → K) (fns : CaseFuncs G) (addr : CmpType → CaseCmp → Nat) (env : ExprEnv G)
  (steps : List (ExprEvalStep G)) (m : EvalState) (c : Cell)

/-- A pattern of the first pass gives what its steps give, when every branch has the variable on the left of its comparison, a constant
on the right, and the collation of the first branch where it has one. -/
theorem simple_pattern_agrees (hfns : CmpFns F T key fns addr) (hcalls : CallsCmpFns T fns addr env) {p : CasePattern}
    (hp : p ∈ simplePatterns F T fns steps m) (hcompiled : CompiledSimple steps c p) (h : p.ComparesVariables fns steps) :
    p.Agrees F T env steps m c (p.Typed fns addr steps m) :=
  agrees_of_typed hfns hcalls hp hcompiled h fun _ htyped => htyped

/-- A pattern of the first pass gives for a value what its steps give exactly when the first branch whose own comparison is true and the
first one whose folded comparison is true have one result; they have when every branch compares the variable with a constant. -/
theorem simple_pattern_iff (hfns : CmpFns F T key fns addr) (hcalls : CallsCmpFns T fns addr env) {p : CasePattern}
    (hp : p ∈ simplePatterns F T fns steps m) (hcompiled : CompiledSimple steps c p) (hown : p.OwnArguments steps) {s : EvalState}
    {v : Datum} (hload : (opAt steps p.startOpno).bind (EvalOp.loaded env s) = some ⟨v, false⟩)
    (htyped : p.Typed fns addr steps m v) :
    (p.linearResult env steps c s = some ⟨p.helperResult F T v, false⟩ ↔
      p.ownResult env steps s ⟨v, false⟩ = p.foldedResult T fns steps m v) ∧
    (p.ComparesVariables fns steps → SameConstants steps m s →
      p.ownResult env steps s ⟨v, false⟩ = p.foldedResult T fns steps m v) := by
  have hlinear := linear_eq_own hp hcompiled hown hload
  have hhelper := helper_eq_folded hfns hcompiled.forward hp htyped
  refine ⟨⟨fun heq => ?_, fun heq => ?_⟩, fun h hsame => own_eq_folded hfns hcalls hcompiled.forward hp h hsame v⟩
  · rw [hlinear, hhelper] at heq
    exact congrArg NullableDatum.value (Option.some.inj heq)
  · rw [hlinear, hhelper, heq]

end

section

open CaseEnterAux

variable {G : Type} {α β : Type} [LinearOrder α] [LinearOrder β] (F : FloatFormats α β) (T : PgText) {K : Type} [LinearOrder K]
  (key : CmpType → Nat → Datum → K) (fns : CaseFuncs G) (addr : CmpType → CaseCmp → Nat) (env : ExprEnv G)
  (steps : List (ExprEvalStep G)) (m : EvalState) (c : Cell)

/-- A pattern of the second pass gives what its steps give, when every WHEN is the AND of its two comparisons and of nothing else, with
the variable on the left of both and constants on the right, no range ends before it begins, and every result is one constant. -/
theorem range_pattern_agrees (hfns : CmpFns F T key fns addr) (hcalls : CallsCmpFns T fns addr env) {p : CasePattern}
    (hp : p ∈ rangePatterns F T fns steps m) (hcompiled : CompiledRange steps c p) (h : p.IsRanges fns steps m c) :
    p.Agrees F T env steps m c (p.TypedRange fns addr steps m) :=
  agrees_of_ranges hfns hcalls hp hcompiled h

/-- A pattern of the second pass gives for a value what its steps give exactly when the THEN of the first WHEN whose own comparisons are
true, run to the end of the CASE, gives the constant that begins the THEN of the first WHEN whose folded comparisons are true, the ELSE
standing for no WHEN; both lead to one THEN or ELSE when every comparison has the variable on the left and a constant on the right. Every
WHEN is the AND of its two comparisons and leads behind its THEN, and no range ends before it begins. -/
theorem range_pattern_iff (hfns : CmpFns F T key fns addr) (hcalls : CallsCmpFns T fns addr env) {p : CasePattern}
    (hp : p ∈ rangePatterns F T fns steps m) (hforward : ForwardJumps steps)
    (hcompiled : ∀ x ∈ p.whens steps, CompiledWhen steps c x.1 x.2) (hown : p.OwnBounds steps)
    (h : ∀ x ∈ p.whens steps, IsWhen fns steps m p.elseEndOpno x.1 x.2) {s : EvalState} {v : Datum}
    (hload : (opAt steps p.startOpno).bind (EvalOp.loaded env s) = some ⟨v, false⟩) (htyped : p.TypedWhens fns addr steps m v) :
    (∃ s', Relation.ReflTransGen (InterpStep env steps) (p.startOpno, s) (p.ownEntry env steps s ⟨v, false⟩, s') ∧
      (p.linearResult env steps c s = some ⟨p.helperResult F T v, false⟩ ↔
        GivesConst env steps p.elseEndOpno c (p.foldedEntry T fns steps m v) (p.ownEntry env steps s ⟨v, false⟩) s')) ∧
    ((∀ x ∈ p.whens steps, ComparesBounds steps x.1 x.2) → SameConstants steps m s →
      p.ownEntry env steps s ⟨v, false⟩ = p.foldedEntry T fns steps m v) := by
  refine ⟨?_, fun hbounds hsame => ownEntry_eq hfns hcalls hp hforward h hbounds hsame v⟩
  obtain ⟨hle, s', hrun⟩ := range_entered hp hforward hcompiled h hown hload
  have hconst := folded_const hfns hp hforward h htyped
  refine ⟨s', hrun, ?_⟩
  rw [linear_of_entered hforward hrun hle]
  constructor
  · exact fun heq => ⟨_, hconst, heq⟩
  · rintro ⟨k, hk, heq⟩
    obtain rfl := EvalOp.const.inj (Option.some.inj (hconst.symm.trans hk))
    exact heq

end

namespace CaseEvalWitness

open CaseBsearchWitness

/-- Texts and the like as numbers. -/
def wordKey (_ : CmpType) (_ : Nat) (d : Datum) : Nat := d.toNat

/-- The place of a type in the table. -/
def typeIdx (ty : CmpType) : Nat := cmpClassTypes.idxOf ty

/-- The place of an operator. -/
def opIdx : CaseCmp → Nat
  | .eq => 0
  | .lt => 1
  | .le => 2
  | .gt => 3
  | .ge => 4

/-- The operator at a place. -/
def opAtIdx : Nat → CaseCmp
  | 0 => .eq
  | 1 => .lt
  | 2 => .le
  | 3 => .gt
  | _ => .ge

/-- The addresses of the comparison functions. -/
def fnAddr (ty : CmpType) (op : CaseCmp) : Nat := 8 * typeIdx ty + opIdx op

/-- The comparison function at an address. -/
def fnAt (a : Nat) : CaseCmpFn :=
  .other fun coll x y =>
    boolGetDatum (decide ((cmpClassTypes.getD (a / 8) .int4).Compares signedFloats wordKey (opAtIdx (a % 8)) coll x y))

/-- What stands at the address of a function. -/
theorem fnAddr_decode (ty : CmpType) (op : CaseCmp) :
    cmpClassTypes.getD (fnAddr ty op / 8) .int4 = ty ∧ opAtIdx (fnAddr ty op % 8) = op := by
  cases ty <;> cases op <;> decide

/-- PostgreSQL with comparison functions at these addresses; the calls of the steps are those of `int4`. -/
def pgFns : CaseFuncs CaseCmp where
  addr op := fnAddr .int4 op
  collation _ := 0
  directNargs _ := some 2
  classify := classifyCmpFn fnAddr
  genericLt := findGenericLtFn fnAddr
  fn := fnAt

/-- A row whose one column is a number. -/
def rowOf (x : Nat) : ExprEnv CaseCmp where
  slot _ _ := ⟨BitVec.ofNat 64 x, false⟩
  caseValue := ⟨0, true⟩
  call op args :=
    match args with
    | [a, b] => ⟨(fnAt (fnAddr .int4 op)).call wordTexts 0 a.value b.value, false⟩
    | _ => ⟨0, true⟩
  other _ _ := (⟨0, true⟩, 0)

theorem pgFns_cmpFns : CmpFns signedFloats wordTexts wordKey pgFns fnAddr where
  addr_inj := fun ty op ty' op' h => by
    obtain ⟨h1, h2⟩ := fnAddr_decode ty op
    obtain ⟨h3, h4⟩ := fnAddr_decode ty' op'
    rw [h] at h1 h2
    exact ⟨h1.symm.trans h3, h2.symm.trans h4⟩
  classify := rfl
  genericLt := rfl
  compares := fun ty op coll a b => by
    obtain ⟨h1, h2⟩ := fnAddr_decode ty op
    show datumGetBool (boolGetDatum (decide _)) = true ↔ _
    rw [h1, h2]
    by_cases h : ty.Compares signedFloats wordKey op coll a b <;> simp [h, datumGetBool, boolGetDatum]

theorem rowOf_calls (x : Nat) : CallsCmpFns wordTexts pgFns fnAddr (rowOf x) := by
  intro fn ty op a b h
  obtain ⟨-, rfl⟩ := pgFns_cmpFns.addr_inj _ _ _ _ h
  obtain ⟨rfl, -⟩ := pgFns_cmpFns.addr_inj _ _ _ _ h
  rfl

/-- `WHEN x < k THEN r` at the step `s`. -/
def whenLt (done s k r : Nat) : List (ExprEvalStep CaseCmp) :=
  [⟨.var .scan 0, .arg k 0⟩, ⟨.funcExprStrict .lt k 2, .state⟩, ⟨.jumpIfNotTrue (s + 5), .state⟩,
    ⟨.const ⟨BitVec.ofNat 64 r, false⟩, .state⟩, ⟨.jump done, .state⟩]

/-- `CASE WHEN x < 10 THEN 1 WHEN x < 20 THEN 2 WHEN x < 30 THEN 3 WHEN x < 40 THEN 4 ELSE 5 END`. -/
def caseLt : List (ExprEvalStep CaseCmp) :=
  whenLt 21 0 10 1 ++ whenLt 21 5 20 2 ++ whenLt 21 10 30 3 ++ whenLt 21 15 40 4 ++ [⟨.const ⟨5, false⟩, .state⟩, ⟨.done, .state⟩]

/-- `WHEN x >= lo AND x <= hi THEN r` at the step `s`. -/
def whenIn (done s lo hi r : Nat) : List (ExprEvalStep CaseCmp) :=
  [⟨.var .scan 0, .arg (1000 + lo) 0⟩, ⟨.funcExprStrict .ge (1000 + lo) 2, .state⟩, ⟨.boolAndStep .first 0 (s + 6), .state⟩,
    ⟨.var .scan 0, .arg (2000 + hi) 0⟩, ⟨.funcExprStrict .le (2000 + hi) 2, .state⟩, ⟨.boolAndStep .last 0 (s + 6), .state⟩,
    ⟨.jumpIfNotTrue (s + 9), .state⟩, ⟨.const ⟨BitVec.ofNat 64 r, false⟩, .state⟩, ⟨.jump done, .state⟩]

/-- The CASE of the ranges from 0 to 9, 19, 29 and 39. -/
def caseIn : List (ExprEvalStep CaseCmp) :=
  whenIn 37 0 0 9 1 ++ whenIn 37 9 10 19 2 ++ whenIn 37 18 20 29 3 ++ whenIn 37 27 30 39 4 ++
    [⟨.const ⟨5, false⟩, .state⟩, ⟨.done, .state⟩]

/-- The argument arrays: the second argument of the call `1000 * n + k` is the constant `k`. -/
def constArgs : EvalState := ⟨fun
  | .arg fcinfo 1 => ⟨BitVec.ofNat 64 (fcinfo % 1000), false⟩
  | _ => ⟨0, true⟩, fun _ => false, fun _ => ⟨0, true⟩⟩

theorem caseLt_patterns : (simplePatterns signedFloats wordTexts pgFns caseLt constArgs).map
    (fun p => (p.startOpno, p.endOpno, p.elseEndOpno)) = [(0, 20, 21)] := rfl

theorem caseIn_patterns : (rangePatterns signedFloats wordTexts pgFns caseIn constArgs).map
    (fun p => (p.startOpno, p.endOpno, p.elseEndOpno)) = [(0, 36, 37)] := rfl

/-- The one pattern of a list. -/
theorem one_pattern {l : List CasePattern} {x : Nat × Nat × Nat}
    (h : l.map (fun p => (p.startOpno, p.endOpno, p.elseEndOpno)) = [x]) :
    ∃ p ∈ l, p.startOpno = x.1 ∧ p.endOpno = x.2.1 ∧ p.elseEndOpno = x.2.2 := by
  have hmem : x ∈ l.map (fun p => (p.startOpno, p.endOpno, p.elseEndOpno)) := by rw [h]; exact List.mem_singleton_self x
  obtain ⟨p, hp, rfl⟩ := List.mem_map.1 hmem
  exact ⟨p, hp, rfl, rfl, rfl⟩

/-- Its jumps go forward. -/
theorem forward_of_all {l : List (ExprEvalStep CaseCmp)}
    (h : (l.zipIdx.all fun (step, pc) => step.op.targets.all fun t => decide (pc < t)) = true) : ForwardJumps l := by
  intro pc step hstep t ht
  have hpc := List.all_eq_true.1 h (step, pc) (List.mk_mem_zipIdx_iff_getElem?.2 hstep)
  exact of_decide_eq_true (List.all_eq_true.1 hpc t ht)

theorem caseLt_branches : ∀ k < 4, ∀ b, simpleBranchAt caseLt (5 * k) = some b →
    CompiledBranch caseLt .state (5 * k) b ∧ resAt caseLt (5 * k) = some (.arg b.fcinfo 0) ∧ Unwritten caseLt (.arg b.fcinfo 1) := by
  intro k hk b hb
  obtain rfl | rfl | rfl | rfl : k = 0 ∨ k = 1 ∨ k = 2 ∨ k = 3 := by omega
  all_goals
    obtain rfl := Option.some.inj hb
    exact ⟨⟨rfl, rfl, rfl, rfl⟩, rfl, by decide⟩

theorem caseLt_compiled {p : CasePattern} (hstart : p.startOpno = 0) (hend : p.endOpno = 20) : CompiledSimple caseLt .state p where
  forward := forward_of_all rfl
  branches := fun k b hk hb => by
    rw [hstart, Nat.zero_add] at hk hb ⊢
    exact (caseLt_branches k (by omega) b hb).1
  testval := fun k v hk hv => by
    rw [hstart] at hv
    cases hv
  testvalKept := fun c' hv => by
    rw [hstart] at hv
    cases hv
  default := by
    rw [hend]
    rfl

theorem caseLt_compares {p : CasePattern} (hstart : p.startOpno = 0) (hend : p.endOpno = 20) :
    p.ComparesVariables pgFns caseLt := by
  intro k first b hk hfirst hb
  rw [hstart, Nat.zero_add] at hk hb ⊢
  obtain ⟨-, hleft, hright⟩ := caseLt_branches k (by omega) b hb
  exact ⟨hleft, hright, fun _ => rfl⟩

/-- For every value the search gives what the steps of the CASE give. -/
theorem case_lt_agrees : ∃ p ∈ simplePatterns signedFloats wordTexts pgFns caseLt constArgs,
    p.Agrees signedFloats wordTexts (rowOf 25) caseLt constArgs .state (p.Typed pgFns fnAddr caseLt constArgs) := by
  obtain ⟨p, hp, hstart, hend, -⟩ := one_pattern caseLt_patterns
  exact ⟨p, hp, simple_pattern_agrees signedFloats wordTexts wordKey pgFns fnAddr (rowOf 25) caseLt constArgs .state pgFns_cmpFns
    (rowOf_calls 25) hp (caseLt_compiled hstart hend) (caseLt_compares hstart hend)⟩

/-- `CASE WHEN 5 < x THEN 1 WHEN x < 10 THEN 2 WHEN x < 20 THEN 3 WHEN x < 30 THEN 4 ELSE 5 END`: the first branch loads the right argument
of its comparison. -/
def caseFlipped : List (ExprEvalStep CaseCmp) :=
  [⟨.var .scan 0, .arg 0 1⟩, ⟨.funcExprStrict .lt 0 2, .state⟩, ⟨.jumpIfNotTrue 5, .state⟩, ⟨.const ⟨1, false⟩, .state⟩,
    ⟨.jump 21, .state⟩] ++ whenLt 21 5 10 2 ++ whenLt 21 10 20 3 ++ whenLt 21 15 30 4 ++
    [⟨.const ⟨5, false⟩, .state⟩, ⟨.done, .state⟩]

/-- Its argument arrays: the 5 is the left argument of the first call, and the right one is zero until it is loaded. -/
def flippedArgs : EvalState where
  cells
    | .arg 0 0 => ⟨5, false⟩
    | c => constArgs.cells c
  anynull := constArgs.anynull
  result := constArgs.result

theorem caseFlipped_patterns : (simplePatterns signedFloats wordTexts pgFns caseFlipped flippedArgs).map
    (fun p => (p.startOpno, p.endOpno, p.elseEndOpno)) = [(0, 20, 21)] := rfl

theorem caseFlipped_branches : ∀ k < 4, ∀ b, simpleBranchAt caseFlipped (5 * k) = some b → CompiledBranch caseFlipped .state (5 * k) b ∧
    ∀ argno < 2, resAt caseFlipped (5 * k) = some (.arg b.fcinfo argno) ∨ Unwritten caseFlipped (.arg b.fcinfo argno) := by
  intro k hk b hb
  obtain rfl | rfl | rfl | rfl : k = 0 ∨ k = 1 ∨ k = 2 ∨ k = 3 := by omega
  all_goals
    obtain rfl := Option.some.inj hb
    exact ⟨⟨rfl, rfl, rfl, rfl⟩, by decide⟩

theorem caseFlipped_compiled {p : CasePattern} (hstart : p.startOpno = 0) (hend : p.endOpno = 20) :
    CompiledSimple caseFlipped .state p where
  forward := forward_of_all rfl
  branches := fun k b hk hb => by
    rw [hstart, Nat.zero_add] at hk hb ⊢
    exact (caseFlipped_branches k (by omega) b hb).1
  testval := fun k v hk hv => by
    rw [hstart] at hv
    cases hv
  testvalKept := fun c' hv => by
    rw [hstart] at hv
    cases hv
  default := by
    rw [hend]
    rfl

theorem caseFlipped_own {p : CasePattern} (hstart : p.startOpno = 0) (hend : p.endOpno = 20) : p.OwnArguments caseFlipped := by
  intro k b hk hb argno hargno
  rw [hstart, Nat.zero_add] at hk hb ⊢
  rcases (caseFlipped_branches k (by omega) b hb).2 argno hargno with hleft | hunwritten
  · exact .inl hleft
  · exact .inr fun n _ _ hres => ne_of_unwritten hunwritten hres rfl

/-- All comparisons are of `int4`. -/
theorem caseFlipped_typed (p : CasePattern) (v : Datum) : p.Typed pgFns fnAddr caseFlipped flippedArgs v := by
  intro k b ty op _ _ haddr
  obtain ⟨rfl, -⟩ := pgFns_cmpFns.addr_inj _ _ _ _ haddr
  exact ⟨trivial, trivial⟩

/-- For 7 the steps of this CASE give 1, since 5 is less than 7, and the helper gives 2: it compares 7 with the zero that the detector takes
for the constant of the first branch. -/
theorem flipped_case_wrong : ∃ p ∈ simplePatterns signedFloats wordTexts pgFns caseFlipped flippedArgs,
    ForwardJumps caseFlipped ∧ CompiledSimple caseFlipped .state p ∧ p.OwnArguments caseFlipped ∧
    (opAt caseFlipped p.startOpno).bind (EvalOp.loaded (rowOf 7) flippedArgs) = some ⟨7, false⟩ ∧
    p.linearResult (rowOf 7) caseFlipped .state flippedArgs = some ⟨1, false⟩ ∧ p.helperResult signedFloats wordTexts 7 = 2 := by
  obtain ⟨p, hp, hstart, hend, helse⟩ := one_pattern caseFlipped_patterns
  have hcompiled := caseFlipped_compiled hstart hend
  refine ⟨p, hp, hcompiled.forward, hcompiled, caseFlipped_own hstart hend, by rw [hstart]; rfl, ?_, ?_⟩
  · rw [CasePattern.linearResult, hstart, helse]
    rfl
  · rw [helper_eq_folded pgFns_cmpFns hcompiled.forward hp (caseFlipped_typed p 7), CasePattern.foldedResult, CasePattern.firstResult,
      CasePattern.branches, hstart, hend]
    rfl

/-- For 3 both give 2. -/
theorem flipped_case_three : ∃ p ∈ simplePatterns signedFloats wordTexts pgFns caseFlipped flippedArgs,
    p.linearResult (rowOf 3) caseFlipped .state flippedArgs = some ⟨p.helperResult signedFloats wordTexts 3, false⟩ := by
  obtain ⟨p, hp, hstart, hend, -⟩ := one_pattern caseFlipped_patterns
  refine ⟨p, hp, (simple_pattern_iff signedFloats wordTexts wordKey pgFns fnAddr (rowOf 3) caseFlipped flippedArgs .state pgFns_cmpFns
    (rowOf_calls 3) hp (caseFlipped_compiled hstart hend) (caseFlipped_own hstart hend) (by rw [hstart]; rfl)
    (caseFlipped_typed p 3)).1.2 ?_⟩
  rw [CasePattern.ownResult, CasePattern.foldedResult, CasePattern.firstResult, CasePattern.firstResult, CasePattern.branches, hstart, hend]
  rfl

theorem caseIn_whens : ∀ k < 4, ∃ w, rangeWhenAt caseIn (9 * k) = some w ∧ CompiledWhen caseIn .state (9 * k) w ∧
    IsRange pgFns caseIn constArgs .state 37 (9 * k) w := by
  intro k hk
  obtain rfl | rfl | rfl | rfl : k = 0 ∨ k = 1 ∨ k = 2 ∨ k = 3 := by omega
  all_goals
    refine ⟨_, rfl, ⟨rfl, rfl, ?_⟩, ⟨⟨_, rfl, rfl⟩, rfl, rfl, by decide, rfl, by decide, ?_, ⟨_, rfl⟩, rfl, rfl⟩⟩
    · rintro k (rfl | rfl | rfl | rfl | rfl) <;> rfl
    · intro lo hi hlo hhi
      obtain rfl := Option.some.inj hlo
      obtain rfl := Option.some.inj hhi
      decide

theorem caseIn_compiled {p : CasePattern} (hstart : p.startOpno = 0) (hend : p.endOpno = 36) : CompiledRange caseIn .state p where
  forward := forward_of_all rfl
  whens := fun k w hk hw => by
    rw [hstart, Nat.zero_add] at hk hw ⊢
    obtain ⟨w', hw', hcompiled, -⟩ := caseIn_whens k (by omega)
    obtain rfl := Option.some.inj (hw'.symm.trans hw)
    exact hcompiled

theorem caseIn_ranges {p : CasePattern} (hstart : p.startOpno = 0) (hend : p.endOpno = 36) (helse : p.elseEndOpno = 37) :
    p.IsRanges pgFns caseIn constArgs .state where
  whens := fun k hk => by
    rw [hstart, Nat.zero_add] at hk ⊢
    rw [helse]
    obtain ⟨w, hw, -, hrange⟩ := caseIn_whens k (by omega)
    exact ⟨w, hw, hrange⟩
  default := by
    rw [hend]
    rfl
  ends := .inl (by rw [hend, helse])

/-- For every value the search of the ranges gives what the steps of the CASE give. -/
theorem case_in_agrees : ∃ p ∈ rangePatterns signedFloats wordTexts pgFns caseIn constArgs,
    p.Agrees signedFloats wordTexts (rowOf 25) caseIn constArgs .state (p.TypedRange pgFns fnAddr caseIn constArgs) := by
  obtain ⟨p, hp, hstart, hend, helse⟩ := one_pattern caseIn_patterns
  exact ⟨p, hp, range_pattern_agrees signedFloats wordTexts wordKey pgFns fnAddr (rowOf 25) caseIn constArgs .state pgFns_cmpFns
    (rowOf_calls 25) hp (caseIn_compiled hstart hend) (caseIn_ranges hstart hend helse)⟩

/-- The comparisons of `x >= lo AND x <= hi`. -/
def boundsIn (lo hi : Nat) : RangeWhen CaseCmp := ⟨.var .scan 0, .ge, 1000 + lo, .var .scan 0, .le, 2000 + hi⟩

/-- The CASE of the ranges from 0 to 9, from 10 to 4, from 5 to 19 and from 20 to 29: the second one ends before it begins. -/
def caseInverted : List (ExprEvalStep CaseCmp) :=
  whenIn 37 0 0 9 1 ++ whenIn 37 9 10 4 2 ++ whenIn 37 18 5 19 3 ++ whenIn 37 27 20 29 4 ++
    [⟨.const ⟨5, false⟩, .state⟩, ⟨.done, .state⟩]

theorem caseInverted_patterns : (rangePatterns signedFloats wordTexts pgFns caseInverted constArgs).map
    (fun p => (p.startOpno, p.endOpno, p.elseEndOpno, p.helperResult signedFloats wordTexts 7)) = [(0, 36, 37, 3)] := by
  decide +kernel

theorem caseInverted_whens : whensFrom caseInverted 36 caseInverted.length 0 =
    [(0, boundsIn 0 9), (9, boundsIn 10 4), (18, boundsIn 5 19), (27, boundsIn 20 29)] := rfl

theorem caseInverted_compiled : ∀ x ∈ whensFrom caseInverted 36 caseInverted.length 0,
    CompiledWhen caseInverted .state x.1 x.2 ∧ ComparesBounds caseInverted x.1 x.2 := by
  rw [caseInverted_whens]
  refine List.forall_mem_cons.2 ⟨?_, List.forall_mem_cons.2 ⟨?_, List.forall_mem_cons.2 ⟨?_, List.forall_mem_singleton.2 ?_⟩⟩⟩
  all_goals
    refine ⟨⟨rfl, rfl, ?_⟩, rfl, by decide, rfl, by decide⟩
    rintro k (rfl | rfl | rfl | rfl | rfl) <;> rfl

/-- For 7 the steps of this CASE give 1, since 7 lies between 0 and 9, and the helper gives 3: of its thresholds 10, 5, 20 and 30 it looks
at 20 and at 5 only. -/
theorem inverted_case_wrong : ∃ p ∈ rangePatterns signedFloats wordTexts pgFns caseInverted constArgs,
    ForwardJumps caseInverted ∧ (∀ x ∈ p.whens caseInverted, CompiledWhen caseInverted .state x.1 x.2) ∧ p.OwnBounds caseInverted ∧
    (opAt caseInverted p.startOpno).bind (EvalOp.loaded (rowOf 7) constArgs) = some ⟨7, false⟩ ∧
    p.linearResult (rowOf 7) caseInverted .state constArgs = some ⟨1, false⟩ ∧ p.helperResult signedFloats wordTexts 7 = 3 := by
  have hmem : (0, 36, 37, 3) ∈ (rangePatterns signedFloats wordTexts pgFns caseInverted constArgs).map
      (fun p => (p.startOpno, p.endOpno, p.elseEndOpno, p.helperResult signedFloats wordTexts 7)) := by
    rw [caseInverted_patterns]
    exact List.mem_singleton_self _
  obtain ⟨p, hp, heq⟩ := List.mem_map.1 hmem
  obtain ⟨hstart, hend, helse, hhelper⟩ : p.startOpno = 0 ∧ p.endOpno = 36 ∧ p.elseEndOpno = 37 ∧
      p.helperResult signedFloats wordTexts 7 = 3 := by
    simp only [Prod.mk.injEq] at heq
    exact heq
  have hall := caseInverted_compiled
  rw [show whensFrom caseInverted 36 caseInverted.length 0 = p.whens caseInverted by rw [CasePattern.whens, hstart, hend]] at hall
  have hown : p.OwnBounds caseInverted := CaseEnterAux.ownBounds_of_sides fun x hx => (hall x hx).2
  refine ⟨p, hp, forward_of_all rfl, fun x hx => (hall x hx).1, hown, by rw [hstart]; rfl, ?_, hhelper⟩
  rw [CasePattern.linearResult, hstart, helse]
  rfl

/-- The CASE of the ranges from 0 to 9, 19, 29 and 39, whose first THEN is `GREATEST(1, y)`. -/
def caseGreatest : List (ExprEvalStep CaseCmp) :=
  (whenIn 39 0 0 9 1).take 6 ++ [⟨.jumpIfNotTrue 11, .state⟩, ⟨.const ⟨1, false⟩, .other 0⟩, ⟨.var .scan 1, .other 1⟩,
    ⟨.other 0 [], .state⟩, ⟨.jump 39, .state⟩] ++ whenIn 39 11 10 19 2 ++ whenIn 39 20 20 29 3 ++ whenIn 39 29 30 39 4 ++
    [⟨.const ⟨5, false⟩, .state⟩, ⟨.done, .state⟩]

/-- A row whose columns are two numbers; the opcode is that of `GREATEST`. -/
def rowXY (x y : Nat) : ExprEnv CaseCmp where
  slot _ attnum := ⟨BitVec.ofNat 64 (if attnum = 0 then x else y), false⟩
  caseValue := ⟨0, true⟩
  call := (rowOf x).call
  other _ cells := (if (cells (.other 0)).value.toInt < (cells (.other 1)).value.toInt then cells (.other 1) else cells (.other 0), 0)

theorem caseGreatest_patterns : (rangePatterns signedFloats wordTexts pgFns caseGreatest constArgs).map
    (fun p => (p.startOpno, p.endOpno, p.elseEndOpno)) = [(0, 38, 39)] := rfl

theorem caseGreatest_whens : whensFrom caseGreatest 38 caseGreatest.length 0 =
    [(0, boundsIn 0 9), (11, boundsIn 10 19), (20, boundsIn 20 29), (29, boundsIn 30 39)] := rfl

/-- Each WHEN leads behind its THEN. -/
theorem caseGreatest_then {i : Nat} (hi : i = 0 ∨ i = 11 ∨ i = 20 ∨ i = 29) : ∃ last, i + 7 ≤ last ∧
    opAt caseGreatest (i + 6) = some (.jumpIfNotTrue (last + 1)) ∧ opAt caseGreatest last = some (.jump 39) ∧
    ∀ n, i + 7 ≤ n → n < last → opAt caseGreatest n ≠ some (.jump 39) := by
  have hother : ∀ n, n = 7 ∨ n = 8 ∨ n = 9 ∨ n = 18 ∨ n = 27 ∨ n = 36 → opAt caseGreatest n ≠ some (.jump 39) := by
    rintro n (rfl | rfl | rfl | rfl | rfl | rfl) <;> decide
  obtain rfl | rfl | rfl | rfl := hi
  · exact ⟨10, by decide, rfl, rfl, fun n hn hlt => hother n (by omega)⟩
  · exact ⟨19, by decide, rfl, rfl, fun n hn hlt => hother n (by omega)⟩
  · exact ⟨28, by decide, rfl, rfl, fun n hn hlt => hother n (by omega)⟩
  · exact ⟨37, by decide, rfl, rfl, fun n hn hlt => hother n (by omega)⟩

theorem caseGreatest_isWhen : ∀ x ∈ whensFrom caseGreatest 38 caseGreatest.length 0, CompiledWhen caseGreatest .state x.1 x.2 ∧
    IsWhen pgFns caseGreatest constArgs 39 x.1 x.2 ∧ ComparesBounds caseGreatest x.1 x.2 := by
  rw [caseGreatest_whens]
  refine List.forall_mem_cons.2 ⟨?_, List.forall_mem_cons.2 ⟨?_, List.forall_mem_cons.2 ⟨?_, List.forall_mem_singleton.2 ?_⟩⟩⟩
  all_goals
    refine ⟨⟨rfl, rfl, ?_⟩, ⟨⟨_, rfl, rfl⟩, ?_, caseGreatest_then (by decide)⟩, rfl, by decide, rfl, by decide⟩
    · rintro k (rfl | rfl | rfl | rfl | rfl) <;> rfl
    · intro lo hi hlo hhi
      obtain rfl := Option.some.inj hlo
      obtain rfl := Option.some.inj hhi
      decide

/-- For 7 the helper gives 1, the constant with which the first THEN begins, which is what the steps give when `y` is 1 and not when it
is 3. -/
theorem greatest_case_one_three : ∃ p ∈ rangePatterns signedFloats wordTexts pgFns caseGreatest constArgs,
    p.linearResult (rowXY 7 1) caseGreatest .state constArgs = some ⟨p.helperResult signedFloats wordTexts 7, false⟩ ∧
    p.linearResult (rowXY 7 3) caseGreatest .state constArgs ≠ some ⟨p.helperResult signedFloats wordTexts 7, false⟩ := by
  obtain ⟨p, hp, hstart, hend, (helse : p.elseEndOpno = 39)⟩ := one_pattern caseGreatest_patterns
  have hwhens : p.whens caseGreatest = whensFrom caseGreatest 38 caseGreatest.length 0 := by rw [CasePattern.whens, hstart, hend]
  have hfolded : p.foldedEntry wordTexts pgFns caseGreatest constArgs 7 = 7 := by
    rw [CasePattern.foldedEntry, CasePattern.firstEntry, hwhens, caseGreatest_whens]
    rfl
  have hall := caseGreatest_isWhen
  rw [← hwhens, ← helse] at hall
  have hown : p.OwnBounds caseGreatest := CaseEnterAux.ownBounds_of_sides fun x hx => (hall x hx).2.2
  have hiff := fun y => range_pattern_iff signedFloats wordTexts wordKey pgFns fnAddr (rowXY 7 y) caseGreatest constArgs .state
    pgFns_cmpFns (rowOf_calls 7) hp (forward_of_all rfl) (fun x hx => (hall x hx).1) hown (fun x hx => (hall x hx).2.1)
    (s := constArgs) (v := 7) (by rw [hstart]; rfl) fun x _ ty op => by
      refine ⟨fun haddr => ?_, fun haddr => ?_⟩
      · obtain ⟨rfl, -⟩ := pgFns_cmpFns.addr_inj _ _ _ _ haddr
        exact ⟨trivial, trivial⟩
      · obtain ⟨rfl, -⟩ := pgFns_cmpFns.addr_inj _ _ _ _ haddr
        exact ⟨trivial, trivial⟩
  have howned : ∀ y, p.ownEntry (rowXY 7 y) caseGreatest constArgs ⟨7, false⟩ = 7 := fun y =>
    ((hiff y).2 (fun x hx => (hall x hx).2.2) fun _ _ _ => rfl).trans hfolded
  refine ⟨p, hp, ?_, ?_⟩
  · obtain ⟨⟨s', -, h⟩, -⟩ := hiff 1
    rw [hfolded, howned, helse] at h
    exact h.2 ⟨_, rfl, rfl⟩
  · obtain ⟨⟨s', -, h⟩, -⟩ := hiff 3
    rw [hfolded, howned, helse] at h
    refine fun heq => ?_
    obtain ⟨k, hk, hresult⟩ := h.1 heq
    obtain rfl := EvalOp.const.inj (Option.some.inj hk)
    cases hresult

end CaseEvalWitness

end PgJitter
