import PgJitter.CaseEval
import PgJitter.Lemmas.CaseBsearch
import PgJitter.Lemmas.CaseDetect

/-!
# Helpers for `CaseEval.lean`: the run of the steps, and what it adds up to

A run is followed backwards from its end: a location holds a value at the end of it from a step on when it does from the next step on.
The result of a CASE is determined by its branches.
-/

namespace PgJitter
namespace CaseEvalAux

variable {G : Type} {env : ExprEnv G} {steps : List (ExprEvalStep G)} {stop : Nat} {c : Cell}

/-! ## Runs -/

/-- From the step `pc` on, the run comes to `stop`, with `r` in the location. -/
def Reaches (env : ExprEnv G) (steps : List (ExprEvalStep G)) (stop : Nat) (c : Cell) (pc : Nat) (s : EvalState) (r : NullableDatum) :
    Prop :=
  ∀ fuel, steps.length ≤ pc + fuel → (execUntil env steps stop fuel pc s).map (fun s' => s'.cells c) = some r

/-- The run is at its end. -/
theorem reaches_stop {s : EvalState} {r : NullableDatum} (h : s.cells c = r) : Reaches env steps stop c stop s r := by
  intro fuel _
  cases fuel with
  | zero => rw [execUntil, if_pos rfl, Option.map_some, h]
  | succ fuel => rw [execUntil, if_pos rfl, Option.map_some, h]

/-- The step that stands at a position. -/
theorem stepAt {pc : Nat} {op : EvalOp G} {c' : Cell} (hop : opAt steps pc = some op) (hres : resAt steps pc = some c') :
    steps[pc]? = some ⟨op, c'⟩ := by
  obtain ⟨step, hstep, rfl⟩ := Option.map_eq_some_iff.1 hop
  obtain ⟨step', hstep', rfl⟩ := Option.map_eq_some_iff.1 hres
  obtain rfl := Option.some.inj (hstep.symm.trans hstep')
  exact hstep

/-- A position with an operation has a location. -/
theorem exists_resAt {pc : Nat} {op : EvalOp G} (hop : opAt steps pc = some op) : ∃ c', resAt steps pc = some c' := by
  obtain ⟨step, hstep, rfl⟩ := Option.map_eq_some_iff.1 hop
  exact ⟨step.resvalue, by rw [resAt, hstep, Option.map_some]⟩

/-- One step of a run, forward. -/
theorem Reaches.step {pc pc' : Nat} {s s' : EvalState} {r : NullableDatum} {op : EvalOp G} {c' : Cell}
    (hop : opAt steps pc = some op) (hres : resAt steps pc = some c') (hexec : execStep env ⟨op, c'⟩ pc s = some (pc', s'))
    (hstop : pc ≠ stop) (hlt : pc < pc') (h : Reaches env steps stop c pc' s' r) : Reaches env steps stop c pc s r := by
  intro fuel hfuel
  have hstep := stepAt hop hres
  obtain ⟨hpc, -⟩ := List.getElem?_eq_some_iff.1 hstep
  cases fuel with
  | zero => omega
  | succ fuel =>
    rw [execUntil, if_neg hstop, hstep]
    dsimp only
    rw [hexec]
    exact h fuel (by omega)

/-- A jump. -/
theorem Reaches.jump {pc t : Nat} {s : EvalState} {r : NullableDatum} (hop : opAt steps pc = some (.jump t)) (hstop : pc ≠ stop)
    (hlt : pc < t) (h : Reaches env steps stop c t s r) : Reaches env steps stop c pc s r := by
  obtain ⟨c', hres⟩ := exists_resAt hop
  exact h.step hop hres rfl hstop hlt

/-- A constant. -/
theorem Reaches.const {pc : Nat} {s : EvalState} {r d : NullableDatum} {c' : Cell} (hop : opAt steps pc = some (.const d))
    (hres : resAt steps pc = some c') (hstop : pc ≠ stop) (h : Reaches env steps stop c (pc + 1) (s.store c' d) r) :
    Reaches env steps stop c pc s r :=
  h.step hop hres rfl hstop (Nat.lt_succ_self pc)

/-- What the interpreter does at a load. -/
theorem execStep_load {pc : Nat} {s : EvalState} {d : NullableDatum} {op : EvalOp G} {c' : Cell} (hload : op.loaded env s = some d) :
    execStep env ⟨op, c'⟩ pc s = some (pc + 1, s.store c' d) := by
  cases op with
  | var src attnum =>
    obtain rfl := Option.some.inj hload
    rfl
  | caseTestval value =>
    cases value with
    | none =>
      obtain rfl := Option.some.inj hload
      rfl
    | some v =>
      obtain rfl := Option.some.inj hload
      rfl
  | _ => cases hload

/-- A load. -/
theorem Reaches.load {pc : Nat} {s : EvalState} {r d : NullableDatum} {op : EvalOp G} {c' : Cell} (hop : opAt steps pc = some op)
    (hres : resAt steps pc = some c') (hload : op.loaded env s = some d) (hstop : pc ≠ stop)
    (h : Reaches env steps stop c (pc + 1) (s.store c' d) r) : Reaches env steps stop c pc s r :=
  h.step hop hres (execStep_load hload) hstop (Nat.lt_succ_self pc)

/-- A value is true: it is not null, and not zero. -/
def givesTrue (d : NullableDatum) : Bool := !d.isnull && datumGetBool d.value

/-- What the interpreter does at a call of two arguments: a strict function is not called on a null. -/
theorem execStep_call (env : ExprEnv G) (fn : G) (fcinfo : Nat) (c' : Cell) (pc : Nat) (s : EvalState) :
    ∃ r, execStep env ⟨.funcExprStrict fn fcinfo 2, c'⟩ pc s = some (pc + 1, s.store c' r) ∧
      givesTrue r = callsTrue env fn (s.args fcinfo 2) := by
  by_cases hany : (s.args fcinfo 2).any (·.isnull) = true
  · refine ⟨⟨(s.cells c').value, true⟩, ?_, ?_⟩
    · rw [execStep]
      simp only [execFunc, hany, Bool.and_self, if_true]
    · rw [callsTrue, hany]
      rfl
  · rw [Bool.not_eq_true] at hany
    refine ⟨env.call fn (s.args fcinfo 2), ?_, ?_⟩
    · rw [execStep]
      simp only [execFunc, hany, Bool.and_false, if_false, Bool.false_eq_true]
    · rw [callsTrue, hany, Bool.not_false, Bool.true_and, givesTrue]

/-- What it does at a conditional jump. -/
theorem execStep_jumpIfNotTrue (env : ExprEnv G) (t : Nat) (c' : Cell) (pc : Nat) (s : EvalState) :
    execStep env ⟨.jumpIfNotTrue t, c'⟩ pc s = some (if givesTrue (s.cells c') then pc + 1 else t, s) := by
  rw [execStep]
  cases hnull : (s.cells c').isnull <;> cases hval : datumGetBool (s.cells c').value <;> simp [givesTrue, hnull, hval]

/-- A call of two arguments and the conditional jump on what it gives. -/
theorem Reaches.test {pc t : Nat} {s : EvalState} {r : NullableDatum} {fn : G} {fcinfo : Nat} {c' : Cell}
    (hop : opAt steps pc = some (.funcExprStrict fn fcinfo 2)) (hres : resAt steps pc = some c')
    (hjump : opAt steps (pc + 1) = some (.jumpIfNotTrue t)) (hjumpRes : resAt steps (pc + 1) = some c') (hstop : pc + 1 < stop)
    (hlt : pc + 1 < t)
    (h : ∀ d, Reaches env steps stop c (if callsTrue env fn (s.args fcinfo 2) then pc + 2 else t) (s.store c' d) r) :
    Reaches env steps stop c pc s r := by
  obtain ⟨d, hcall, htrue⟩ := execStep_call env fn fcinfo c' pc s
  refine Reaches.step hop hres hcall (by omega) (Nat.lt_succ_self pc) ?_
  refine Reaches.step hjump hjumpRes (execStep_jumpIfNotTrue env t c' (pc + 1) _) (by omega) (by split <;> omega) ?_
  rw [EvalState.cells_store, Function.update_self, htrue]
  exact h d

/-- A constant before the end, or before a jump to it. -/
theorem reaches_const (hforward : ForwardJumps steps) {j : Nat} {r : NullableDatum} (hop : opAt steps j = some (.const r))
    (hres : resAt steps j = some c) (hend : j + 1 = stop ∨ opAt steps (j + 1) = some (.jump stop)) (s : EvalState) :
    Reaches env steps stop c j s r := by
  rcases hend with rfl | hjump
  · exact Reaches.const hop hres (by omega) (reaches_stop (Function.update_self ..))
  · have hlt := CaseDetectAux.jump_lt hforward hjump
    exact Reaches.const hop hres (by omega) (Reaches.jump hjump (by omega) hlt (reaches_stop (Function.update_self ..)))

/-! ## What a run keeps -/

/-- Two loads of one variable. -/
theorem eq_of_sameVar {a b : EvalOp G} (h : sameVar a b = true) : b = a := by
  cases a <;> cases b <;> simp_all [sameVar]

/-- What a load of a variable loads does not change. -/
theorem loaded_of_isVar {op : EvalOp G} (h : op.isVar = true) (s s' : EvalState) : op.loaded env s = op.loaded env s' := by
  cases op <;> first | rfl | cases h

/-- A location that a step writes is not one that no step writes. -/
theorem ne_of_unwritten {x : Cell} (hx : Unwritten steps x) {pc : Nat} {c' : Cell} (hres : resAt steps pc = some c') : x ≠ c' := by
  obtain ⟨step, hstep, rfl⟩ := Option.map_eq_some_iff.1 hres
  exact (hx step (List.mem_of_getElem? hstep)).symm

/-- The locations that no step from `lo` to `stop` writes are as they were. -/
def Kept (steps : List (ExprEvalStep G)) (lo stop : Nat) (s₀ s : EvalState) : Prop :=
  ∀ x, (∀ n, lo ≤ n → n < stop → resAt steps n ≠ some x) → s.cells x = s₀.cells x

/-- A store by one of these steps keeps them. -/
theorem Kept.store {lo : Nat} {s₀ s : EvalState} (h : Kept steps lo stop s₀ s) {n : Nat} {x : Cell} (hres : resAt steps n = some x)
    (hle : lo ≤ n) (hlt : n < stop) (k : NullableDatum) : Kept steps lo stop s₀ (s.store x k) := by
  intro y hy
  have hne : y ≠ x := by
    rintro rfl
    exact hy n hle hlt hres
  rw [EvalState.cells_store, Function.update_of_ne hne]
  exact h y hy

/-! ## The arguments of a comparison -/

/-- What a comparison compares does not depend on the steps before its load. -/
theorem args_of_own {lo fcinfo j : Nat} {s₀ s : EvalState} {d : NullableDatum} (h : OwnArgs steps lo stop fcinfo j)
    (hs : Kept steps lo stop s₀ s) {x : Cell} (hres : resAt steps j = some x) :
    (s.store x d).args fcinfo 2 = loadedArgs steps fcinfo j s₀ d := by
  have harg : ∀ argno < 2, (s.store x d).cells (.arg fcinfo argno) = (s₀.store x d).cells (.arg fcinfo argno) := by
    intro argno hargno
    rw [EvalState.cells_store, EvalState.cells_store]
    by_cases hx : .arg fcinfo argno = x
    · subst hx
      rw [Function.update_self, Function.update_self]
    · rw [Function.update_of_ne hx, Function.update_of_ne hx]
      rcases h argno hargno with hleft | hkept
      · exact absurd (Option.some.inj (hleft.symm.trans hres)) hx
      · exact hs _ hkept
  rw [loadedArgs, hres]
  exact congrArg₂ (fun a b => [a, b]) (harg 0 (by decide)) (harg 1 (by decide))

/-- With the variable on the left and a constant on the right they are what is loaded and the constant. -/
theorem loadedArgs_eq {m s : EvalState} (hsame : SameConstants steps m s) {fcinfo j : Nat} (hleft : resAt steps j = some (.arg fcinfo 0))
    (hright : Unwritten steps (.arg fcinfo 1)) (d : NullableDatum) : loadedArgs steps fcinfo j s d = [d, m.threshold fcinfo] := by
  have hfirst : (s.store (.arg fcinfo 0) d).cells (.arg fcinfo 0) = d := Function.update_self ..
  have hsecond : (s.store (.arg fcinfo 0) d).cells (.arg fcinfo 1) = m.threshold fcinfo := by
    have hne : Cell.arg fcinfo 1 ≠ .arg fcinfo 0 := ne_of_unwritten hright hleft
    rw [EvalState.cells_store, Function.update_of_ne hne]
    exact hsame _ _ hright
  rw [loadedArgs, hleft]
  exact congrArg₂ (fun a b => [a, b]) hfirst hsecond

/-- They are then its own. -/
theorem ownArgs_of_sides {lo fcinfo j : Nat} (hleft : resAt steps j = some (.arg fcinfo 0)) (hright : Unwritten steps (.arg fcinfo 1)) :
    OwnArgs steps lo stop fcinfo j := by
  intro argno hargno
  obtain rfl | rfl : argno = 0 ∨ argno = 1 := by omega
  · exact .inl hleft
  · exact .inr fun n _ _ hres => ne_of_unwritten hright hres rfl

/-! ## The result of a CASE -/

section Results

variable {w : Nat} {holds : BitVec w → Prop} {default : Datum}

/-- The first branch decides, or else the others do. -/
theorem caseResult_cons {b : BitVec w × Datum} {l : List (BitVec w × Datum)} {r : Datum} :
    CaseResult holds (b :: l) default r ↔ (holds b.1 ∧ r = b.2) ∨ (¬ holds b.1 ∧ CaseResult holds l default r) := by
  constructor
  · rintro (⟨pre, t, rest, hsplit, ht, hpre⟩ | ⟨hnone, rfl⟩)
    · cases pre with
      | nil =>
        obtain ⟨rfl, -⟩ := List.cons.inj hsplit
        exact .inl ⟨ht, rfl⟩
      | cons a pre =>
        obtain ⟨rfl, rfl⟩ := List.cons.inj hsplit
        exact .inr ⟨hpre b List.mem_cons_self, .inl ⟨pre, t, rest, rfl, ht, fun x hx => hpre x (List.mem_cons_of_mem b hx)⟩⟩
    · exact .inr ⟨hnone b List.mem_cons_self, .inr ⟨fun x hx => hnone x (List.mem_cons_of_mem b hx), rfl⟩⟩
  · rintro (⟨hb, rfl⟩ | ⟨hb, ⟨pre, t, rest, rfl, ht, hpre⟩ | ⟨hnone, rfl⟩⟩)
    · exact .inl ⟨[], b.1, l, rfl, hb, fun x hx => absurd hx List.not_mem_nil⟩
    · refine .inl ⟨b :: pre, t, rest, rfl, ht, fun x hx => ?_⟩
      rcases List.mem_cons.1 hx with rfl | hx
      · exact hb
      · exact hpre x hx
    · refine .inr ⟨fun x hx => ?_, rfl⟩
      rcases List.mem_cons.1 hx with rfl | hx
      · exact hb
      · exact hnone x hx

/-- Without branches, the default. -/
theorem caseResult_nil {r : Datum} : CaseResult holds [] default r ↔ r = default := by
  constructor
  · rintro (⟨pre, t, rest, hsplit, -⟩ | ⟨-, rfl⟩)
    · exact absurd hsplit.symm (by simp)
    · rfl
  · rintro rfl
    exact .inr ⟨fun x hx => absurd hx List.not_mem_nil, rfl⟩

/-- The result is that of the first branch that is found. -/
theorem caseResult_find {β : Type} {t : β → BitVec w} {res : β → Datum} {found : β → Bool} {bs : List β} {r : Datum}
    (hfound : ∀ b ∈ bs, found b = true ↔ holds (t b)) (h : CaseResult holds (bs.map fun b => (t b, res b)) default r) :
    r = ((bs.find? found).map res).getD default := by
  induction bs with
  | nil => exact caseResult_nil.1 h
  | cons b bs ih =>
    have hb := hfound b List.mem_cons_self
    rcases caseResult_cons.1 h with ⟨hhere, rfl⟩ | ⟨hnot, hrest⟩
    · rw [List.find?_cons_of_pos (hb.2 hhere)]
      rfl
    · rw [List.find?_cons_of_neg fun htrue => hnot (hb.1 htrue)]
      exact ih (fun b' hb' => hfound b' (List.mem_cons_of_mem b hb')) hrest

end Results

/-! ## Descriptors -/

section Descriptors

variable {w : Nat}

/-- The branches of a descriptor that is built of branches. -/
theorem branches_ofBranches (cmpFn : CaseCmpFn) (orderFn : Option CaseCmpFn) (collation : Nat) (default : Datum) (low : Option Datum)
    (pairs : List (BitVec w × Datum)) :
    (CaseBSearchDesc.ofBranches cmpFn orderFn collation default low pairs).branches = pairs := by
  refine List.ext_getElem? fun k => ?_
  have hn : (CaseBSearchDesc.ofBranches cmpFn orderFn collation default low pairs).n = pairs.length := rfl
  rw [CaseBSearchDesc.branches, List.getElem?_map, hn]
  rcases Nat.lt_or_ge k pairs.length with hk | hk
  · rw [List.getElem?_range hk, List.getElem?_eq_getElem hk]
    simp [CaseBSearchDesc.ofBranches, List.getElem?_eq_getElem hk]
  · rw [List.getElem?_eq_none hk, List.getElem?_eq_none (by simpa using hk)]
    rfl

/-- The thresholds of such a descriptor, two by two. -/
theorem thresholds_ofBranches {cmpFn : CaseCmpFn} {orderFn : Option CaseCmpFn} {collation : Nat} {default : Datum} {low : Option Datum}
    {pairs : List (BitVec w × Datum)} {R : BitVec w → BitVec w → Prop} (h : pairs.Pairwise fun a b => R a.1 b.1) {i j : Nat}
    (hij : i < j) (hj : j < (CaseBSearchDesc.ofBranches cmpFn orderFn collation default low pairs).n) :
    R ((CaseBSearchDesc.ofBranches cmpFn orderFn collation default low pairs).thresholds i)
      ((CaseBSearchDesc.ofBranches cmpFn orderFn collation default low pairs).thresholds j) := by
  have hj : j < pairs.length := hj
  have hget : ∀ k (hk : k < pairs.length),
      (CaseBSearchDesc.ofBranches cmpFn orderFn collation default low pairs).thresholds k = pairs[k].1 := fun k hk => by
    simp [CaseBSearchDesc.ofBranches, List.getElem?_eq_getElem hk]
  rw [hget i (by omega), hget j hj]
  exact List.pairwise_iff_getElem.1 h i j (by omega) hj hij

end Descriptors

/-! ## Comparison functions -/

section Functions

variable {α β : Type} [LinearOrder α] [LinearOrder β] {F : FloatFormats α β} {T : PgText} {K : Type} [LinearOrder K]
  {key : CmpType → Nat → Datum → K} {fns : CaseFuncs G} {addr : CmpType → CaseCmp → Nat}

/-- A function that is classified is one of the table, at its address. -/
theorem classify_some (h : CmpFns F T key fns addr) {a : Nat} {ty : CaseBSearchType} {op : CaseCmp}
    (hclass : fns.classify a = some (ty, op)) : ∃ cty, a = addr cty op ∧ cty.bsType = ty := by
  rw [h.classify] at hclass
  obtain ⟨e, hfind, heq⟩ := Option.map_eq_some_iff.1 hclass
  obtain ⟨rfl, rfl⟩ := Prod.mk.inj heq
  have haddr := List.find?_some hfind
  exact ⟨e.1, (beq_iff_eq.1 haddr).symm, rfl⟩

/-- A call of a comparison function on a value and a constant that are not null. -/
theorem callsTrue_cmp {env : ExprEnv G} {m : EvalState} (hcalls : CallsCmpFns T fns addr env) {fn : G} {fcinfo : Nat} {ty : CmpType}
    {op : CaseCmp} (haddr : fns.addr fn = addr ty op) (hnull : (m.threshold fcinfo).isnull = false) (v : Datum) :
    callsTrue env fn [⟨v, false⟩, m.threshold fcinfo] =
      datumGetBool ((fns.fn (fns.addr fn)).call T (fns.collation fn) v (m.threshold fcinfo).value) := by
  have hthreshold : m.threshold fcinfo = ⟨(m.threshold fcinfo).value, false⟩ := by rw [← hnull]
  rw [hthreshold, callsTrue, hcalls _ _ _ _ _ haddr, haddr]
  rfl

/-- The `<` of a type that is passed by reference is found. -/
theorem genericLt_addr (h : CmpFns F T key fns addr) {cty : CmpType} (hty : cty.bsType = .generic) :
    fns.genericLt (addr cty .eq) = some (addr cty .lt) := by
  have hmem : cty ∈ genericLtTypes := by cases cty <;> first | decide | cases hty
  rw [h.genericLt, findGenericLtFn]
  cases hfind : genericLtTypes.find? fun ty => addr ty .eq == addr cty .eq with
  | none =>
    have hnone := List.find?_eq_none.1 hfind cty hmem
    exact absurd (beq_self_eq_true _) hnone
  | some ty =>
    have haddr := List.find?_some hfind
    obtain ⟨h1, -⟩ := h.addr_inj _ _ _ _ (beq_iff_eq.1 haddr)
    rw [Option.map_some, h1]

/-- Booleans compare as the words that they are stored as. -/
theorem rel_bool (op : CaseCmp) {a b : Datum} (ha : CmpType.bool.IsValue a) (hb : CmpType.bool.IsValue b) :
    op.Rel (datumGetBool a).toNat (datumGetBool b).toNat ↔ op.Rel a.toInt b.toInt := by
  have hword : ∀ d, CmpType.bool.IsValue d → d.toInt = (datumGetBool d).toNat := by
    rintro d ⟨x, rfl⟩
    cases x <;> rfl
  rw [hword a ha, hword b hb]
  cases op with
  | eq => exact Int.ofNat_inj.symm
  | lt | gt => exact Int.ofNat_lt.symm
  | le | ge => exact Int.ofNat_le.symm

/-- The comparison of a type that is stored in 64 bits. -/
theorem compares_i64 {cty : CmpType} (hty : cty.bsType = .i64) {op : CaseCmp} {coll : Nat} {a b : Datum} (ha : cty.IsValue a)
    (hb : cty.IsValue b) : cty.Compares F key op coll a b ↔ op.Rel a.toInt b.toInt := by
  cases cty with
  | int8 | timestamp => exact Iff.rfl
  | bool => exact rel_bool op ha hb
  | _ => cases hty

/-- The comparison of a signed type that is stored in 32 bits. -/
theorem compares_i32 {cty : CmpType} (hty : cty.bsType = .i32) {op : CaseCmp} {coll : Nat} {a b : Datum} :
    cty.Compares F key op coll a b ↔ op.Rel (low32 a).toInt (low32 b).toInt := by
  cases cty with
  | int4 | date => exact Iff.rfl
  | _ => cases hty

/-- The comparison of the unsigned type that is stored in 32 bits. -/
theorem compares_u32 {cty : CmpType} (hty : cty.bsType = .u32) {op : CaseCmp} {coll : Nat} {a b : Datum} :
    cty.Compares F key op coll a b ↔ op.Rel (low32 a).toNat (low32 b).toNat := by
  cases cty with
  | oid => exact Iff.rfl
  | _ => cases hty

/-- The comparison of the type that is stored in 16 bits. -/
theorem compares_i16 {cty : CmpType} (hty : cty.bsType = .i16) {op : CaseCmp} {coll : Nat} {a b : Datum} :
    cty.Compares F key op coll a b ↔ op.Rel (castInt16 (low32 a)).toInt (castInt16 (low32 b)).toInt := by
  cases cty with
  | int2 =>
    have hcast : ∀ d : Datum, (castInt16 (low32 d)).toInt = (d.setWidth 16).toInt := fun d => by
      rw [CaseBsearchAux.toInt_castInt16, low32, BitVec.setWidth_setWidth_of_le]
      decide
    rw [hcast, hcast]
    exact Iff.rfl
  | _ => cases hty

/-- The comparison of `float4`. -/
theorem compares_f4 {cty : CmpType} (hty : cty.bsType = .f4) {op : CaseCmp} {coll : Nat} {a b : Datum} :
    cty.Compares F key op coll a b ↔ op.Rel (datumGetFloat4 F a).key (datumGetFloat4 F b).key := by
  cases cty with
  | float4 => exact Iff.rfl
  | _ => cases hty

/-- The comparison of `float8`. -/
theorem compares_f8 {cty : CmpType} (hty : cty.bsType = .f8) {op : CaseCmp} {coll : Nat} {a b : Datum} :
    cty.Compares F key op coll a b ↔ op.Rel (datumGetFloat8 F a).key (datumGetFloat8 F b).key := by
  cases cty with
  | float8 => exact Iff.rfl
  | _ => cases hty

/-- The comparison of a type that is passed by reference. -/
theorem compares_generic {cty : CmpType} (hty : cty.bsType = .generic) {op : CaseCmp} {coll : Nat} {a b : Datum} :
    cty.Compares F key op coll a b ↔ op.Rel (key cty coll a) (key cty coll b) := by
  cases cty with
  | text | numeric | uuid | interval | bpchar | bytea | jsonb | network | array => exact Iff.rfl
  | _ => cases hty

/-- The comparison of a type that is passed by value is the same under every collation. -/
theorem compares_collation {cty : CmpType} (hty : cty.bsType ≠ .generic) {op : CaseCmp} {a b : Datum} (coll coll' : Nat) :
    cty.Compares F key op coll a b ↔ cty.Compares F key op coll' a b := by
  cases cty with
  | int4 | date | int8 | timestamp | bool | int2 | oid | float4 | float8 => exact Iff.rfl
  | _ => exact absurd rfl hty

end Functions

end CaseEvalAux
end PgJitter
