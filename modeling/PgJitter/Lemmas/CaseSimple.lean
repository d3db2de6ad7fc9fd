import PgJitter.Lemmas.CaseEval

/-!
# Helpers for `Theorems/CaseEval.lean`: the patterns of the first pass

What the first pass has checked of a pattern that it reports, and the run of the branches of such a pattern.
-/

namespace PgJitter
namespace CaseSimpleAux

open LeftScan CaseDetectAux CaseEvalAux CaseBsearchAux

variable {G : Type} {steps : List (ExprEvalStep G)} {m : EvalState} {fns : CaseFuncs G}

/-! ## What is checked -/

/-- The checks of the branches of a pattern. -/
structure Branches (fns : CaseFuncs G) (steps : List (ExprEvalStep G)) (m : EvalState) (i : Nat) (first : SimpleBranch G)
    (bs : List (SimpleBranch G)) : Prop where
  at_ : ∀ k b, bs[k]? = some b → simpleBranchAt steps (i + 5 * k) = some b
  load : ∀ b ∈ bs, first.load.isVar = true → sameVar first.load b.load = true
  addr : ∀ b ∈ bs, fns.addr b.fn = fns.addr first.fn
  threshold : ∀ b ∈ bs, (m.threshold b.fcinfo).isnull = false
  result : ∀ b ∈ bs, b.result.isnull = false
  done : ∀ b ∈ bs, b.done = first.done

/-- One more branch. -/
theorem Branches.cons {i : Nat} {first b : SimpleBranch G} {bs : List (SimpleBranch G)} (h : Branches fns steps m (i + 5) first bs)
    (hat : simpleBranchAt steps i = some b) (hload : first.load.isVar = true → sameVar first.load b.load = true)
    (haddr : fns.addr b.fn = fns.addr first.fn) (hthreshold : (m.threshold b.fcinfo).isnull = false)
    (hresult : b.result.isnull = false) (hdone : b.done = first.done) : Branches fns steps m i first (b :: bs) where
  at_ := by
    intro k b' hb'
    cases k with
    | zero =>
      obtain rfl := Option.some.inj hb'
      exact hat
    | succ k =>
      rw [show i + 5 * (k + 1) = i + 5 + 5 * k by omega]
      exact h.at_ k b' hb'
  load := List.forall_mem_cons.2 ⟨hload, h.load⟩
  addr := List.forall_mem_cons.2 ⟨haddr, h.addr⟩
  threshold := List.forall_mem_cons.2 ⟨hthreshold, h.threshold⟩
  result := List.forall_mem_cons.2 ⟨hresult, h.result⟩
  done := List.forall_mem_cons.2 ⟨hdone, h.done⟩

/-- The branches after the first one. -/
theorem branches_moreBranches (first : SimpleBranch G) (fuel i : Nat) :
    Branches fns steps m i first (moreBranches fns steps m first fuel i) := by
  have hnil : ∀ i, Branches fns steps m i first [] := fun i =>
    ⟨fun k b hb => absurd hb (by simp), by simp, by simp, by simp, by simp, by simp⟩
  induction fuel generalizing i with
  | zero => exact hnil i
  | succ fuel ih =>
    rw [moreBranches]
    split
    · exact hnil i
    · rename_i b hb
      split
      · rename_i hlater
        simp only [simpleLater, Bool.and_eq_true, beq_iff_eq, Bool.not_eq_true'] at hlater
        obtain ⟨⟨⟨⟨⟨hload, haddr⟩, hthreshold⟩, hresult⟩, hdone⟩, -⟩ := hlater
        refine (ih (i + 5)).cons hb (fun hvar => ?_) haddr hthreshold hresult hdone
        rwa [if_pos hvar] at hload
      · exact hnil i

section Parts

variable {α β : Type} [LinearOrder α] [LinearOrder β] {F : FloatFormats α β} {T : PgText}

/-- What a pattern of the first pass is made of. -/
structure Parts (F : FloatFormats α β) (T : PgText) (fns : CaseFuncs G) (steps : List (ExprEvalStep G)) (m : EvalState) (i : Nat)
    (first : SimpleBranch G) (bs : List (SimpleBranch G)) (ty : CaseBSearchType) (op : CaseCmp) (default : Datum)
    (desc : CaseBSearchDesc ty.width) : Prop where
  branches : Branches fns steps m i first (first :: bs)
  next : ∀ k b, (first :: bs)[k]? = some b → b.next = i + 5 * (k + 1)
  load : first.load.isVar = true ∨ first.load.isCaseTestval = true
  classify : fns.classify (fns.addr first.fn) = some (ty, op)
  else_ : simpleElse steps (i + 5 * (first :: bs).length) first.done = some default
  monotone : op.isEquality = false → monotone F T (fns.fn (fns.addr first.fn)) (fns.collation first.fn) op.isLess ty
    ((first :: bs).map fun b => (m.threshold b.fcinfo).value) = true
  desc : simpleDesc F T fns m ty op first default (first :: bs) = some desc

/-- A pattern that the first pass reports. -/
theorem simple_parts (hforward : ForwardJumps steps) {p : CasePattern} (hp : p ∈ simplePatterns F T fns steps m) :
    ∃ i first bs ty op default desc, Parts F T fns steps m i first bs ty op default desc ∧
      p = ⟨i, i + 5 * (first :: bs).length, first.done, ⟨ty, op.isEquality, op.isLess, op.isInclusive⟩, desc⟩ := by
  have hlook := (mem_scan (simple_advances hforward _) hp).2.2
  unfold simpleLook at hlook
  split at hlook
  · exact nomatch hlook
  · rename_i first ty op hfirst
    obtain ⟨b, hat, hchecks⟩ := Option.bind_eq_some_iff.1 hfirst
    obtain ⟨⟨ty', op'⟩, hsimple, heq⟩ := Option.map_eq_some_iff.1 hchecks
    obtain ⟨rfl, rfl, rfl⟩ : b = first ∧ ty' = ty ∧ op' = op := by simpa using heq
    rw [simpleFirst] at hsimple
    split at hsimple
    · rename_i hcond
      simp only [Bool.and_eq_true, Bool.or_eq_true, Bool.not_eq_true', beq_iff_eq] at hcond
      obtain ⟨⟨⟨hload, hresult⟩, hthreshold⟩, -⟩ := hcond
      dsimp only at hlook
      split at hlook
      · exact nomatch hlook
      · rename_i hnext
        split at hlook
        · exact nomatch hlook
        · rename_i default hdefault
          split at hlook
          · exact nomatch hlook
          · split at hlook
            · exact nomatch hlook
            · rename_i hmonotone
              split at hlook
              · exact nomatch hlook
              · rename_i desc hdesc
                obtain ⟨hfound, -⟩ := Look.found.inj hlook
                have hself : b.load.isVar = true → sameVar b.load b.load = true := by
                  intro hvar
                  cases hop : b.load <;> rw [hop] at hvar <;> first | exact absurd hvar Bool.false_ne_true | simp [sameVar]
                refine ⟨_, b, _, ty', op', default, desc, ⟨?_, ?_, hload, hsimple, hdefault, fun heq => ?_, hdesc⟩, hfound.symm⟩
                · exact (branches_moreBranches b steps.length _).cons hat hself rfl hthreshold hresult rfl
                · intro k b' hb'
                  have hall := List.all_eq_true.1 (Bool.not_eq_false _ ▸ hnext) (b', k) (List.mk_mem_zipIdx_iff_getElem?.2 hb')
                  rw [beq_iff_eq.1 hall]
                  omega
                · by_contra hfalse
                  exact hmonotone ⟨heq, Bool.eq_false_iff.2 hfalse⟩
    · cases hsimple

end Parts

/-! ## The run of the branches -/

variable {env : ExprEnv G} {c : Cell} {load : EvalOp G} {lo stop : Nat} {s₀ : EvalState} {d : NullableDatum}

/-- A load of a variable, or of a test value that these steps do not write, loads the same. -/
theorem loaded_of_kept {s : EvalState} (h : Kept steps lo stop s₀ s)
    (hkept : ∀ x, load = .caseTestval (some x) → ∀ n, lo ≤ n → n < stop → resAt steps n ≠ some x) :
    load.loaded env s = load.loaded env s₀ := by
  cases load with
  | caseTestval value =>
    cases value with
    | none => rfl
    | some x => exact congrArg some (h x (hkept x rfl))
  | _ => rfl

/-- A branch of a pattern from `lo` to `stop`, at the step `j`. -/
structure RunsAt (steps : List (ExprEvalStep G)) (c : Cell) (load : EvalOp G) (lo stop j : Nat) (b : SimpleBranch G) : Prop where
  at_ : BranchSteps steps j b
  compiled : CompiledBranch steps c j b
  own : OwnArgs steps lo stop b.fcinfo j
  load : b.load = load
  next : b.next = j + 5
  done : b.done = stop

/-- One branch: its result when its own comparison is true, or else what comes after it. -/
theorem reaches_branch (hforward : ForwardJumps steps)
    (hkept : ∀ x, load = .caseTestval (some x) → ∀ n, lo ≤ n → n < stop → resAt steps n ≠ some x) (hload : load.loaded env s₀ = some d)
    {j : Nat} (hle : lo ≤ j) {b : SimpleBranch G} (hb : RunsAt steps c load lo stop j b) {r : NullableDatum} {s : EvalState}
    (hs : Kept steps lo stop s₀ s) (hhere : b.ownHolds env steps s₀ d j = true → r = b.result)
    (hrest : b.ownHolds env steps s₀ d j = false → ∀ s', Kept steps lo stop s₀ s' → Reaches env steps stop c (j + 5) s' r) :
    Reaches env steps stop c j s r := by
  have hstop : j + 4 < stop := hb.done ▸ jump_lt hforward hb.at_.done
  have hloadAt : opAt steps j = some load := hb.load ▸ hb.at_.load
  obtain ⟨x, hx⟩ := exists_resAt hloadAt
  refine Reaches.load hloadAt hx ((loaded_of_kept hs hkept).trans hload) (by omega) ?_
  refine Reaches.test hb.compiled.call hb.compiled.test hb.at_.next hb.compiled.jump (by omega) (by rw [hb.next]; omega) fun k => ?_
  rw [args_of_own hb.own hs hx, ← SimpleBranch.ownHolds, hb.next]
  cases hholds : b.ownHolds env steps s₀ d j with
  | true =>
    rw [if_pos rfl, hhere hholds]
    exact reaches_const hforward hb.at_.result hb.compiled.result (.inr (hb.done ▸ hb.at_.done)) _
  | false =>
    rw [if_neg Bool.false_ne_true]
    exact hrest hholds _ ((hs.store hx hle (by omega) d).store hb.compiled.test (by omega) (by omega) k)

/-- Branches with their first steps, from the step `j` on. -/
def numbered : Nat → List (SimpleBranch G) → List (Nat × SimpleBranch G)
  | _, [] => []
  | j, b :: bs => (j, b) :: numbered (j + 5) bs

/-- The branches one after the other: the first one whose own comparison is true gives the result. -/
theorem reaches_branches (hforward : ForwardJumps steps)
    (hkept : ∀ x, load = .caseTestval (some x) → ∀ n, lo ≤ n → n < stop → resAt steps n ≠ some x) (hload : load.loaded env s₀ = some d)
    {default : Datum} {bs : List (SimpleBranch G)} {j : Nat} (hle : lo ≤ j)
    (hruns : ∀ k b, bs[k]? = some b → RunsAt steps c load lo stop (j + 5 * k) b) (hresult : ∀ b ∈ bs, b.result.isnull = false)
    (hdefault : ∀ s', Reaches env steps stop c (j + 5 * bs.length) s' ⟨default, false⟩) {s : EvalState}
    (hs : Kept steps lo stop s₀ s) :
    Reaches env steps stop c j s
      ⟨(((numbered j bs).find? fun x => x.2.ownHolds env steps s₀ d x.1).map fun x => x.2.result.value).getD default, false⟩ := by
  induction bs generalizing j s with
  | nil => exact hdefault s
  | cons b bs ih =>
    have hb : RunsAt steps c load lo stop j b := hruns 0 b rfl
    refine reaches_branch hforward hkept hload hle hb hs (fun htrue => ?_) fun hfalse s' hs' => ?_
    · simp only [numbered, List.find?_cons, htrue]
      rw [← hresult b List.mem_cons_self]
      rfl
    · simp only [numbered, List.find?_cons, hfalse]
      refine ih (by omega) (fun k b' hb' => ?_) (fun b' hb' => hresult b' (List.mem_cons_of_mem b hb')) (fun s' => ?_) hs'
      · rw [show j + 5 + 5 * k = j + 5 * (k + 1) by omega]
        exact hruns (k + 1) b' hb'
      · rw [show j + 5 + 5 * bs.length = j + 5 * (b :: bs).length by rw [List.length_cons]; omega]
        exact hdefault s'

/-- The ELSE: a constant, and the end or a jump to it. -/
theorem reaches_else (hforward : ForwardJumps steps) {j : Nat} {default : Datum} (h : simpleElse steps j stop = some default)
    (hres : resAt steps j = some c) (s : EvalState) : Reaches env steps stop c j s ⟨default, false⟩ := by
  simp only [simpleElse, Option.bind_eq_bind, Option.bind_eq_some_iff] at h
  obtain ⟨k, ⟨op, hop, hconst⟩, h⟩ := h
  obtain rfl := constval_eq_some hconst
  split at h
  · cases h
  · rename_i hnull
    split at h
    · rename_i hend
      obtain rfl := Option.some.inj h
      have hk : k = ⟨k.value, false⟩ := by rw [← Bool.eq_false_iff.2 hnull]
      refine reaches_const hforward (hk ▸ hop) hres (hend.imp_right fun hjump => ?_) s
      obtain ⟨op', hop', htarget⟩ := hjump
      obtain rfl := jumpTarget_eq_some htarget
      exact hop'
    · cases h

/-! ## The run of a pattern -/

/-- The branches that are found where they stand are those of the pattern. -/
theorem numbered_eq {i : Nat} {bs : List (SimpleBranch G)} (h : ∀ k b, bs[k]? = some b → simpleBranchAt steps (i + 5 * k) = some b) :
    ((List.range bs.length).filterMap fun k => (simpleBranchAt steps (i + 5 * k)).map fun b => (i + 5 * k, b)) = numbered i bs := by
  induction bs generalizing i with
  | nil => rfl
  | cons b bs ih =>
    have hfirst := h 0 b rfl
    rw [Nat.mul_zero, Nat.add_zero] at hfirst
    rw [List.length_cons, List.range_succ_eq_map, List.filterMap_cons_some (b := (i, b)) (by simp [hfirst]), numbered, List.filterMap_map]
    refine congrArg ((i, b) :: ·) ?_
    rw [← ih (i := i + 5) fun k b' hb' => ?_]
    · refine List.filterMap_congr fun k _ => ?_
      rw [Function.comp_apply, show i + 5 * k.succ = i + 5 + 5 * k by omega]
    · rw [show i + 5 + 5 * k = i + 5 * (k + 1) by omega]
      exact h (k + 1) b' hb'

/-- What is said of the branches alone. -/
theorem map_numbered {τ : Type} (f : SimpleBranch G → τ) (j : Nat) (bs : List (SimpleBranch G)) :
    (numbered j bs).map (fun x => f x.2) = bs.map f := by
  induction bs generalizing j with
  | nil => rfl
  | cons b bs ih => rw [numbered, List.map_cons, List.map_cons, ih]

/-- A numbered branch is one of the branches, at its place. -/
theorem mem_numbered {j : Nat} {bs : List (SimpleBranch G)} {x : Nat × SimpleBranch G} (h : x ∈ numbered j bs) :
    ∃ k, bs[k]? = some x.2 ∧ x.1 = j + 5 * k := by
  induction bs generalizing j with
  | nil => cases h
  | cons b bs ih =>
    rcases List.mem_cons.1 h with rfl | h
    · exact ⟨0, rfl, rfl⟩
    · obtain ⟨k, hk, hx⟩ := ih h
      exact ⟨k + 1, hk, by omega⟩

section Pattern

variable {α β : Type} [LinearOrder α] [LinearOrder β] {F : FloatFormats α β} {T : PgText} {ty : CaseBSearchType} {op : CaseCmp}
  {first : SimpleBranch G} {default : Datum} {i : Nat} {bs : List (SimpleBranch G)} {desc : CaseBSearchDesc ty.width}
  {info : CaseBSearchInfo} {desc' : CaseBSearchDesc info.bsType.width}

/-- A result by the branches of a pattern, in these words. -/
theorem firstResult_of_parts (hparts : Parts F T fns steps m i first bs ty op default desc) (holds : Nat → SimpleBranch G → Bool) :
    CasePattern.firstResult ⟨i, i + 5 * (first :: bs).length, first.done, info, desc'⟩ steps holds =
      (((numbered i (first :: bs)).find? fun x => holds x.1 x.2).map fun x => x.2.result.value).getD default := by
  have helse := hparts.else_
  simp only [simpleElse, Option.bind_eq_bind, Option.bind_eq_some_iff] at helse
  obtain ⟨k, hk, helse⟩ := helse
  have hvalue : k.value = default := by
    split at helse
    · cases helse
    · split at helse <;> cases helse
      rfl
  rw [CasePattern.firstResult, CasePattern.branches, ← numbered_eq hparts.branches.at_]
  dsimp only
  rw [show (i + 5 * (first :: bs).length - i) / 5 = (first :: bs).length by omega]
  rw [show (opAt steps (i + 5 * (first :: bs).length)).bind EvalOp.constval = some k from Option.bind_eq_some_iff.2 hk, Option.map_some,
    Option.getD_some, hvalue]

/-- The branches of a pattern run as they are meant to. -/
theorem runsAt_of_parts (hparts : Parts F T fns steps m i first bs ty op default desc)
    (hcompiled : CompiledSimple steps c ⟨i, i + 5 * (first :: bs).length, first.done, info, desc'⟩)
    (hown : CasePattern.OwnArguments ⟨i, i + 5 * (first :: bs).length, first.done, info, desc'⟩ steps) (k : Nat) (b : SimpleBranch G)
    (hb : (first :: bs)[k]? = some b) : RunsAt steps c first.load i first.done (i + 5 * k) b := by
  have hat := hparts.branches.at_ k b hb
  have hfirstAt := hparts.branches.at_ 0 first rfl
  have hmem := List.mem_of_getElem? hb
  obtain ⟨hk, -⟩ := List.getElem?_eq_some_iff.1 hb
  have hinside : i + 5 * k < i + 5 * (first :: bs).length := by omega
  refine ⟨branchSteps hat, hcompiled.branches k b hinside hat, hown k b hinside hat, ?_, ?_, hparts.branches.done b hmem⟩
  · rcases hparts.load with hvar | htestval
    · exact eq_of_sameVar (hparts.branches.load b hmem hvar)
    · have hload := (branchSteps hfirstAt).load
      obtain ⟨v, hv⟩ : ∃ v, first.load = .caseTestval v := by
        cases hop : first.load <;> rw [hop] at htestval <;> first | exact ⟨_, rfl⟩ | exact absurd htestval Bool.false_ne_true
      rw [hv] at hload ⊢
      exact Option.some.inj ((branchSteps hat).load.symm.trans (hcompiled.testval k v hinside hload))
  · rw [hparts.next k b hb]
    omega

/-- The steps of a pattern give the result by the branches' own comparisons. -/
theorem linear_of_parts (hparts : Parts F T fns steps m i first bs ty op default desc)
    (hcompiled : CompiledSimple steps c ⟨i, i + 5 * (first :: bs).length, first.done, info, desc'⟩)
    (hown : CasePattern.OwnArguments ⟨i, i + 5 * (first :: bs).length, first.done, info, desc'⟩ steps) {s : EvalState}
    (hload : (opAt steps i).bind (EvalOp.loaded env s) = some d) :
    CasePattern.linearResult ⟨i, i + 5 * (first :: bs).length, first.done, info, desc'⟩ env steps c s =
      some ⟨CasePattern.ownResult ⟨i, i + 5 * (first :: bs).length, first.done, info, desc'⟩ env steps s d, false⟩ := by
  have hloadAt := (branchSteps (hparts.branches.at_ 0 first rfl)).load
  have hloaded : first.load.loaded env s = some d := by
    rwa [show opAt steps i = some first.load from hloadAt, Option.bind_some] at hload
  have hreaches := reaches_branches hcompiled.forward (fun x hx => hcompiled.testvalKept x (by rw [← hx]; exact hloadAt)) hloaded
    (Nat.le_refl i) (runsAt_of_parts hparts hcompiled hown) hparts.branches.result
    (fun s' => reaches_else hcompiled.forward hparts.else_ hcompiled.default s') (fun _ _ => rfl)
  rw [CasePattern.ownResult, firstResult_of_parts hparts]
  exact hreaches steps.length (by omega)

end Pattern

end CaseSimpleAux
end PgJitter
