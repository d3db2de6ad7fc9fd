import PgJitter.Lemmas.CaseSimple
import PgJitter.Theorems.CaseBsearch
import Mathlib.Data.List.Find

/-!
# Helpers for `Theorems/CaseEval.lean`: what the helper of a simple pattern returns

The descriptor of a pattern holds the thresholds in the order of their keys, so the helper returns the result of the first branch whose
folded comparison is true.
-/

namespace PgJitter
namespace CaseFoldAux

open CaseDetectAux CaseEvalAux CaseBsearchAux CaseSimpleAux

variable {G : Type} {steps : List (ExprEvalStep G)} {m : EvalState} {fns : CaseFuncs G}

/-! ## The thresholds of the descriptor -/

/-- What holds of neighbours holds of any two, when it is transitive. -/
theorem pairwise_of_zip_tail {τ : Type} {R : τ → τ → Prop} (htrans : ∀ a b c, R a b → R b c → R a c) {l : List τ}
    (h : ∀ x ∈ l.zip l.tail, R x.1 x.2) : l.Pairwise R := by
  induction l with
  | nil => exact List.Pairwise.nil
  | cons a l ih =>
    cases l with
    | nil => exact List.pairwise_singleton R a
    | cons b l =>
      have hfirst : R a b := h (a, b) List.mem_cons_self
      have hrest := ih fun x hx => h x (List.mem_cons_of_mem _ hx)
      refine List.pairwise_cons.2 ⟨List.forall_mem_cons.2 ⟨hfirst, fun c hc => ?_⟩, hrest⟩
      exact htrans a b c hfirst ((List.pairwise_cons.1 hrest).1 c hc)

/-- What holds of any two holds of neighbours. -/
theorem rel_of_mem_zip_tail {τ : Type} {R : τ → τ → Prop} {l : List τ} (h : l.Pairwise R) {x : τ × τ} (hx : x ∈ l.zip l.tail) :
    R x.1 x.2 := by
  induction l with
  | nil => exact absurd hx List.not_mem_nil
  | cons a l ih =>
    obtain ⟨hfirst, hrest⟩ := List.pairwise_cons.1 h
    cases l with
    | nil => exact absurd hx List.not_mem_nil
    | cons b l =>
      rcases List.mem_cons.1 hx with rfl | hx
      · exact hfirst b List.mem_cons_self
      · exact ih hrest hx

variable {w : Nat} {K' : Type} [LinearOrder K'] {kt : BitVec w → K'}

/-- The branches are sorted by their keys, when the comparison is that of the keys. -/
theorem sortBranches_some {cmp : BitVec w → BitVec w → Int} (hle : ∀ a b, cmp a b ≤ 0 ↔ kt a ≤ kt b)
    (hzero : ∀ a b, cmp a b = 0 ↔ kt a = kt b) {pairs sorted : List (BitVec w × Datum)} (h : sortBranches cmp pairs = some sorted) :
    sorted.Perm pairs ∧ sorted.Pairwise fun a b => kt a.1 < kt b.1 := by
  rw [sortBranches] at h
  split at h
  · cases h
  · rename_i hdistinct
    obtain rfl := Option.some.inj h
    have hsorted := @List.pairwise_mergeSort _ (fun a b : BitVec w × Datum => decide (cmp a.1 b.1 ≤ 0))
      (fun a b c hab hbc => by
        rw [decide_eq_true_iff, hle] at hab hbc ⊢
        exact le_trans hab hbc)
      (fun a b => by
        rw [Bool.or_eq_true, decide_eq_true_iff, decide_eq_true_iff, hle, hle]
        exact le_total _ _) pairs
    refine ⟨List.mergeSort_perm _ _,
      pairwise_of_zip_tail (R := fun a b : BitVec w × Datum => kt a.1 < kt b.1) (fun _ _ _ => lt_trans) fun x hx => ?_⟩
    -- neighbours are in order and not equal
    have hne : kt x.1.1 ≠ kt x.2.1 := fun heq =>
      hdistinct (List.any_eq_true.2 ⟨x, hx, decide_eq_true ((hzero _ _).2 heq)⟩)
    exact lt_of_le_of_ne ((hle _ _).1 (of_decide_eq_true (rel_of_mem_zip_tail hsorted hx))) hne

/-! ## The descriptor -/

section Desc

variable {α β : Type} [LinearOrder α] [LinearOrder β] {F : FloatFormats α β} {T : PgText}

/-- The sign of a three-way comparison. -/
structure Sign (c : Int) (a b : K') : Prop where
  neg : c < 0 ↔ a < b
  pos : 0 < c ↔ b < a
  zero : c = 0 ↔ a = b

/-- A comparison of the order. -/
theorem sign_compare (a b : K') : Sign (orderingToInt (compare a b)) a b := by
  rw [← cmp_eq_compare]
  obtain ⟨hneg, hpos, hzero⟩ := orderingToInt_cmp_sign a b
  exact ⟨hneg, hpos, hzero⟩

/-- A comparison of floats. -/
theorem sign_float (a b : PgFloat α) : Sign (float8CmpJit a b) a.key b.key := by
  rw [FloatCmpAux.float8CmpJit_eq, cmp_eq_compare]
  exact sign_compare _ _

/-- Not above. -/
theorem Sign.le {c : Int} {a b : K'} (h : Sign c a b) : c ≤ 0 ↔ a ≤ b := by
  rw [← not_lt, ← not_lt, h.pos]

/-- The order function that the descriptor of a pattern gets. -/
def simpleOrderFn (fns : CaseFuncs G) (ty : CaseBSearchType) (op : CaseCmp) (first : SimpleBranch G) : Option CaseCmpFn :=
  if ty = .generic ∧ op = .eq then (fns.genericLt (fns.addr first.fn)).map fns.fn else none

/-- The collation that it gets. -/
def simpleCollation (fns : CaseFuncs G) (ty : CaseBSearchType) (first : SimpleBranch G) : Nat :=
  if ty = .generic then fns.collation first.fn else 0

/-- Whether its texts are compared by their bytes. -/
def simpleMemcmp (T : PgText) (fns : CaseFuncs G) (ty : CaseBSearchType) (op : CaseCmp) (first : SimpleBranch G) (default : Datum) :
    Bool :=
  caseBsearchGenericEqCanMemcmp T (CaseBSearchDesc.ofBranches (fns.fn (fns.addr first.fn)) (simpleOrderFn fns ty op first)
    (simpleCollation fns ty first) default none [])

/-- The descriptor of a pattern, in these words. -/
theorem simpleDesc_eq (ty : CaseBSearchType) (op : CaseCmp) (first : SimpleBranch G) (default : Datum) (bs : List (SimpleBranch G)) :
    simpleDesc F T fns m ty op first default bs =
      let pairs := bs.map fun b => (storeThreshold ty (m.threshold b.fcinfo).value, b.result.value)
      let build := CaseBSearchDesc.ofBranches (fns.fn (fns.addr first.fn)) (simpleOrderFn fns ty op first)
        (simpleCollation fns ty first) default none
      if op = .eq ∧ (ty ≠ .generic ∨ (simpleOrderFn fns ty op first).isSome) then
        (sortBranches (thresholdCmp F T (fns.fn (fns.addr first.fn)) (simpleOrderFn fns ty op first) (simpleCollation fns ty first)
          (simpleMemcmp T fns ty op first default) ty) pairs).map build
      else some (build pairs) := rfl

/-- What the pass compares are the keys of the thresholds. -/
structure Keyed (F : FloatFormats α β) (T : PgText) (fns : CaseFuncs G) (ty : CaseBSearchType) (op : CaseCmp) (first : SimpleBranch G)
    (default : Datum) (kt : BitVec ty.width → K') : Prop where
  monotone : op ≠ .eq → ∀ prev curr,
    (if op.isLess then 0 < monotoneCmp F T (fns.fn (fns.addr first.fn)) (fns.collation first.fn) op.isLess ty prev curr
      else monotoneCmp F T (fns.fn (fns.addr first.fn)) (fns.collation first.fn) op.isLess ty prev curr < 0) →
    op.Before (fun t u => kt t ≤ kt u) (storeThreshold ty prev) (storeThreshold ty curr)
  ordered : op = .eq → ty = .generic → (simpleOrderFn fns ty op first).isSome
  sort : op = .eq → ∀ a b, Sign (thresholdCmp F T (fns.fn (fns.addr first.fn)) (simpleOrderFn fns ty op first)
    (simpleCollation fns ty first) (simpleMemcmp T fns ty op first default) ty a b) (kt a) (kt b)

/-- What a helper returns for a pattern, when it searches by the keys of the thresholds. -/
theorem caseResult_of_keyed {i : Nat} {first : SimpleBranch G} {bs : List (SimpleBranch G)} {ty : CaseBSearchType} {op : CaseCmp}
    {default : Datum} {desc : CaseBSearchDesc ty.width} (hp : Parts F T fns steps m i first bs ty op default desc)
    {kt : BitVec ty.width → K'} {kv : K'} {r : Datum} (hkeyed : Keyed F T fns ty op first default kt) (hs : Searches desc op kv kt r) :
    CaseResult (fun t => op.Rel kv (kt t))
      ((first :: bs).map fun b => (storeThreshold ty (m.threshold b.fcinfo).value, b.result.value)) default r := by
  have hdesc := hp.desc
  rw [simpleDesc_eq] at hdesc
  dsimp only at hdesc
  split at hdesc
  · rename_i hsorted
    obtain ⟨rfl, -⟩ := hsorted
    obtain ⟨pairs, hpairs, rfl⟩ := Option.map_eq_some_iff.1 hdesc
    have hsign := hkeyed.sort rfl
    obtain ⟨hperm, hpairwise⟩ := sortBranches_some (fun a b => (hsign a b).le) (fun a b => (hsign a b).zero) hpairs
    refine hs.result_of_sorted (fun i j hij hj => thresholds_ofBranches (R := fun t u => kt t < kt u) hpairwise hij hj) ?_
    rwa [branches_ofBranches]
  · rename_i hunsorted
    obtain rfl := Option.some.inj hdesc
    have hop : op ≠ .eq := by
      rintro rfl
      refine hunsorted ⟨rfl, ?_⟩
      by_cases hty : ty = .generic
      · exact .inr (hkeyed.ordered rfl hty)
      · exact .inl hty
    have hmonotone := hp.monotone (by simpa [CaseCmp.isEquality] using hop)
    rw [monotone, List.all_eq_true] at hmonotone
    -- neighbours stand in the order of their keys, and so do all thresholds
    have hpairwise : ((first :: bs).map fun b => (m.threshold b.fcinfo).value).Pairwise fun prev curr =>
        op.Before (fun t u => kt t ≤ kt u) (storeThreshold ty prev) (storeThreshold ty curr) := by
      refine pairwise_of_zip_tail (fun a b c hab hbc => ?_) fun x hx => hkeyed.monotone hop x.1 x.2 ?_
      · cases op with
        | eq => exact absurd rfl hop
        | lt | le => exact le_trans hab hbc
        | gt | ge => exact le_trans hbc hab
      · have hx := hmonotone x hx
        dsimp only at hx
        split at hx
        · rename_i hless
          rw [if_pos hless]
          simpa [hless] using hx
        · rename_i hless
          rw [if_neg hless]
          simpa [hless] using hx
    have hresult := hs.result_of_monotone hop fun i j hij hj => ?_
    · rwa [branches_ofBranches] at hresult
    · refine thresholds_ofBranches (R := op.Before fun t u => kt t ≤ kt u) ?_ hij hj
      rw [List.pairwise_map] at hpairwise ⊢
      exact hpairwise

/-- The descriptor is built of some branches. -/
theorem desc_eq {i : Nat} {first : SimpleBranch G} {bs : List (SimpleBranch G)} {ty : CaseBSearchType} {op : CaseCmp}
    {default : Datum} {desc : CaseBSearchDesc ty.width} (hp : Parts F T fns steps m i first bs ty op default desc) :
    ∃ pairs, desc = CaseBSearchDesc.ofBranches (fns.fn (fns.addr first.fn)) (simpleOrderFn fns ty op first)
      (simpleCollation fns ty first) default none pairs := by
  have hdesc := hp.desc
  rw [simpleDesc_eq] at hdesc
  dsimp only at hdesc
  split at hdesc
  · obtain ⟨pairs, -, rfl⟩ := Option.map_eq_some_iff.1 hdesc
    exact ⟨pairs, rfl⟩
  · exact ⟨_, (Option.some.inj hdesc).symm⟩

/-! ## The keys of each type -/

variable {ty : CaseBSearchType} {op : CaseCmp} {first : SimpleBranch G} {default : Datum}

/-- The keys of a type whose thresholds are compared three ways. -/
theorem keyed_of_sign (hty : ty ≠ .generic) {kt : BitVec ty.width → K'}
    (hmonotone : ∀ fn collation isLess prev curr,
      Sign (monotoneCmp F T fn collation isLess ty prev curr) (kt (storeThreshold ty curr)) (kt (storeThreshold ty prev)))
    (hsort : ∀ fn orderFn collation useMemcmp a b, Sign (thresholdCmp F T fn orderFn collation useMemcmp ty a b) (kt a) (kt b)) :
    Keyed F T fns ty op first default kt where
  monotone := by
    intro hop prev curr h
    have hsign := hmonotone (fns.fn (fns.addr first.fn)) (fns.collation first.fn) op.isLess prev curr
    cases op with
    | eq => exact absurd rfl hop
    | lt | le => exact le_of_lt (hsign.pos.1 h)
    | gt | ge => exact le_of_lt (hsign.neg.1 h)
  ordered := fun _ h => absurd h hty
  sort := fun _ => hsort _ _ _ _

theorem keyed_i32 : Keyed F T fns .i32 op first default BitVec.toInt :=
  keyed_of_sign (by decide) (fun _ _ _ _ _ => sign_compare _ _) fun _ _ _ _ _ _ => sign_compare _ _

theorem keyed_i64 : Keyed F T fns .i64 op first default BitVec.toInt :=
  keyed_of_sign (by decide) (fun _ _ _ _ _ => sign_compare _ _) fun _ _ _ _ _ _ => sign_compare _ _

theorem keyed_u32 : Keyed F T fns .u32 op first default BitVec.toNat :=
  keyed_of_sign (by decide) (fun _ _ _ _ _ => sign_compare _ _) fun _ _ _ _ _ _ => sign_compare _ _

theorem keyed_i16 : Keyed F T fns .i16 op first default BitVec.toInt :=
  keyed_of_sign (by decide) (fun _ _ _ _ _ => sign_compare _ _) fun _ _ _ _ _ _ => sign_compare _ _

theorem keyed_f4 : Keyed F T fns .f4 op first default fun t => (datumGetFloat4 F t).key :=
  keyed_of_sign (by decide) (fun _ _ _ _ _ => sign_float _ _) fun _ _ _ _ _ _ => sign_float _ _

theorem keyed_f8 : Keyed F T fns .f8 op first default fun t => (datumGetFloat8 F t).key :=
  keyed_of_sign (by decide) (fun _ _ _ _ _ => sign_float _ _) fun _ _ _ _ _ _ => sign_float _ _

section Generic

variable {K : Type} [LinearOrder K] {key : CmpType → Nat → Datum → K} {addr : CmpType → CaseCmp → Nat} {cty : CmpType}

/-- The order function is the `<` of the type. -/
theorem simpleOrderFn_eq (hfns : CmpFns F T key fns addr) (hcty : cty.bsType = .generic) (haddr : fns.addr first.fn = addr cty .eq) :
    simpleOrderFn fns .generic .eq first = some (fns.fn (addr cty .lt)) := by
  rw [simpleOrderFn, if_pos ⟨rfl, rfl⟩, haddr, genericLt_addr hfns hcty, Option.map_some]

/-- A threshold passes the check only if the comparison function holds of the one before it and itself. -/
theorem call_of_check {isLess call reverse : Bool}
    (h : if isLess then (0 : Int) < if call then (if isLess then 1 else -1) else if reverse then (if isLess then -1 else 1) else 0
      else (if call then (if isLess then 1 else -1) else if reverse then (if isLess then -1 else 1) else (0 : Int)) < 0) :
    call = true := by
  revert isLess call reverse
  decide

/-- The keys of a type that is passed by reference, where texts are not compared by their bytes. -/
theorem keyed_generic (hfns : CmpFns F T key fns addr) (hcty : cty.bsType = .generic) (haddr : fns.addr first.fn = addr cty op)
    (hmem : op = .eq → simpleMemcmp T fns .generic op first default = false) :
    Keyed F T fns .generic op first default (key cty (fns.collation first.fn)) where
  monotone := by
    intro hop prev curr h
    have hcall : ∀ a b, datumGetBool ((fns.fn (fns.addr first.fn)).call T (fns.collation first.fn) a b) = true ↔
        op.Rel (key cty (fns.collation first.fn) a) (key cty (fns.collation first.fn) b) := by
      intro a b
      rw [haddr]
      exact (hfns.compares cty op _ a b).trans (compares_generic hcty)
    have hrel := (hcall prev curr).1 (call_of_check h)
    cases op with
    | eq => exact absurd rfl hop
    | lt | gt => exact le_of_lt hrel
    | le | ge => exact hrel
  ordered := by
    rintro rfl -
    rw [simpleOrderFn_eq hfns hcty haddr]
    rfl
  sort := by
    rintro rfl a b
    rw [thresholdCmp, hmem rfl, if_neg Bool.false_ne_true, simpleOrderFn_eq hfns hcty haddr, Option.getD_some, simpleCollation,
      if_pos rfl]
    have hlt : ∀ a b, datumGetBool ((fns.fn (addr cty .lt)).call T (fns.collation first.fn) a b) = true ↔
        key cty (fns.collation first.fn) a < key cty (fns.collation first.fn) b := fun a b =>
      (hfns.compares cty .lt _ a b).trans (compares_generic hcty)
    obtain ⟨hneg, hpos, hzero⟩ := orderCmp_sign hlt a b
    exact ⟨hneg, hpos, hzero⟩

/-- The keys of texts that are compared by their bytes. -/
theorem keyed_texts (hfns : CmpFns F T key fns addr) (hcty : cty.bsType = .generic) (haddr : fns.addr first.fn = addr cty .eq)
    (hmem : simpleMemcmp T fns .generic .eq first default = true) :
    Keyed F T fns .generic .eq first default fun t => (T.bytes t).map UInt8.toNat where
  monotone := fun h => absurd rfl h
  ordered := by
    intro _ _
    rw [simpleOrderFn_eq hfns hcty haddr]
    rfl
  sort := by
    intro _ a b
    rw [thresholdCmp, hmem, if_pos rfl]
    obtain ⟨hneg, hpos, hzero⟩ := textMemcmp_sign (T.bytes a) (T.bytes b)
    exact ⟨hneg, hpos, hzero.trans (List.map_injective_iff.2 fun _ _ => UInt8.toNat_inj.1).eq_iff.symm⟩

end Generic

/-! ## The result of the helper -/

section Pattern

variable {K : Type} [LinearOrder K] {key : CmpType → Nat → Datum → K} {addr : CmpType → CaseCmp → Nat} {env : ExprEnv G} {c : Cell}
  {i : Nat} {bs : List (SimpleBranch G)} {desc : CaseBSearchDesc ty.width}

/-- The pattern has its operator back from its fields. -/
theorem op_of_fields (ty : CaseBSearchType) (op : CaseCmp) :
    CaseBSearchInfo.op ⟨ty, op.isEquality, op.isLess, op.isInclusive⟩ = op := by
  cases op <;> rfl

/-- A simple pattern is no range pattern. -/
theorem not_hasRangeMin (hparts : Parts F T fns steps m i first bs ty op default desc) : desc.hasRangeMin = false := by
  obtain ⟨pairs, rfl⟩ := desc_eq hparts
  rfl

/-- The comparison function and the order function of a pattern are those of an order. -/
theorem genericOrder_of_parts {desc : CaseBSearchDesc 64} (hfns : CmpFns F T key fns addr) {cty : CmpType} (hcty : cty.bsType = .generic)
    (haddr : fns.addr first.fn = addr cty op) (hparts : Parts F T fns steps m i first bs .generic op default desc) :
    GenericOrder T (key cty (fns.collation first.fn)) op desc := by
  obtain ⟨pairs, rfl⟩ := desc_eq hparts
  refine ⟨fun a b => ?_, fun f hf a b => ?_⟩
  · have hcmp := (hfns.compares cty op (fns.collation first.fn) a b).trans (compares_generic hcty)
    rw [← haddr] at hcmp
    exact hcmp
  · have horder : simpleOrderFn fns .generic op first = some f := hf
    by_cases hop : op = .eq
    · subst hop
      obtain rfl := Option.some.inj ((simpleOrderFn_eq hfns hcty haddr).symm.trans horder)
      exact (hfns.compares cty .lt (fns.collation first.fn) a b).trans (compares_generic hcty)
    · rw [simpleOrderFn, if_neg fun hboth => hop hboth.2] at horder
      cases horder

/-- What decides whether texts are compared by their bytes is in the descriptor. -/
theorem memcmp_of_parts {desc : CaseBSearchDesc 64} (hparts : Parts F T fns steps m i first bs .generic op default desc) :
    caseBsearchGenericEqCanMemcmp T desc = simpleMemcmp T fns .generic op first default := by
  obtain ⟨pairs, rfl⟩ := desc_eq hparts
  rfl

/-- An equality of such a type has an order function. -/
theorem cmpOrderFn_of_parts {desc : CaseBSearchDesc 64} (hfns : CmpFns F T key fns addr) {cty : CmpType} (hcty : cty.bsType = .generic)
    (haddr : fns.addr first.fn = addr cty .eq) (hparts : Parts F T fns steps m i first bs .generic .eq default desc) :
    desc.cmpOrderFn ≠ none := by
  obtain ⟨pairs, rfl⟩ := desc_eq hparts
  exact (simpleOrderFn_eq hfns hcty haddr).symm ▸ Option.some_ne_none _

/-- A folded comparison of a type that is passed by reference is the one that the helper makes. -/
theorem foldedHolds_of_parts {desc : CaseBSearchDesc 64} (hparts : Parts F T fns steps m i first bs .generic op default desc)
    {b : SimpleBranch G} (hb : fns.addr b.fn = fns.addr first.fn) (v : Datum) :
    b.foldedHolds T fns m (fns.collation first.fn) v =
      datumGetBool (desc.cmpFn.call T desc.cmpCollation v (m.threshold b.fcinfo).value) := by
  obtain ⟨pairs, rfl⟩ := desc_eq hparts
  rw [SimpleBranch.foldedHolds, hb]
  rfl

/-- The result of a helper that searches by keys which the folded comparisons compare. -/
theorem folded_of_keyed (hparts : Parts F T fns steps m i first bs ty op default desc) {kt : BitVec ty.width → K'} {kv : K'} {r v : Datum}
    (hkeyed : Keyed F T fns ty op first default kt) (hs : Searches desc op kv kt r)
    (hfold : ∀ b ∈ first :: bs, b.foldedHolds T fns m (fns.collation first.fn) v = true ↔
      op.Rel kv (kt (storeThreshold ty (m.threshold b.fcinfo).value))) {info : CaseBSearchInfo}
    {desc' : CaseBSearchDesc info.bsType.width} :
    r = CasePattern.foldedResult ⟨i, i + 5 * (first :: bs).length, first.done, info, desc'⟩ T fns steps m v := by
  have hfirst : simpleBranchAt steps i = some first := hparts.branches.at_ 0 first rfl
  have hresult := caseResult_of_keyed hparts hkeyed hs
  rw [← map_numbered _ i] at hresult
  rw [CasePattern.foldedResult, firstResult_of_parts hparts, hfirst, Option.map_some, Option.getD_some]
  refine caseResult_find (fun x hx => ?_) hresult
  obtain ⟨k, hk, -⟩ := mem_numbered hx
  exact hfold x.2 (List.mem_of_getElem? hk)

/-- The helper gives the result by the comparisons that the pattern has, for values of the type that is compared. -/
theorem helper_of_parts (hfns : CmpFns F T key fns addr) (hparts : Parts F T fns steps m i first bs ty op default desc) {v : Datum}
    (htyped : CasePattern.Typed fns addr steps m
      ⟨i, i + 5 * (first :: bs).length, first.done, ⟨ty, op.isEquality, op.isLess, op.isInclusive⟩, desc⟩ v) :
    CasePattern.helperResult ⟨i, i + 5 * (first :: bs).length, first.done, ⟨ty, op.isEquality, op.isLess, op.isInclusive⟩, desc⟩ F T v =
      CasePattern.foldedResult ⟨i, i + 5 * (first :: bs).length, first.done, ⟨ty, op.isEquality, op.isLess, op.isInclusive⟩, desc⟩ T fns
        steps m v := by
  obtain ⟨cty, hfirst, hcty⟩ := classify_some hfns hparts.classify
  have haddr : ∀ b ∈ first :: bs, fns.addr b.fn = addr cty op := fun b hb => (hparts.branches.addr b hb).trans hfirst
  have hrange := not_hasRangeMin hparts
  have hbelow : ∀ {P : Prop}, desc.hasRangeMin = true ∧ P → False := fun hboth => nomatch hrange.symm.trans hboth.1
  have hfold : ∀ b ∈ first :: bs, b.foldedHolds T fns m (fns.collation first.fn) v = true ↔
      cty.Compares F key op (fns.collation first.fn) v (m.threshold b.fcinfo).value := by
    intro b hb
    rw [SimpleBranch.foldedHolds, haddr b hb]
    exact hfns.compares cty op _ _ _
  unfold CasePattern.helperResult selectBsearchHelper
  rw [op_of_fields]
  cases ty with
  | i32 => exact folded_of_keyed hparts keyed_i32 (searches_i32 F T op hbelow) fun b hb => (hfold b hb).trans (compares_i32 hcty)
  | i64 =>
    refine folded_of_keyed hparts keyed_i64 (searches_i64 F T op hbelow) fun b hb => ?_
    obtain ⟨k, hk⟩ := List.mem_iff_getElem?.1 hb
    obtain ⟨hlen, -⟩ := List.getElem?_eq_some_iff.1 hk
    obtain ⟨hv, ht⟩ := htyped k b cty op (by dsimp only; omega) (hparts.branches.at_ k b hk) (haddr b hb)
    exact (hfold b hb).trans (compares_i64 hcty hv ht)
  | u32 => exact folded_of_keyed hparts keyed_u32 (searches_u32 F T op desc _) fun b hb => (hfold b hb).trans (compares_u32 hcty)
  | i16 => exact folded_of_keyed hparts keyed_i16 (searches_i16 F T op hbelow) fun b hb => (hfold b hb).trans (compares_i16 hcty)
  | f4 => exact folded_of_keyed hparts keyed_f4 (searches_f4 F T op desc v) fun b hb => (hfold b hb).trans (compares_f4 hcty)
  | f8 => exact folded_of_keyed hparts keyed_f8 (searches_f8 F T op desc v) fun b hb => (hfold b hb).trans (compares_f8 hcty)
  | generic =>
    by_cases htexts : op = .eq ∧ caseBsearchGenericEqCanMemcmp T desc = true
    · obtain ⟨rfl, hmem⟩ := htexts
      obtain ⟨hfn, hdet⟩ := cmpFn_of_canMemcmp hmem
      have hkeyed := keyed_texts (F := F) hfns hcty hfirst ((memcmp_of_parts hparts).symm.trans hmem)
      refine folded_of_keyed hparts hkeyed (searches_texts F T v (cmpOrderFn_of_parts hfns hcty hfirst hparts) hmem) fun b hb => ?_
      rw [foldedHolds_of_parts hparts (hparts.branches.addr b hb)]
      exact holds_texts hfn hdet v _
    · have hmem : op = .eq → caseBsearchGenericEqCanMemcmp T desc = false := fun hop =>
        Bool.eq_false_iff.2 fun htrue => htexts ⟨hop, htrue⟩
      have hsome : op = .eq → desc.cmpOrderFn ≠ none := by
        rintro rfl
        exact cmpOrderFn_of_parts hfns hcty hfirst hparts
      have horder := genericOrder_of_parts hfns hcty hfirst hparts
      have hkeyed := keyed_generic (F := F) hfns hcty hfirst fun hop => (memcmp_of_parts hparts).symm.trans (hmem hop)
      exact folded_of_keyed hparts hkeyed (searches_generic F T op v horder hsome hmem) fun b hb =>
        (hfold b hb).trans (compares_generic hcty)

/-! ## Where the comparisons are those of the variable with a constant -/

/-- Each argument of the comparisons is then loaded by its branch, or not written. -/
theorem ownArguments_of_compares (hparts : Parts F T fns steps m i first bs ty op default desc) {info : CaseBSearchInfo}
    {desc' : CaseBSearchDesc info.bsType.width}
    (h : CasePattern.ComparesVariables fns steps ⟨i, i + 5 * (first :: bs).length, first.done, info, desc'⟩) :
    CasePattern.OwnArguments ⟨i, i + 5 * (first :: bs).length, first.done, info, desc'⟩ steps := by
  intro k b hinside hb
  have hmeant := h k first b hinside (hparts.branches.at_ 0 first rfl) hb
  exact ownArgs_of_sides hmeant.left hmeant.right

/-- No comparison with a null is true. -/
theorem ownHolds_null {j : Nat} {b : SimpleBranch G} (hb : ComparesVariable fns steps j first b) {s : EvalState}
    (hsame : SameConstants steps m s) (v : Datum) : b.ownHolds env steps s ⟨v, true⟩ j = false := by
  rw [SimpleBranch.ownHolds, loadedArgs_eq hsame hb.left hb.right]
  rfl

/-- The own comparison of a branch is the folded one. -/
theorem ownHolds_eq (hfns : CmpFns F T key fns addr) (hcalls : CallsCmpFns T fns addr env)
    (hparts : Parts F T fns steps m i first bs ty op default desc) {j : Nat} {b : SimpleBranch G} (hmem : b ∈ first :: bs)
    (hb : ComparesVariable fns steps j first b) {s : EvalState} (hsame : SameConstants steps m s) (v : Datum) :
    b.ownHolds env steps s ⟨v, false⟩ j = b.foldedHolds T fns m (fns.collation first.fn) v := by
  obtain ⟨cty, hfirst, hcty⟩ := classify_some hfns hparts.classify
  have haddr := (hparts.branches.addr b hmem).trans hfirst
  have hown : b.ownHolds env steps s ⟨v, false⟩ j =
      datumGetBool ((fns.fn (fns.addr b.fn)).call T (fns.collation b.fn) v (m.threshold b.fcinfo).value) := by
    rw [SimpleBranch.ownHolds, loadedArgs_eq hsame hb.left hb.right]
    exact callsTrue_cmp hcalls haddr (hparts.branches.threshold b hmem) v
  rw [hown, SimpleBranch.foldedHolds]
  by_cases hty : ty = .generic
  · rw [hb.collation (by rw [hparts.branches.addr b hmem, hparts.classify, hty]; rfl)]
  · -- the comparison of a type that is passed by value has no collation
    rw [haddr, Bool.eq_iff_iff, hfns.compares, hfns.compares]
    exact compares_collation (fun h => hty (hcty.symm.trans h)) _ _

/-- The result by the branches' own comparisons is then that by the folded ones. -/
theorem ownResult_eq (hfns : CmpFns F T key fns addr) (hcalls : CallsCmpFns T fns addr env)
    (hparts : Parts F T fns steps m i first bs ty op default desc) {info : CaseBSearchInfo} {desc' : CaseBSearchDesc info.bsType.width}
    (h : CasePattern.ComparesVariables fns steps ⟨i, i + 5 * (first :: bs).length, first.done, info, desc'⟩) {s : EvalState}
    (hsame : SameConstants steps m s) (v : Datum) :
    CasePattern.ownResult ⟨i, i + 5 * (first :: bs).length, first.done, info, desc'⟩ env steps s ⟨v, false⟩ =
      CasePattern.foldedResult ⟨i, i + 5 * (first :: bs).length, first.done, info, desc'⟩ T fns steps m v := by
  have hfirst : simpleBranchAt steps i = some first := hparts.branches.at_ 0 first rfl
  rw [CasePattern.ownResult, CasePattern.foldedResult, firstResult_of_parts hparts, firstResult_of_parts hparts, hfirst, Option.map_some,
    Option.getD_some]
  rw [List.find?_congr fun x hx => ?_]
  obtain ⟨k, hk, hat⟩ := mem_numbered hx
  obtain ⟨hlen, -⟩ := List.getElem?_eq_some_iff.1 hk
  rw [hat]
  exact ownHolds_eq hfns hcalls hparts (List.mem_of_getElem? hk)
    (h k first x.2 (by dsimp only; omega) hfirst (hparts.branches.at_ k x.2 hk)) hsame v

/-- It is the default for a null. -/
theorem ownResult_null (hparts : Parts F T fns steps m i first bs ty op default desc) {info : CaseBSearchInfo}
    {desc' : CaseBSearchDesc info.bsType.width}
    (h : CasePattern.ComparesVariables fns steps ⟨i, i + 5 * (first :: bs).length, first.done, info, desc'⟩) {s : EvalState}
    (hsame : SameConstants steps m s) (v : Datum) :
    CasePattern.ownResult ⟨i, i + 5 * (first :: bs).length, first.done, info, desc'⟩ env steps s ⟨v, true⟩ = default := by
  rw [CasePattern.ownResult, firstResult_of_parts hparts, List.find?_eq_none.2 fun x hx => ?_]
  · rfl
  · obtain ⟨k, hk, hat⟩ := mem_numbered hx
    obtain ⟨hlen, -⟩ := List.getElem?_eq_some_iff.1 hk
    rw [hat, ownHolds_null
      (h k first x.2 (by dsimp only; omega) (hparts.branches.at_ 0 first rfl) (hparts.branches.at_ k x.2 hk)) hsame]
    exact Bool.false_ne_true

/-- A pattern whose branches compare the variable with constants agrees with its steps, for values of the type that is compared. -/
theorem agrees_of_parts (hfns : CmpFns F T key fns addr) (hcalls : CallsCmpFns T fns addr env)
    (hparts : Parts F T fns steps m i first bs ty op default desc)
    (hcompiled : CompiledSimple steps c
      ⟨i, i + 5 * (first :: bs).length, first.done, ⟨ty, op.isEquality, op.isLess, op.isInclusive⟩, desc⟩)
    (h : CasePattern.ComparesVariables fns steps
      ⟨i, i + 5 * (first :: bs).length, first.done, ⟨ty, op.isEquality, op.isLess, op.isInclusive⟩, desc⟩)
    {isValue : Datum → Prop} (htyped : ∀ v, isValue v → CasePattern.Typed fns addr steps m
      ⟨i, i + 5 * (first :: bs).length, first.done, ⟨ty, op.isEquality, op.isLess, op.isInclusive⟩, desc⟩ v) :
    CasePattern.Agrees ⟨i, i + 5 * (first :: bs).length, first.done, ⟨ty, op.isEquality, op.isLess, op.isInclusive⟩, desc⟩ F T env steps m
      c isValue := by
  intro s d hsame hload hvalue
  rw [linear_of_parts hparts hcompiled (ownArguments_of_compares hparts h) hload]
  obtain ⟨v, _ | _⟩ := d
  · rw [CasePattern.callResult, if_neg Bool.false_ne_true, helper_of_parts hfns hparts (htyped v (hvalue rfl)),
      ownResult_eq hfns hcalls hparts h hsame]
  · rw [ownResult_null hparts h hsame]
    obtain ⟨pairs, rfl⟩ := desc_eq hparts
    rfl

end Pattern

/-! ## The patterns that are reported -/

section Reported

variable {K : Type} [LinearOrder K] {key : CmpType → Nat → Datum → K} {addr : CmpType → CaseCmp → Nat} {env : ExprEnv G} {c : Cell}
  {p : CasePattern}

/-- The steps of a pattern give the result by the branches' own comparisons. -/
theorem linear_eq_own (hp : p ∈ simplePatterns F T fns steps m) (hcompiled : CompiledSimple steps c p) (hown : p.OwnArguments steps)
    {s : EvalState} {d : NullableDatum} (hload : (opAt steps p.startOpno).bind (EvalOp.loaded env s) = some d) :
    p.linearResult env steps c s = some ⟨p.ownResult env steps s d, false⟩ := by
  obtain ⟨i, first, bs, ty, op, default, desc, hparts, rfl⟩ := simple_parts hcompiled.forward hp
  exact linear_of_parts hparts hcompiled hown hload

/-- The helper gives the result by the folded comparisons. -/
theorem helper_eq_folded (hfns : CmpFns F T key fns addr) (hforward : ForwardJumps steps) (hp : p ∈ simplePatterns F T fns steps m)
    {v : Datum} (htyped : p.Typed fns addr steps m v) : p.helperResult F T v = p.foldedResult T fns steps m v := by
  obtain ⟨i, first, bs, ty, op, default, desc, hparts, rfl⟩ := simple_parts hforward hp
  exact helper_of_parts hfns hparts htyped

/-- The two results are equal when every branch compares the variable with a constant. -/
theorem own_eq_folded (hfns : CmpFns F T key fns addr) (hcalls : CallsCmpFns T fns addr env) (hforward : ForwardJumps steps)
    (hp : p ∈ simplePatterns F T fns steps m) (h : p.ComparesVariables fns steps) {s : EvalState} (hsame : SameConstants steps m s)
    (v : Datum) : p.ownResult env steps s ⟨v, false⟩ = p.foldedResult T fns steps m v := by
  obtain ⟨i, first, bs, ty, op, default, desc, hparts, rfl⟩ := simple_parts hforward hp
  exact ownResult_eq hfns hcalls hparts h hsame v

/-- A pattern whose branches compare the variable with constants agrees with its steps. -/
theorem agrees_of_typed (hfns : CmpFns F T key fns addr) (hcalls : CallsCmpFns T fns addr env)
    (hp : p ∈ simplePatterns F T fns steps m) (hcompiled : CompiledSimple steps c p) (h : p.ComparesVariables fns steps)
    {isValue : Datum → Prop} (htyped : ∀ v, isValue v → p.Typed fns addr steps m v) : p.Agrees F T env steps m c isValue := by
  obtain ⟨i, first, bs, ty, op, default, desc, hparts, rfl⟩ := simple_parts hcompiled.forward hp
  exact agrees_of_parts hfns hcalls hparts hcompiled h htyped

end Reported

end Desc

end CaseFoldAux
end PgJitter
