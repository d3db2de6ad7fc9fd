import PgJitter.Lemmas.CaseRange
import PgJitter.Lemmas.CaseWhen

/-!
# Helpers for `Theorems/CaseEval.lean`: the THEN or the ELSE that is entered

The run of the WHENs of a range pattern to the THEN of the first one whose own comparisons are true, or else to the ELSE, and what is left
at the end of the CASE from there.
-/

namespace PgJitter
namespace CaseEnterAux

open Relation CaseDetectAux CaseEvalAux CaseWhenAux CaseRangeAux CompileExprAux

variable {G : Type} {steps : List (ExprEvalStep G)} {m : EvalState} {fns : CaseFuncs G} {env : ExprEnv G} {c : Cell} {stop : Nat}

/-! ## The run of the WHENs -/

/-- The run of the WHENs comes to the THEN of the first one whose own comparisons are true, or else to the ELSE. -/
theorem laid_run (hforward : ForwardJumps steps) {load : EvalOp G} {lo i e : Nat} {bs : List (RangeBranch G)} (hlaid : Laid steps i bs e)
    (hruns : ∀ b ∈ bs, RunsAt steps c load lo stop (b.thenStep - 7) b.when_) (hlo : lo ≤ i) (he : e ≤ stop) {d : NullableDatum}
    (hload : ∀ s, load.loaded env s = some d) {s₀ s : EvalState} (hs : Kept steps lo stop s₀ s) :
    ∃ s', ReflTransGen (InterpStep env steps) (i, s)
      (entryOf (fun b => b.when_.ownHolds env steps s₀ d (b.thenStep - 7)) bs e, s') := by
  induction bs generalizing i s with
  | nil =>
    obtain rfl : i = e := hlaid
    exact ⟨s, .refl⟩
  | cons b bs ih =>
    obtain ⟨-, hthen, next, hjump, hlt, hrest⟩ := hlaid
    have hi : b.thenStep - 7 = i := by omega
    have hrun := hruns b List.mem_cons_self
    rw [hi] at hrun
    obtain ⟨s', hwhen⟩ := when_run hforward hrun hjump hload hs
    rw [entryOf, List.find?_cons, hi]
    cases htrue : b.when_.ownHolds env steps s₀ d i with
    | true =>
      rw [htrue, if_pos rfl, ← hthen] at hwhen
      exact ⟨s', hwhen⟩
    | false =>
      rw [htrue, if_neg Bool.false_ne_true] at hwhen
      have hkept := kept_run hforward hwhen hs hlo (Nat.le_trans hrest.le he)
      obtain ⟨s'', hlater⟩ := ih hrest (fun b' hb' => hruns b' (List.mem_cons_of_mem b hb')) (by omega) hkept
      exact ⟨s'', hwhen.trans hlater⟩

section Results

variable {α β : Type} [LinearOrder α] [LinearOrder β] {F : FloatFormats α β} {T : PgText} {K : Type} [LinearOrder K]
  {key : CmpType → Nat → Datum → K} {addr : CmpType → CaseCmp → Nat} {p : CasePattern} {s : EvalState} {v : Datum}

/-- What the second pass has checked of a pattern whose WHENs are ranges. -/
theorem whens_of_parts (hp : p ∈ rangePatterns F T fns steps m) (hforward : ForwardJumps steps)
    (hmeant : ∀ x ∈ p.whens steps, IsWhen fns steps m p.elseEndOpno x.1 x.2) :
    ∃ first bs ty inclusive default, Parts fns steps m p.startOpno p.endOpno first bs ty inclusive default ∧
      p = ⟨p.startOpno, p.endOpno, p.elseEndOpno, ⟨ty, false, true, false⟩,
        CaseBSearchDesc.ofBranches (fns.fn 0) none 0 default (some (m.threshold first.lowFcinfo).value)
          (rangePairs steps m ty inclusive bs)⟩ ∧ p.whens steps = bs.map whenOf := by
  obtain ⟨i, e, first, bs, ty, inclusive, default, hparts, heq⟩ := range_parts hp hforward hmeant
  obtain rfl : p.startOpno = i := congrArg CasePattern.startOpno heq
  obtain rfl : p.endOpno = e := congrArg CasePattern.endOpno heq
  refine ⟨first, bs, ty, inclusive, default, hparts, heq, ?_⟩
  obtain ⟨step, hstep, -⟩ := Option.map_eq_some_iff.1 hparts.default
  obtain ⟨hin, -⟩ := List.getElem?_eq_some_iff.1 hstep
  exact hparts.laid.whensFrom_eq (by omega)

/-- The first WHEN that holds, among the branches. -/
theorem firstEntry_eq {bs : List (RangeBranch G)} (hlaid : Laid steps p.startOpno bs p.endOpno) (hwhens : p.whens steps = bs.map whenOf)
    (holds : Nat → RangeWhen G → Bool) :
    p.firstEntry steps holds = entryOf (fun b => holds (b.thenStep - 7) b.when_) bs p.endOpno := by
  have hcomp : ((fun x : Nat × RangeWhen G => holds x.1 x.2) ∘ whenOf) = fun b => holds (b.thenStep - 7) b.when_ := rfl
  rw [CasePattern.firstEntry, hwhens, entryOf, List.find?_map, hcomp]
  cases hfound : bs.find? fun b => holds (b.thenStep - 7) b.when_ with
  | none => rfl
  | some b =>
    obtain ⟨hseven, -⟩ := hlaid.mem b (List.mem_of_find?_eq_some hfound)
    show b.thenStep - 7 + 7 = b.thenStep
    omega

/-- The run comes to the THEN of the first WHEN whose own comparisons are true, or else to the ELSE. -/
theorem range_entered (hp : p ∈ rangePatterns F T fns steps m) (hforward : ForwardJumps steps)
    (hcompiled : ∀ x ∈ p.whens steps, CompiledWhen steps c x.1 x.2)
    (hmeant : ∀ x ∈ p.whens steps, IsWhen fns steps m p.elseEndOpno x.1 x.2) (hown : p.OwnBounds steps) {d : NullableDatum}
    (hload : (opAt steps p.startOpno).bind (EvalOp.loaded env s) = some d) :
    p.ownEntry env steps s d ≤ p.elseEndOpno ∧
      ∃ s', ReflTransGen (InterpStep env steps) (p.startOpno, s) (p.ownEntry env steps s d, s') := by
  obtain ⟨first, bs, ty, inclusive, default, hparts, -, hwhens⟩ := whens_of_parts hp hforward hmeant
  rw [CasePattern.OwnBounds, hwhens] at hown
  rw [hwhens] at hcompiled hmeant
  obtain ⟨hend, hthens⟩ := laid_le_stop hforward hparts.laid (fun b hb => hmeant _ (List.mem_map_of_mem hb))
    (List.ne_nil_of_length_pos (Nat.lt_trans Nat.zero_lt_one hparts.long))
  have hfirst : WhenSteps steps p.startOpno first := by
    have hlaid := hparts.laid
    obtain ⟨rest, rfl⟩ := hparts.start
    exact whenSteps hlaid.1
  have hloaded : ∀ s', first.load.loaded env s' = some d := by
    intro s'
    rw [hfirst.load, Option.bind_some] at hload
    rw [loaded_of_isVar hfirst.isVar s' s, hload]
  rw [CasePattern.ownEntry, firstEntry_eq hparts.laid hwhens]
  constructor
  · rw [entryOf]
    cases hfound : bs.find? fun b => b.when_.ownHolds env steps s d (b.thenStep - 7) with
    | none => exact hend
    | some b => exact hthens b (List.mem_of_find?_eq_some hfound)
  · refine laid_run (c := c) hforward hparts.laid (fun b hb => ?_) (Nat.le_refl _) hend hloaded (fun _ _ => rfl)
    obtain ⟨hseven, hat⟩ := hparts.laid.mem b hb
    have hsteps := whenSteps hat
    obtain ⟨hlow, hhigh, -⟩ := rangeLater_true (hparts.later b hb)
    obtain ⟨hownLow, hownHigh⟩ := hown _ (List.mem_map_of_mem hb)
    have hle := hthens b hb
    exact ⟨hlow ▸ hsteps.load, hhigh ▸ hsteps.highLoad, hcompiled _ (List.mem_map_of_mem hb), (hmeant _ (List.mem_map_of_mem hb)).and_,
      hownLow, hownHigh, by omega, by omega⟩

/-- The folded comparisons of a pattern lead to the constant that the helper returns. -/
theorem folded_const (hfns : CmpFns F T key fns addr) (hp : p ∈ rangePatterns F T fns steps m) (hforward : ForwardJumps steps)
    (hmeant : ∀ x ∈ p.whens steps, IsWhen fns steps m p.elseEndOpno x.1 x.2) (htyped : p.TypedWhens fns addr steps m v) :
    opAt steps (p.foldedEntry T fns steps m v) = some (.const ⟨p.helperResult F T v, false⟩) := by
  obtain ⟨first, bs, ty, inclusive, default, hparts, heq, hwhens⟩ := whens_of_parts hp hforward hmeant
  rw [CasePattern.TypedWhens, hwhens] at htyped
  rw [hwhens] at hmeant
  have hconst := const_of_parts hfns hparts (fun b hb => (hmeant _ (List.mem_map_of_mem hb)).ordered)
    (fun b hb => htyped _ (List.mem_map_of_mem hb)) (fns.fn 0)
  rw [CasePattern.foldedEntry, firstEntry_eq hparts.laid hwhens, hconst]
  generalize p.elseEndOpno = stop, p.startOpno = i, p.endOpno = e at heq
  subst heq
  rfl

/-- The ELSE begins with the default. -/
theorem default_const (hp : p ∈ rangePatterns F T fns steps m) (hforward : ForwardJumps steps)
    (hmeant : ∀ x ∈ p.whens steps, IsWhen fns steps m p.elseEndOpno x.1 x.2) :
    opAt steps p.endOpno = some (.const ⟨p.desc.defaultVal, false⟩) := by
  obtain ⟨first, bs, ty, inclusive, default, hparts, heq, -⟩ := whens_of_parts hp hforward hmeant
  rw [hparts.default]
  generalize p.elseEndOpno = stop, p.startOpno = i, p.endOpno = e at heq
  subst heq
  rfl

/-- With the variable on the left of every comparison and constants on the right, the arguments are the comparisons' own. -/
theorem ownBounds_of_sides (hbounds : ∀ x ∈ p.whens steps, ComparesBounds steps x.1 x.2) : p.OwnBounds steps := fun x hx =>
  ⟨ownArgs_of_sides (hbounds x hx).lowLeft (hbounds x hx).lowRight, ownArgs_of_sides (hbounds x hx).highLeft (hbounds x hx).highRight⟩

/-- Both kinds of comparisons then lead to one step. -/
theorem ownEntry_eq (hfns : CmpFns F T key fns addr) (hcalls : CallsCmpFns T fns addr env) (hp : p ∈ rangePatterns F T fns steps m)
    (hforward : ForwardJumps steps) (hmeant : ∀ x ∈ p.whens steps, IsWhen fns steps m p.elseEndOpno x.1 x.2)
    (hbounds : ∀ x ∈ p.whens steps, ComparesBounds steps x.1 x.2) (hsame : SameConstants steps m s) (v : Datum) :
    p.ownEntry env steps s ⟨v, false⟩ = p.foldedEntry T fns steps m v := by
  obtain ⟨first, bs, ty, inclusive, default, hparts, -, hwhens⟩ := whens_of_parts hp hforward hmeant
  rw [CasePattern.ownEntry, CasePattern.foldedEntry, CasePattern.firstEntry, CasePattern.firstEntry]
  rw [List.find?_congr fun x hx => ?_]
  have hbound := hbounds x hx
  rw [hwhens] at hx
  obtain ⟨b, hb, rfl⟩ := List.mem_map.1 hx
  exact (hparts.comparisons b hb).own_eq hfns hcalls (hparts.later b hb) hbound hsame v

/-- A null leads to the ELSE. -/
theorem ownEntry_null (hbounds : ∀ x ∈ p.whens steps, ComparesBounds steps x.1 x.2) (hsame : SameConstants steps m s) (v : Datum) :
    p.ownEntry env steps s ⟨v, true⟩ = p.endOpno := by
  have hnone : (p.whens steps).find? (fun x => x.2.ownHolds env steps s ⟨v, true⟩ x.1) = none :=
    List.find?_eq_none.2 fun x hx => by
      rw [ownHolds_null (hbounds x hx) hsame]
      exact Bool.false_ne_true
  rw [CasePattern.ownEntry, CasePattern.firstEntry, hnone]
  rfl

/-- The steps of a pattern leave what the steps leave that are entered. -/
theorem linear_of_entered (hforward : ForwardJumps steps) {pc : Nat} {s' : EvalState}
    (hrun : ReflTransGen (InterpStep env steps) (p.startOpno, s) (pc, s')) (hle : pc ≤ p.elseEndOpno) :
    p.linearResult env steps c s = (execUntil env steps p.elseEndOpno steps.length pc s').map fun s'' => s''.cells c := by
  have hsame : execUntil env steps p.elseEndOpno steps.length p.startOpno s =
      execUntil env steps p.elseEndOpno steps.length pc s' := execUntil_run hforward hrun hle (by omega) (by omega)
  rw [CasePattern.linearResult, hsame]

/-! ## Ranges of nine steps -/

/-- A range of nine steps is a WHEN before a THEN of one step. -/
theorem isWhen_of_range {i : Nat} {w : RangeWhen G} (h : IsRange fns steps m c stop i w) :
    IsWhen fns steps m stop i w ∧ ComparesBounds steps i w := by
  refine ⟨⟨h.and_, h.ordered, i + 8, by omega, h.next, h.done, fun n hn hlt hjump => ?_⟩, h.lowLeft, h.lowRight, h.highLeft, h.highRight⟩
  obtain rfl : n = i + 7 := by omega
  obtain ⟨r, hconst⟩ := h.result
  exact nomatch hconst.symm.trans hjump

/-- The WHENs of a pattern whose ranges are of nine steps stand in every ninth step. -/
theorem ranges_whens (h : p.IsRanges fns steps m c) {x : Nat × RangeWhen G} (hx : x ∈ p.whens steps) :
    ∃ k, x.1 = p.startOpno + 9 * k ∧ p.startOpno + 9 * k < p.endOpno ∧ rangeWhenAt steps (p.startOpno + 9 * k) = some x.2 := by
  rw [CasePattern.whens] at hx
  have hfrom : ∀ fuel n, x ∈ whensFrom steps p.endOpno fuel (p.startOpno + 9 * n) →
      ∃ k, x.1 = p.startOpno + 9 * k ∧ p.startOpno + 9 * k < p.endOpno ∧ rangeWhenAt steps (p.startOpno + 9 * k) = some x.2 := by
    intro fuel
    induction fuel with
    | zero => exact fun n hmem => absurd hmem List.not_mem_nil
    | succ fuel ih =>
      intro n hmem
      rcases Nat.lt_or_ge (p.startOpno + 9 * n) p.endOpno with hlt | hge
      · obtain ⟨w, hat, hrange⟩ := h.whens n hlt
        rw [whensFrom_succ hat hrange.next hlt] at hmem
        rcases List.mem_cons.1 hmem with rfl | hmem
        · exact ⟨n, rfl, hlt, hat⟩
        · exact ih (n + 1) hmem
      · rw [whensFrom, if_pos hge] at hmem
        exact absurd hmem List.not_mem_nil
  exact hfrom steps.length 0 hx

/-- Each of them is a range. -/
theorem isRange_of_mem (h : p.IsRanges fns steps m c) {x : Nat × RangeWhen G} (hx : x ∈ p.whens steps) :
    IsRange fns steps m c p.elseEndOpno x.1 x.2 := by
  obtain ⟨k, hk, hlt, hat⟩ := ranges_whens h hx
  obtain ⟨w, hw, hrange⟩ := h.whens k hlt
  obtain rfl := Option.some.inj (hat.symm.trans hw)
  rwa [hk]

/-- The THEN or the ELSE that is entered is one constant. -/
theorem reaches_entry (hforward : ForwardJumps steps) (h : p.IsRanges fns steps m c) {holds : Nat → RangeWhen G → Bool}
    {r : NullableDatum} (hop : opAt steps (p.firstEntry steps holds) = some (.const r)) (s : EvalState) :
    Reaches env steps p.elseEndOpno c (p.firstEntry steps holds) s r := by
  rw [CasePattern.firstEntry] at hop ⊢
  cases hfound : (p.whens steps).find? fun x => holds x.1 x.2 with
  | none =>
    rw [hfound] at hop
    exact reaches_const hforward hop h.default h.ends s
  | some x =>
    rw [hfound] at hop
    have hrange := isRange_of_mem h (List.mem_of_find?_eq_some hfound)
    exact reaches_const hforward hop hrange.place (.inr hrange.done) s

/-- A pattern of ranges agrees with its steps. -/
theorem agrees_of_ranges (hfns : CmpFns F T key fns addr) (hcalls : CallsCmpFns T fns addr env)
    (hp : p ∈ rangePatterns F T fns steps m) (hcompiled : CompiledRange steps c p) (h : p.IsRanges fns steps m c) :
    p.Agrees F T env steps m c (p.TypedRange fns addr steps m) := by
  intro s d hsame hload htyped
  have hforward := hcompiled.forward
  have hmeant : ∀ x ∈ p.whens steps, IsWhen fns steps m p.elseEndOpno x.1 x.2 := fun x hx =>
    (isWhen_of_range (isRange_of_mem h hx)).1
  have hbounds : ∀ x ∈ p.whens steps, ComparesBounds steps x.1 x.2 := fun x hx => (isWhen_of_range (isRange_of_mem h hx)).2
  have hwhens : ∀ x ∈ p.whens steps, CompiledWhen steps c x.1 x.2 := fun x hx => by
    obtain ⟨k, hk, hlt, hat⟩ := ranges_whens h hx
    rw [hk]
    exact hcompiled.whens k x.2 hlt hat
  obtain ⟨hle, s', hrun⟩ := range_entered hp hforward hwhens hmeant (ownBounds_of_sides hbounds) hload
  rw [linear_of_entered hforward hrun hle]
  have hconst : opAt steps (p.ownEntry env steps s d) = some (.const ⟨p.callResult F T d, false⟩) := by
    obtain ⟨v, _ | _⟩ := d
    · have htyped' : p.TypedWhens fns addr steps m v := fun x hx ty op => by
        obtain ⟨k, -, hlt, hat⟩ := ranges_whens h hx
        exact htyped rfl k x.2 ty op hlt hat
      rw [ownEntry_eq hfns hcalls hp hforward hmeant hbounds hsame v]
      exact folded_const hfns hp hforward hmeant htyped'
    · rw [ownEntry_null hbounds hsame v]
      exact default_const hp hforward hmeant
  exact reaches_entry hforward h hconst s' steps.length (by omega)

end Results

end CaseEnterAux
end PgJitter
