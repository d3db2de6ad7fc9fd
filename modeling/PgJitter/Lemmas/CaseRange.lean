import PgJitter.Lemmas.CaseEval
import PgJitter.Lib.Tiling
import PgJitter.Theorems.CaseBsearch
import Mathlib.Data.List.Find

/-!
# Helpers for `Theorems/CaseEval.lean`: the patterns of the second pass

What the second pass has checked of a pattern that it reports, its descriptor, and the constant that the helper returns: when no range
ends before it begins, it begins the THEN of the first WHEN whose comparisons are true of the value, or else the ELSE.
-/

namespace PgJitter
namespace CaseRangeAux

open LeftScan Tiling CaseDetectAux CaseEvalAux CaseBsearchAux

variable {G : Type} {steps : List (ExprEvalStep G)} {m : EvalState} {fns : CaseFuncs G} {env : ExprEnv G} {c : Cell} {stop : Nat}

/-! ## What is checked -/

/-- The WHENs of a pattern from a step on, each followed by the one that its conditional jump goes to, and the step behind them. -/
def Laid (steps : List (ExprEvalStep G)) : Nat → List (RangeBranch G) → Nat → Prop
  | i, [], e => i = e
  | i, b :: bs, e => rangeWhenAt steps i = some b.when_ ∧ b.thenStep = i + 7 ∧
    ∃ next, opAt steps (i + 6) = some (.jumpIfNotTrue next) ∧ i < next ∧ Laid steps next bs e

/-- A branch as a WHEN with its first step. -/
def whenOf (b : RangeBranch G) : Nat × RangeWhen G := (b.thenStep - 7, b.when_)

/-- The end is behind the WHENs. -/
theorem Laid.le {i e : Nat} {bs : List (RangeBranch G)} (h : Laid steps i bs e) : i ≤ e := by
  induction bs generalizing i with
  | nil => exact Nat.le_of_eq h
  | cons b bs ih =>
    obtain ⟨-, -, next, -, hlt, hrest⟩ := h
    exact Nat.le_trans (Nat.le_of_lt hlt) (ih hrest)

/-- One more WHEN. -/
theorem whensFrom_succ {e i fuel next : Nat} {w : RangeWhen G} (hat : rangeWhenAt steps i = some w)
    (hjump : opAt steps (i + 6) = some (.jumpIfNotTrue next)) (hi : i < e) :
    whensFrom steps e (fuel + 1) i = (i, w) :: whensFrom steps e fuel next := by
  rw [whensFrom, if_neg (Nat.not_le.2 hi), hat, hjump]
  rfl

/-- They are the WHENs of the pattern. -/
theorem Laid.whensFrom_eq {i e fuel : Nat} {bs : List (RangeBranch G)} (h : Laid steps i bs e) (hfuel : e ≤ i + fuel) :
    whensFrom steps e fuel i = bs.map whenOf := by
  induction bs generalizing i fuel with
  | nil =>
    obtain rfl : i = e := h
    cases fuel with
    | zero => rfl
    | succ fuel => rw [whensFrom, if_pos (Nat.le_refl i), List.map_nil]
  | cons b bs ih =>
    obtain ⟨hat, hthen, next, hjump, hlt, hrest⟩ := h
    have hle := hrest.le
    obtain ⟨k, rfl⟩ : ∃ k, fuel = k + 1 := ⟨fuel - 1, by omega⟩
    rw [whensFrom_succ hat hjump (by omega), ih hrest (by omega), List.map_cons, whenOf, hthen, Nat.add_sub_cancel]

/-- The THEN of a WHEN is behind it. -/
theorem Laid.mem {i e : Nat} {bs : List (RangeBranch G)} (h : Laid steps i bs e) :
    ∀ b ∈ bs, i + 7 ≤ b.thenStep ∧ rangeWhenAt steps (b.thenStep - 7) = some b.when_ := by
  induction bs generalizing i with
  | nil => exact fun b hb => absurd hb List.not_mem_nil
  | cons b bs ih =>
    obtain ⟨hat, hthen, next, -, hlt, hrest⟩ := h
    refine List.forall_mem_cons.2 ⟨⟨Nat.le_of_eq hthen.symm, ?_⟩, fun b' hb' => ?_⟩
    · rw [hthen, Nat.add_sub_cancel]
      exact hat
    · obtain ⟨hle, hat'⟩ := ih hrest b' hb'
      exact ⟨by omega, hat'⟩

/-- The jump that is found behind a WHEN is the one behind which its conditional jump goes. -/
theorem jump_of_isWhen {counts : Nat → Bool} {i jump : Nat} {w : RangeWhen G} (h : IsWhen fns steps m stop i w)
    (hfound : findJump steps counts maxThenSteps (i + 7) = some (jump, stop)) :
    opAt steps (i + 6) = some (.jumpIfNotTrue (jump + 1)) := by
  obtain ⟨hle, hjump, hcounts, hfirst⟩ := findJump_some hfound
  obtain ⟨last, hlast, hnext, hdone, hnone⟩ := h.then_
  rcases Nat.lt_trichotomy jump last with hlt | rfl | hlt
  · exact absurd hjump (hnone jump hle hlt)
  · exact hnext
  · exact nomatch hcounts.symm.trans (hfirst last stop hlast hlt hdone)

/-- Where the WHENs lead to is not behind the end of the CASE. -/
theorem laid_le_stop (hforward : ForwardJumps steps) {i e : Nat} {bs : List (RangeBranch G)} (hlaid : Laid steps i bs e)
    (hmeant : ∀ b ∈ bs, IsWhen fns steps m stop (b.thenStep - 7) b.when_) (hne : bs ≠ []) :
    e ≤ stop ∧ ∀ b ∈ bs, b.thenStep ≤ stop := by
  induction bs generalizing i with
  | nil => exact absurd rfl hne
  | cons b bs ih =>
    obtain ⟨-, hthen, next, hjump, -, hrest⟩ := hlaid
    have hwhen := hmeant b List.mem_cons_self
    rw [hthen, Nat.add_sub_cancel] at hwhen
    obtain ⟨last, hlast, hnext, hdone, -⟩ := hwhen.then_
    obtain rfl : next = last + 1 := EvalOp.jumpIfNotTrue.inj (Option.some.inj (hjump.symm.trans hnext))
    have hlt := jump_lt hforward hdone
    cases bs with
    | nil =>
      obtain rfl : last + 1 = e := hrest
      exact ⟨hlt, List.forall_mem_singleton.2 (by omega)⟩
    | cons b' bs =>
      obtain ⟨he, hothers⟩ := ih hrest (fun x hx => hmeant x (List.mem_cons_of_mem b hx)) (List.cons_ne_nil _ _)
      exact ⟨he, List.forall_mem_cons.2 ⟨by omega, hothers⟩⟩

/-- The WHENs that are collected, when each is followed by the one that its conditional jump goes to. -/
theorem laid_moreRanges {e : Nat} (first : RangeWhen G) (left j : Nat) {fuel : Nat}
    (he : (moreRanges fns steps m first stop left j).2 = e) (hfuel : e ≤ j + fuel)
    (h : ∀ x ∈ whensFrom steps e fuel j, IsWhen fns steps m stop x.1 x.2) :
    Laid steps j (moreRanges fns steps m first stop left j).1 e ∧
      ∀ b ∈ (moreRanges fns steps m first stop left j).1, rangeLater fns m first b.when_ = true := by
  have hnil : ∀ b ∈ ([] : List (RangeBranch G)), rangeLater fns m first b.when_ = true := fun b hb => absurd hb List.not_mem_nil
  induction left generalizing j fuel with
  | zero => exact ⟨he, hnil⟩
  | succ left ih =>
    unfold moreRanges at he ⊢
    split
    · rename_i hnone
      rw [hnone] at he
      exact ⟨he, hnil⟩
    · rename_i w hw
      rw [hw] at he
      dsimp only at he
      split
      · rename_i hlater
        rw [if_pos hlater] at he
        exact ⟨he, hnil⟩
      · rename_i hlater
        rw [if_neg hlater] at he
        split
        · rename_i hnone
          rw [hnone] at he
          exact ⟨he, hnil⟩
        · rename_i jump target hjump
          rw [hjump] at he
          dsimp only at he ⊢
          obtain ⟨hle, -, hcounts, -⟩ := findJump_some hjump
          obtain rfl : target = stop := beq_iff_eq.1 hcounts
          have hmore : jump + 1 ≤ e := he ▸ le_moreRanges fns m first target left (jump + 1)
          have hwhen : rangeWhenAt steps j = some w := by
            split at hw
            · exact hw
            · cases hw
          obtain ⟨k, rfl⟩ : ∃ k, fuel = k + 1 := ⟨fuel - 1, by omega⟩
          obtain ⟨next, hnext⟩ := (whenSteps hwhen).jump
          rw [whensFrom_succ hwhen hnext (by omega)] at h
          obtain ⟨hthis, hothers⟩ := List.forall_mem_cons.1 h
          obtain rfl : next = jump + 1 := EvalOp.jumpIfNotTrue.inj (Option.some.inj (hnext.symm.trans (jump_of_isWhen hthis hjump)))
          obtain ⟨hlaid, hchecked⟩ := ih (jump + 1) he (by omega) hothers
          refine ⟨⟨hwhen, rfl, jump + 1, hnext, by omega, hlaid⟩, List.forall_mem_cons.2 ⟨?_, hchecked⟩⟩
          exact Bool.not_eq_false _ ▸ hlater

/-- The result of a THEN that begins with a constant. -/
def thenResult (steps : List (ExprEvalStep G)) (b : RangeBranch G) : Datum :=
  (((opAt steps b.thenStep).bind EvalOp.constval).getD ⟨0, true⟩).value

/-- The results that are collected. -/
theorem constResults_some {bs : List (RangeBranch G)} {results : List Datum} (h : constResults steps bs = some results) :
    results = bs.map (thenResult steps) ∧ ∀ b ∈ bs, opAt steps b.thenStep = some (.const ⟨thenResult steps b, false⟩) := by
  induction bs generalizing results with
  | nil =>
    obtain rfl := Option.some.inj h
    exact ⟨rfl, fun b hb => absurd hb List.not_mem_nil⟩
  | cons b bs ih =>
    simp only [constResults, Option.bind_eq_bind, Option.bind_eq_some_iff] at h
    obtain ⟨k, ⟨op, hop, hconst⟩, h⟩ := h
    obtain rfl := constval_eq_some hconst
    split at h
    · cases h
    · rename_i hnull
      simp only [Option.pure_def, Option.bind_eq_some_iff, Option.some.injEq] at h
      obtain ⟨rest, hrest, rfl⟩ := h
      obtain ⟨rfl, hmem⟩ := ih hrest
      have hresult : thenResult steps b = k.value := by
        rw [thenResult, hop]
        rfl
      refine ⟨by rw [List.map_cons, hresult], List.forall_mem_cons.2 ⟨?_, hmem⟩⟩
      rw [hop, hresult, ← Bool.eq_false_iff.2 hnull]

/-! ## The bounds -/

/-- The first number after a range, by its bound. -/
def upperOf (inclusive : Bool) (hi : Int) : Int := if inclusive then hi + 1 else hi

/-- The types of the ranges. -/
theorem rangeBound_some {ty : CaseBSearchType} {d : Datum} {x : Int} (h : rangeBound ty d = some x) : ty.CanRange := by
  cases ty <;> first | exact True.intro | cases h

/-- A value of such a type has a bound. -/
theorem exists_rangeBound {ty : CaseBSearchType} (h : ty.CanRange) (d : Datum) : ∃ x, rangeBound ty d = some x := by
  cases ty <;> first | exact ⟨_, rfl⟩ | exact h.elim

/-- The next word, where there is one. -/
theorem toInt_succ {w : Nat} {a : BitVec w} (hone : (1 : BitVec w).toInt = 1) (h : a.toInt < 2 ^ (w - 1) - 1) :
    (a + 1).toInt = a.toInt + 1 := by
  have hlow := BitVec.le_toInt a
  rw [BitVec.toInt_add_of_not_saddOverflow, hone]
  rw [BitVec.saddOverflow, hone, Bool.or_eq_true, decide_eq_true_iff, decide_eq_true_iff]
  omega

/-- A stored threshold is the number after the range, which there is. -/
theorem toInt_rangeThreshold {ty : CaseBSearchType} {inclusive : Bool} {d : Datum} {hi : Int} (hd : rangeBound ty d = some hi)
    (hfits : inclusive = true → caseRangeUpperSentinelRepresentable ty d = true) :
    (rangeThreshold inclusive ty d).toInt = upperOf inclusive hi := by
  cases inclusive with
  | false =>
    cases ty with
    | i32 | i64 | i16 =>
      obtain rfl := Option.some.inj hd
      rfl
    | _ => cases hd
  | true =>
    have hfits := hfits rfl
    cases ty with
    | i32 =>
      obtain rfl := Option.some.inj hd
      have hlt : (low32 d).toInt < 2 ^ 31 - 1 := of_decide_eq_true hfits
      exact toInt_succ (w := 32) (by decide) hlt
    | i64 =>
      obtain rfl := Option.some.inj hd
      have hlt : d.toInt < 2 ^ 63 - 1 := of_decide_eq_true hfits
      exact toInt_succ (w := 64) (by decide) hlt
    | i16 =>
      obtain rfl := Option.some.inj hd
      have hle : (castInt16 (low32 d)).toInt < 2 ^ 31 - 1 := by
        rw [toInt_castInt16]
        have hbound := BitVec.toInt_lt (x := (low32 d).setWidth 16)
        omega
      exact toInt_succ (w := 32) (by decide) hle
    | _ => cases hd

/-! ## Patterns -/

section Parts

variable {α β : Type} [LinearOrder α] [LinearOrder β] {F : FloatFormats α β} {T : PgText}

/-- What a pattern of the second pass is made of: its WHENs, the first one included, and the ELSE at the step `e`. -/
structure Parts (fns : CaseFuncs G) (steps : List (ExprEvalStep G)) (m : EvalState) (i e : Nat) (first : RangeWhen G)
    (bs : List (RangeBranch G)) (ty : CaseBSearchType) (inclusive : Bool) (default : Datum) : Prop where
  checks : rangeFirst fns m first = some (ty, inclusive)
  laid : Laid steps i bs e
  later : ∀ b ∈ bs, rangeLater fns m first b.when_ = true
  start : ∃ rest, bs = ⟨first, i + 7⟩ :: rest
  long : 1 < bs.length
  contiguous : contiguous m ty inclusive bs = true
  default : opAt steps e = some (.const ⟨default, false⟩)
  results : ∀ b ∈ bs, opAt steps b.thenStep = some (.const ⟨thenResult steps b, false⟩)

/-- The branches of the descriptor of such a pattern. -/
def rangePairs (steps : List (ExprEvalStep G)) (m : EvalState) (ty : CaseBSearchType) (inclusive : Bool) (bs : List (RangeBranch G)) :
    List (BitVec ty.width × Datum) :=
  bs.map fun b => (rangeThreshold inclusive ty (b.high m), thenResult steps b)

/-- A first WHEN passes the checks of a later one. -/
theorem rangeLater_first {first : RangeWhen G} {ty : CaseBSearchType} {inclusive : Bool} (hvar : first.load.isVar = true)
    (h : rangeFirst fns m first = some (ty, inclusive)) : rangeLater fns m first first = true := by
  have hself : sameVar first.load first.load = true := by
    cases hop : first.load <;> rw [hop] at hvar <;> first | exact absurd hvar Bool.false_ne_true | simp [sameVar]
  rw [rangeFirst] at h
  split at h
  · rename_i hsame
    split at h
    · split at h
      · rename_i hchecks
        simp only [Bool.and_eq_true] at hchecks
        simp [rangeLater, hself, hsame, hchecks.2]
      · cases h
    · cases h
  · cases h

/-- A pattern that the second pass reports, when each of its WHENs is followed by the one that its conditional jump goes to. -/
theorem range_parts {p : CasePattern} (hp : p ∈ rangePatterns F T fns steps m) (hforward : ForwardJumps steps)
    (hmeant : ∀ x ∈ p.whens steps, IsWhen fns steps m p.elseEndOpno x.1 x.2) :
    ∃ i e first bs ty inclusive default, Parts fns steps m i e first bs ty inclusive default ∧
      p = ⟨i, e, p.elseEndOpno, ⟨ty, false, true, false⟩,
        CaseBSearchDesc.ofBranches (fns.fn 0) none 0 default (some (m.threshold first.lowFcinfo).value)
          (rangePairs steps m ty inclusive bs)⟩ := by
  have hlook := (mem_scan (range_advances hforward _) hp).2.2
  unfold rangeLook at hlook
  split at hlook
  · exact nomatch hlook
  · rename_i first ty inclusive jump done hfirst
    obtain ⟨w, hwhen, hrest⟩ := Option.bind_eq_some_iff.1 hfirst
    obtain ⟨⟨ty', inclusive'⟩, hchecks, hrest⟩ := Option.bind_eq_some_iff.1 hrest
    obtain ⟨⟨s, t⟩, hjump, heq⟩ := Option.map_eq_some_iff.1 hrest
    cases heq
    dsimp only at hlook
    split at hlook
    · exact nomatch hlook
    · rename_i hlong
      split at hlook
      · exact nomatch hlook
      · rename_i hcontiguous
        split at hlook
        · exact nomatch hlook
        · rename_i k hk
          split at hlook
          · exact nomatch hlook
          · rename_i hnull
            split at hlook
            · exact nomatch hlook
            · rename_i results hresults
              obtain ⟨hfound, hdone⟩ := Look.found.inj hlook
              subst hdone
              obtain ⟨hle, -⟩ := findJump_some hjump
              generalize he : (moreRanges fns steps m first p.elseEndOpno (maxRangeBranches - 1) (jump + 1)).2 = e at hfound hk
              have hmore : jump + 1 ≤ e := he ▸ le_moreRanges fns m first p.elseEndOpno (maxRangeBranches - 1) (jump + 1)
              obtain rfl : e = p.endOpno := congrArg CasePattern.endOpno hfound
              obtain ⟨op, hop, hconst⟩ := Option.bind_eq_some_iff.1 hk
              obtain rfl := constval_eq_some hconst
              obtain ⟨step, hstep, -⟩ := Option.map_eq_some_iff.1 hop
              obtain ⟨hin, -⟩ := List.getElem?_eq_some_iff.1 hstep
              -- the conditional jump of the first WHEN goes to the second one
              obtain ⟨n, hn⟩ : ∃ n, steps.length = n + 1 := ⟨steps.length - 1, by omega⟩
              obtain ⟨next, hnext⟩ := (whenSteps hwhen).jump
              rw [CasePattern.whens, hn, whensFrom_succ hwhen hnext (by omega)] at hmeant
              obtain ⟨hthis, hothers⟩ := List.forall_mem_cons.1 hmeant
              obtain rfl : next = jump + 1 :=
                EvalOp.jumpIfNotTrue.inj (Option.some.inj (hnext.symm.trans (jump_of_isWhen hthis hjump)))
              obtain ⟨hlaid, hchecked⟩ := laid_moreRanges first (maxRangeBranches - 1) (jump + 1) he (by omega) hothers
              obtain ⟨rfl, hthens⟩ := constResults_some hresults
              refine ⟨p.startOpno, p.endOpno, first, _, ty, inclusive, k.value, ⟨hchecks, ?_, ?_, ⟨_, rfl⟩, ?_,
                Bool.not_eq_false _ ▸ hcontiguous, ?_, hthens⟩, hfound.symm.trans ?_⟩
              · exact ⟨hwhen, rfl, jump + 1, hnext, by omega, hlaid⟩
              · exact List.forall_mem_cons.2 ⟨rangeLater_first (whenSteps hwhen).isVar hchecks, hchecked⟩
              · rw [caseBsearchMinBranches] at hlong
                omega
              · rw [hop, ← Bool.eq_false_iff.2 hnull]
              · rw [rangePairs, List.zip_map']

end Parts

/-! ## The comparisons of the ranges -/

section Tests

variable {α β : Type} [LinearOrder α] [LinearOrder β] {F : FloatFormats α β} {T : PgText} {K : Type} [LinearOrder K]
  {key : CmpType → Nat → Datum → K} {addr : CmpType → CaseCmp → Nat} {first w : RangeWhen G} {ty : CaseBSearchType} {inclusive : Bool}

/-- The comparison of two values of such a type is that of their numbers. -/
theorem compares_bound {cty : CmpType} {op : CaseCmp} {coll : Nat} {a b : Datum} {x y : Int} (hty : cty.bsType = ty)
    (ha : cty.IsValue a) (hb : cty.IsValue b) (hx : rangeBound ty a = some x) (hy : rangeBound ty b = some y) :
    cty.Compares F key op coll a b ↔ op.Rel x y := by
  cases ty with
  | i32 =>
    obtain rfl := Option.some.inj hx
    obtain rfl := Option.some.inj hy
    exact compares_i32 hty
  | i64 =>
    obtain rfl := Option.some.inj hx
    obtain rfl := Option.some.inj hy
    exact compares_i64 hty ha hb
  | i16 =>
    obtain rfl := Option.some.inj hx
    obtain rfl := Option.some.inj hy
    exact compares_i16 hty
  | _ => cases hx

/-- The operator of an upper bound, by the first number after the range. -/
theorem rel_upper {op : CaseCmp} (hop : op.isLess = true) (x y : Int) : op.Rel x y ↔ x < upperOf op.isInclusive y := by
  cases op with
  | lt => exact Iff.rfl
  | le => exact Int.lt_add_one_iff.symm
  | _ => cases hop

/-- The comparisons of a WHEN: `>=`, and `<` or `<=`, of one type. -/
structure Comparisons (fns : CaseFuncs G) (ty : CaseBSearchType) (inclusive : Bool) (w : RangeWhen G) : Prop where
  low : fns.classify (fns.addr w.lowFn) = some (ty, .ge)
  high : ∃ op, fns.classify (fns.addr w.highFn) = some (ty, op) ∧ op.isLess = true ∧ op.isInclusive = inclusive

/-- Those of the first WHEN. -/
theorem comparisons_first (h : rangeFirst fns m first = some (ty, inclusive)) : Comparisons fns ty inclusive first := by
  rw [rangeFirst] at h
  split at h
  · split at h
    · rename_i lowType highType op hlow hhigh
      split at h
      · rename_i hchecks
        simp only [Bool.and_eq_true, beq_iff_eq] at hchecks
        obtain ⟨⟨hless, rfl⟩, -⟩ := hchecks
        obtain ⟨rfl, rfl⟩ := Prod.mk.inj (Option.some.inj h)
        exact ⟨hlow, op, hhigh, hless, rfl⟩
      · cases h
    · cases h
  · cases h

/-- What is checked of a later WHEN. -/
theorem rangeLater_true (h : rangeLater fns m first w = true) : w.load = first.load ∧ w.highLoad = first.load ∧
    fns.addr w.lowFn = fns.addr first.lowFn ∧ fns.addr w.highFn = fns.addr first.highFn ∧
    (m.threshold w.lowFcinfo).isnull = false ∧ (m.threshold w.highFcinfo).isnull = false := by
  simp only [rangeLater, RangeWhen.bounded, Bool.and_eq_true, beq_iff_eq, Bool.not_eq_true'] at h
  obtain ⟨⟨⟨⟨hload, hhigh⟩, hlowAddr⟩, hhighAddr⟩, hlowNull, hhighNull⟩ := h
  exact ⟨eq_of_sameVar hload, eq_of_sameVar hhigh, hlowAddr, hhighAddr, hlowNull, hhighNull⟩

/-- Those of a later WHEN. -/
theorem Comparisons.later (h : Comparisons fns ty inclusive first) (hlater : rangeLater fns m first w = true) :
    Comparisons fns ty inclusive w := by
  obtain ⟨-, -, hlow, hhigh, -⟩ := rangeLater_true hlater
  exact ⟨hlow ▸ h.low, hhigh ▸ h.high⟩

/-- Where a range begins. -/
def lowOf (m : EvalState) (ty : CaseBSearchType) (w : RangeWhen G) : Int := (rangeBound ty (m.threshold w.lowFcinfo).value).getD 0

/-- The first number after a range. -/
def highOf (m : EvalState) (ty : CaseBSearchType) (inclusive : Bool) (w : RangeWhen G) : Int :=
  upperOf inclusive ((rangeBound ty (m.threshold w.highFcinfo).value).getD 0)

/-- The bounds of such a WHEN. -/
theorem Comparisons.bounds (h : Comparisons fns ty inclusive w) (hty : ty.CanRange) :
    w.lower fns m = some (lowOf m ty w) ∧ w.upper fns m = some (highOf m ty inclusive w) := by
  obtain ⟨op, hhigh, -, rfl⟩ := h.high
  obtain ⟨lo, hlo⟩ := exists_rangeBound hty (m.threshold w.lowFcinfo).value
  obtain ⟨hi, hhi⟩ := exists_rangeBound hty (m.threshold w.highFcinfo).value
  constructor
  · rw [RangeWhen.lower, h.low, Option.bind_some, lowOf, hlo]
    rfl
  · rw [RangeWhen.upper, hhigh, Option.bind_some, highOf, hhi]
    rfl

/-- Such a WHEN is true of a value when its number lies in the range. -/
theorem Comparisons.holds_iff (h : Comparisons fns ty inclusive w) (hfns : CmpFns F T key fns addr) {v : Datum} {x : Int}
    (hx : rangeBound ty v = some x)
    (hlowTyped : ∀ cty op, fns.addr w.lowFn = addr cty op → cty.IsValue v ∧ cty.IsValue (m.threshold w.lowFcinfo).value)
    (hhighTyped : ∀ cty op, fns.addr w.highFn = addr cty op → cty.IsValue v ∧ cty.IsValue (m.threshold w.highFcinfo).value) :
    w.foldedHolds T fns m v = true ↔ lowOf m ty w ≤ x ∧ x < highOf m ty inclusive w := by
  obtain ⟨op, hhigh, hless, rfl⟩ := h.high
  have hty := rangeBound_some hx
  obtain ⟨lo, hlo⟩ := exists_rangeBound hty (m.threshold w.lowFcinfo).value
  obtain ⟨hi, hhi⟩ := exists_rangeBound hty (m.threshold w.highFcinfo).value
  obtain ⟨lowType, hlowAddr, hlowType⟩ := classify_some hfns h.low
  obtain ⟨highType, hhighAddr, hhighType⟩ := classify_some hfns hhigh
  obtain ⟨hv, ht⟩ := hlowTyped lowType .ge hlowAddr
  obtain ⟨hv', ht'⟩ := hhighTyped highType op hhighAddr
  rw [RangeWhen.foldedHolds, Bool.and_eq_true, hlowAddr, hhighAddr, hfns.compares, hfns.compares, compares_bound hlowType hv ht hx hlo,
    compares_bound hhighType hv' ht' hx hhi, rel_upper hless, lowOf, hlo, highOf, hhi]
  exact Iff.rfl

/-- The WHEN's own comparisons, of the variable on the left and constants on the right, are the folded ones. -/
theorem Comparisons.own_eq (h : Comparisons fns ty inclusive w) (hfns : CmpFns F T key fns addr) (hcalls : CallsCmpFns T fns addr env)
    (hlater : rangeLater fns m first w = true) {i : Nat} (hbounds : ComparesBounds steps i w) {s : EvalState}
    (hsame : SameConstants steps m s) (v : Datum) : w.ownHolds env steps s ⟨v, false⟩ i = w.foldedHolds T fns m v := by
  obtain ⟨op, hhigh, -, -⟩ := h.high
  obtain ⟨lowType, hlowAddr, -⟩ := classify_some hfns h.low
  obtain ⟨highType, hhighAddr, -⟩ := classify_some hfns hhigh
  obtain ⟨-, -, -, -, hlowNull, hhighNull⟩ := rangeLater_true hlater
  rw [RangeWhen.ownHolds, loadedArgs_eq hsame hbounds.lowLeft hbounds.lowRight, loadedArgs_eq hsame hbounds.highLeft hbounds.highRight,
    callsTrue_cmp hcalls hlowAddr hlowNull, callsTrue_cmp hcalls hhighAddr hhighNull, RangeWhen.foldedHolds]

/-- They are not true of a null. -/
theorem ownHolds_null {i : Nat} (hbounds : ComparesBounds steps i w) {s : EvalState} (hsame : SameConstants steps m s) (v : Datum) :
    w.ownHolds env steps s ⟨v, true⟩ i = false := by
  rw [RangeWhen.ownHolds, loadedArgs_eq hsame hbounds.lowLeft hbounds.lowRight]
  rfl

end Tests

/-! ## The ranges of a pattern -/

/-- What is checked of the bounds of the ranges. -/
theorem contiguous_true {ty : CaseBSearchType} {inclusive : Bool} {bs : List (RangeBranch G)}
    (h : contiguous m ty inclusive bs = true) :
    (∀ x ∈ bs.zip bs.tail, ty.CanRange ∧ highOf m ty inclusive x.1.when_ = lowOf m ty x.2.when_) ∧
      (inclusive = true → ∀ b ∈ bs, caseRangeUpperSentinelRepresentable ty (b.high m) = true) := by
  rw [contiguous, Bool.and_eq_true, List.all_eq_true] at h
  obtain ⟨hneighbours, hfits⟩ := h
  refine ⟨fun x hx => ?_, fun hinclusive b hb => ?_⟩
  · have hx := hneighbours x hx
    dsimp only at hx
    split at hx
    · rename_i hi lo hhi hlo
      rw [Bool.and_eq_true, beq_iff_eq] at hx
      refine ⟨rangeBound_some hhi, ?_⟩
      rw [highOf, lowOf, upperOf]
      rw [RangeBranch.high] at hhi
      rw [RangeBranch.low] at hlo
      rw [hhi, hlo]
      exact hx.2
    · cases hx
  · rw [hinclusive, Bool.not_true, Bool.false_or, List.all_eq_true] at hfits
    exact hfits b hb

section Pattern

variable {α β : Type} [LinearOrder α] [LinearOrder β] {F : FloatFormats α β} {T : PgText} {i e : Nat} {first : RangeWhen G}
  {bs : List (RangeBranch G)} {ty : CaseBSearchType} {inclusive : Bool} {default : Datum}

/-- The type of a pattern is one of the three. -/
theorem Parts.canRange (h : Parts fns steps m i e first bs ty inclusive default) : ty.CanRange := by
  obtain ⟨rest, rfl⟩ := h.start
  cases rest with
  | nil => exact absurd h.long (Nat.lt_irrefl 1)
  | cons b rest => exact ((contiguous_true h.contiguous).1 (⟨first, i + 7⟩, b) List.mem_cons_self).1

/-- The comparisons of the branches. -/
theorem Parts.comparisons (h : Parts fns steps m i e first bs ty inclusive default) :
    ∀ b ∈ bs, Comparisons fns ty inclusive b.when_ := fun b hb =>
  (comparisons_first h.checks).later (h.later b hb)

/-- No range of a pattern ends before it begins. -/
def Ordered (fns : CaseFuncs G) (m : EvalState) (bs : List (RangeBranch G)) : Prop :=
  ∀ b ∈ bs, ∀ lo hi, b.when_.lower fns m = some lo → b.when_.upper fns m = some hi → lo ≤ hi

/-- The ranges tile the numbers from the lower bound of the first one on, when none ends before it begins. -/
theorem Parts.tiles (h : Parts fns steps m i e first bs ty inclusive default) (hordered : Ordered fns m bs) :
    Tiles (fun b : RangeBranch G => lowOf m ty b.when_) (fun b => highOf m ty inclusive b.when_) (lowOf m ty first) bs := by
  have hranges : ∀ b ∈ bs, lowOf m ty b.when_ ≤ highOf m ty inclusive b.when_ := fun b hb => by
    obtain ⟨hlo, hhi⟩ := (h.comparisons b hb).bounds (m := m) h.canRange
    exact hordered b hb _ _ hlo hhi
  have hneighbours := (contiguous_true h.contiguous).1
  obtain ⟨rest, rfl⟩ := h.start
  exact tiles_of_zip hranges fun x hx => (hneighbours x hx).2

/-- The thresholds are the numbers after the ranges. -/
theorem Parts.thresholds (h : Parts fns steps m i e first bs ty inclusive default) :
    ∀ b ∈ bs, (rangeThreshold inclusive ty (b.high m)).toInt = highOf m ty inclusive b.when_ := by
  intro b hb
  obtain ⟨hi, hhi⟩ := exists_rangeBound h.canRange (b.high m)
  rw [toInt_rangeThreshold hhi fun hinclusive => (contiguous_true h.contiguous).2 hinclusive b hb, highOf]
  rw [RangeBranch.high] at hhi
  rw [hhi]
  rfl

/-- The check of a range of an `int2`, in the words of the helper. -/
theorem below_i16 {desc : CaseBSearchDesc 32} {val : BitVec 32} (h : desc.hasRangeMin = true) :
    (castInt16 val).toInt < (castInt16 (low32 desc.rangeMin)).toInt ↔ CaseBSearchType.i16.BelowRange desc val := by
  rw [← check_i16, h, Bool.true_and, BitVec.slt_iff_toInt_lt]

/-- What the helper returns over sorted thresholds: the default below the least number, and from there on the result of the first
threshold above the number. -/
theorem helper_range {cmpFn : CaseCmpFn} {pairs : List (BitVec ty.width × Datum)} {low v : Datum} {x a : Int}
    (hx : rangeBound ty v = some x) (ha : rangeBound ty low = some a) (hsorted : pairs.Pairwise fun p q => p.1.toInt ≤ q.1.toInt) :
    (x < a → bsearchHelperTable F T ty .lt (helperVal ty v)
      (CaseBSearchDesc.ofBranches cmpFn none 0 default (some low) pairs) = default) ∧
    (a ≤ x → CaseResult (fun t => x < t.toInt) pairs default (bsearchHelperTable F T ty .lt (helperVal ty v)
      (CaseBSearchDesc.ofBranches cmpFn none 0 default (some low) pairs))) := by
  have hthresholds : ∀ i j, i < j → j < (CaseBSearchDesc.ofBranches cmpFn none 0 default (some low) pairs).n →
      CaseCmp.lt.Before (fun t u => t.toInt ≤ u.toInt)
        ((CaseBSearchDesc.ofBranches cmpFn none 0 default (some low) pairs).thresholds i)
        ((CaseBSearchDesc.ofBranches cmpFn none 0 default (some low) pairs).thresholds j) := fun i j hij hj =>
    thresholds_ofBranches (R := fun t u => t.toInt ≤ u.toInt) hsorted hij hj
  have hresult := fun r (h : Searches (CaseBSearchDesc.ofBranches cmpFn none 0 default (some low) pairs) .lt x BitVec.toInt r) =>
    h.result_of_monotone (by decide) hthresholds
  simp only [branches_ofBranches] at hresult
  cases ty with
  | i32 =>
    obtain rfl := Option.some.inj hx
    obtain rfl := Option.some.inj ha
    have hcheck : CaseBSearchType.i32.BelowRange (CaseBSearchDesc.ofBranches cmpFn none 0 default (some low) pairs) (low32 v) ↔
        (low32 v).toInt < (low32 low).toInt := ⟨fun h => h.2, fun h => ⟨rfl, h⟩⟩
    exact ⟨fun hlt => if_pos (check_i32.2 (hcheck.2 hlt)),
      fun hle => hresult _ (searches_i32 F T .lt fun h => hle.not_gt (hcheck.1 h))⟩
  | i64 =>
    obtain rfl := Option.some.inj hx
    obtain rfl := Option.some.inj ha
    have hcheck : CaseBSearchType.i64.BelowRange (CaseBSearchDesc.ofBranches cmpFn none 0 default (some low) pairs) v ↔
        v.toInt < low.toInt := ⟨fun h => h.2, fun h => ⟨rfl, h⟩⟩
    exact ⟨fun hlt => if_pos (check_i64.2 (hcheck.2 hlt)),
      fun hle => hresult _ (searches_i64 F T .lt fun h => hle.not_gt (hcheck.1 h))⟩
  | i16 =>
    obtain rfl := Option.some.inj hx
    obtain rfl := Option.some.inj ha
    have hcheck := @below_i16 (CaseBSearchDesc.ofBranches cmpFn none 0 default (some low) pairs) (low32 v) rfl
    exact ⟨fun hlt => if_pos (check_i16.2 (hcheck.1 hlt)),
      fun hle => hresult _ (searches_i16 F T .lt fun h => hle.not_gt (hcheck.2 h))⟩
  | _ => cases hx

/-- The helper finds the range that holds a number. -/
theorem helper_find (h : Parts fns steps m i e first bs ty inclusive default) (hordered : Ordered fns m bs) {v : Datum} {x : Int}
    (hx : rangeBound ty v = some x) (cmpFn : CaseCmpFn) :
    bsearchHelperTable F T ty .lt (helperVal ty v) (CaseBSearchDesc.ofBranches cmpFn none 0 default
        (some (m.threshold first.lowFcinfo).value) (rangePairs steps m ty inclusive bs)) =
      ((bs.find? fun b : RangeBranch G => lowOf m ty b.when_ ≤ x ∧ x < highOf m ty inclusive b.when_).map
        (thenResult steps)).getD default := by
  have htiles := h.tiles hordered
  obtain ⟨lo, hlo⟩ := exists_rangeBound h.canRange (m.threshold first.lowFcinfo).value
  have hlow : lowOf m ty first = lo := by rw [lowOf, hlo, Option.getD_some]
  have hsorted : (rangePairs steps m ty inclusive bs).Pairwise fun p q => p.1.toInt ≤ q.1.toInt := by
    refine List.pairwise_map.2 (htiles.pairwise_hi.imp_of_mem fun hb hb' hle => ?_)
    rwa [h.thresholds _ hb, h.thresholds _ hb']
  obtain ⟨hbelow, habove⟩ := helper_range (F := F) (T := T) hx hlo hsorted
  rcases lt_or_ge x lo with hlt | hle
  · rw [hbelow hlt, htiles.find_below (hlow ▸ hlt)]
    rfl
  · rw [htiles.find_above (hlow ▸ hle)]
    exact caseResult_find (fun b hb => by rw [decide_eq_true_iff, h.thresholds b hb]) (habove hle)

/-- The first step of the THEN of the first branch that is found, or else of the ELSE. -/
def entryOf (found : RangeBranch G → Bool) (bs : List (RangeBranch G)) (e : Nat) : Nat :=
  ((bs.find? found).map RangeBranch.thenStep).getD e

/-- The folded comparisons lead to a THEN or an ELSE that begins with the constant that the helper returns. -/
theorem const_of_parts {K : Type} [LinearOrder K] {key : CmpType → Nat → Datum → K} {addr : CmpType → CaseCmp → Nat}
    (hfns : CmpFns F T key fns addr) (h : Parts fns steps m i e first bs ty inclusive default) (hordered : Ordered fns m bs) {v : Datum}
    (htyped : ∀ b ∈ bs, ∀ cty op,
      (fns.addr b.when_.lowFn = addr cty op → cty.IsValue v ∧ cty.IsValue (m.threshold b.when_.lowFcinfo).value) ∧
        (fns.addr b.when_.highFn = addr cty op → cty.IsValue v ∧ cty.IsValue (m.threshold b.when_.highFcinfo).value))
    (cmpFn : CaseCmpFn) :
    opAt steps (entryOf (fun b => b.when_.foldedHolds T fns m v) bs e) = some (.const
      ⟨bsearchHelperTable F T ty .lt (helperVal ty v) (CaseBSearchDesc.ofBranches cmpFn none 0 default
        (some (m.threshold first.lowFcinfo).value) (rangePairs steps m ty inclusive bs)), false⟩) := by
  obtain ⟨x, hx⟩ := exists_rangeBound h.canRange v
  have hsame : bs.find? (fun b => b.when_.foldedHolds T fns m v) =
      bs.find? fun b : RangeBranch G => lowOf m ty b.when_ ≤ x ∧ x < highOf m ty inclusive b.when_ := by
    refine List.find?_congr fun b hb => ?_
    have hiff := (h.comparisons b hb).holds_iff (T := T) hfns hx (fun cty op => (htyped b hb cty op).1) fun cty op => (htyped b hb cty op).2
    rw [Bool.eq_iff_iff, hiff, decide_eq_true_iff]
  rw [helper_find h hordered hx, entryOf, hsame]
  cases hfound : bs.find? fun b : RangeBranch G => lowOf m ty b.when_ ≤ x ∧ x < highOf m ty inclusive b.when_ with
  | none => exact h.default
  | some b => exact h.results b (List.mem_of_find?_eq_some hfound)

end Pattern

end CaseRangeAux
end PgJitter
