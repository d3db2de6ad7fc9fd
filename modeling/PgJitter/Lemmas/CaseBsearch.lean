import PgJitter.CaseBsearch
import PgJitter.Lemmas.FloatCmp
import Mathlib.Data.List.Lex

/-!
# Helpers for `Theorems/CaseBsearch.lean`: the two loops over a sorted array

For each loop, what it returns when the test of a threshold is a relation of keys in a linear order and the keys stand in that order.
What is left for a helper is that its test is such a relation.
-/

namespace PgJitter
namespace CaseBsearchAux

open BinarySearch

variable {w : Nat} {desc : CaseBSearchDesc w}

/-! ## Results -/

/-- A branch of the descriptor. -/
theorem mem_branches {b : BitVec w × Datum} : b ∈ desc.branches ↔ ∃ k < desc.n, b = (desc.thresholds k, desc.results k) := by
  simp only [CaseBSearchDesc.branches, List.mem_map, List.mem_range]
  exact exists_congr fun k => and_congr_right fun _ => eq_comm

/-- The result of the first branch at which the comparison holds. -/
theorem caseResult_of_isFirst {holds : BitVec w → Prop} {k : Nat} (hk : k < desc.n) (hhere : holds (desc.thresholds k))
    (hbefore : ∀ i < k, ¬ holds (desc.thresholds i)) : CaseResult holds desc.branches desc.defaultVal (desc.results k) := by
  refine .inl ⟨(List.range k).map fun k => (desc.thresholds k, desc.results k), desc.thresholds k,
    desc.branches.drop (k + 1), ?_, hhere, ?_⟩
  · have htake : desc.branches.take k = (List.range k).map fun k => (desc.thresholds k, desc.results k) := by
      rw [CaseBSearchDesc.branches, ← List.map_take, List.take_range, Nat.min_eq_left hk.le]
    have hlen : k < desc.branches.length := by simpa [CaseBSearchDesc.branches] using hk
    have hget : desc.branches[k] = (desc.thresholds k, desc.results k) := by simp [CaseBSearchDesc.branches]
    rw [← htake, ← hget, List.cons_getElem_drop_succ, List.take_append_drop]
  · intro b hb
    obtain ⟨i, hi, rfl⟩ := List.mem_map.1 hb
    exact hbefore i (List.mem_range.1 hi)

/-- The default, when the comparison holds at no branch. -/
theorem caseResult_default {holds : BitVec w → Prop} (h : ∀ k < desc.n, ¬ holds (desc.thresholds k)) :
    CaseResult holds desc.branches desc.defaultVal desc.defaultVal := by
  refine .inr ⟨fun b hb => ?_, rfl⟩
  obtain ⟨k, hk, rfl⟩ := mem_branches.1 hb
  exact h k hk

/-- Only what the comparison says of the thresholds counts. -/
theorem caseResult_congr {holds holds' : BitVec w → Prop} {branches : List (BitVec w × Datum)} {default r : Datum}
    (h : ∀ t, holds t ↔ holds' t) : CaseResult holds branches default r ↔ CaseResult holds' branches default r := by
  have heq : holds = holds' := funext fun t => propext (h t)
  rw [heq]

/-- When at most one branch can hold, the order of the branches does not count. -/
theorem caseResult_perm {holds : BitVec w → Prop} {l branches : List (BitVec w × Datum)} {default r : Datum}
    (hperm : l.Perm branches) (hunique : ∀ b ∈ l, ∀ b' ∈ l, holds b.1 → holds b'.1 → b = b')
    (h : CaseResult holds l default r) : CaseResult holds branches default r := by
  rcases h with ⟨pre, t, rest, rfl, ht, _⟩ | ⟨hnone, rfl⟩
  · have hmem : (t, r) ∈ branches := hperm.mem_iff.1 (by simp)
    -- the first of the branches that hold, which is the only one
    obtain ⟨pre', rest', hsplit, hpre⟩ := List.eq_append_cons_of_mem hmem
    refine .inl ⟨pre', t, rest', hsplit, ht, fun b hb hholds => hpre ?_⟩
    have hbmem : b ∈ branches := by rw [hsplit]; exact List.mem_append_left _ hb
    rwa [← hunique b (hperm.mem_iff.2 hbmem) (t, r) (by simp) hholds ht]
  · exact .inr ⟨fun b hb => hnone b (hperm.mem_iff.2 hb), rfl⟩

/-! ## The loop over `[lo, hi)` -/

/-- The loop returns the result of the first threshold that passes, when those after it pass too. -/
theorem bsearchBody_result {test : BitVec w → Bool} (hup : UpClosed (fun k => test (desc.thresholds k)) desc.n) :
    CaseResult (fun t => test t = true) desc.branches desc.defaultVal (desc.bsearchBody test) := by
  have hfirst := isFirst_lowerBound hup
  unfold CaseBSearchDesc.bsearchBody
  dsimp only
  split
  · rename_i hlt
    refine caseResult_of_isFirst hlt (hfirst.here hlt) fun i hi => ?_
    rw [hfirst.before i hi]
    exact Bool.false_ne_true
  · rename_i hge
    refine caseResult_default fun k hk => ?_
    rw [hfirst.before k (Nat.lt_of_lt_of_le hk (Nat.le_of_not_lt hge))]
    exact Bool.false_ne_true

section Keys

variable {K : Type} [LinearOrder K]

/-- A relation that holds at a threshold holds at those after it. -/
theorem rel_of_before {op : CaseCmp} (hop : op ≠ .eq) {a b c : K} (h : op.Rel a b) (hbc : op.Before (· ≤ ·) b c) : op.Rel a c := by
  cases op with
  | eq => exact absurd rfl hop
  | lt => exact lt_of_lt_of_le h hbc
  | le => exact le_trans h hbc
  | gt => exact lt_of_le_of_lt hbc h
  | ge => exact le_trans hbc h

/-- Where one threshold may stand before another one, it may also be equal. -/
theorem before_le_of_lt {op : CaseCmp} {kt : BitVec w → K} {t u : BitVec w} (h : op.Before (fun t u => kt t < kt u) t u) :
    op.Before (fun t u => kt t ≤ kt u) t u := by
  cases op <;> exact le_of_lt h

/-- The loop of an inequality: its test is the operator in the order of the keys. -/
theorem bsearchBody_of_key {op : CaseCmp} (hop : op ≠ .eq) (kv : K) (kt : BitVec w → K) {test : BitVec w → Bool}
    (htest : ∀ t, test t = true ↔ op.Rel kv (kt t))
    (hsorted : ∀ i j, i < j → j < desc.n → op.Before (fun t u => kt t ≤ kt u) (desc.thresholds i) (desc.thresholds j)) :
    CaseResult (fun t => op.Rel kv (kt t)) desc.branches desc.defaultVal (desc.bsearchBody test) := by
  refine (caseResult_congr htest).1 (bsearchBody_result fun i j hij hj hi => ?_)
  rcases Nat.eq_or_lt_of_le hij with rfl | hlt
  · exact hi
  · have hbefore := hsorted i j hlt hj
    rw [htest] at hi ⊢
    refine rel_of_before hop hi ?_
    cases op <;> exact hbefore

/-! ## The loop over `[lo, hi]` -/

/-- A three-way comparison of the value with a threshold, by the keys. -/
structure Compares (kv : K) (kt : BitVec w → K) (cmp : BitVec w → Ordering) : Prop where
  eq : ∀ t, cmp t = .eq ↔ kv = kt t
  gt : ∀ t, cmp t = .gt ↔ kt t < kv

/-- A value that is not below a threshold is above those before it. -/
theorem increasing_of_sorted {kv : K} {kt : BitVec w → K} {cmp : BitVec w → Ordering} (h : Compares kv kt cmp)
    (hsorted : ∀ i j, i < j → j < desc.n → kt (desc.thresholds i) < kt (desc.thresholds j)) :
    Increasing (fun mid => cmp (desc.thresholds mid.toNat)) desc.n := by
  have hlt : ∀ t, cmp t = .lt ↔ kv < kt t := by
    intro t
    have heq := h.eq t
    have hgt := h.gt t
    rcases lt_trichotomy kv (kt t) with hlt | hsame | hlarge
    · refine iff_of_true ?_ hlt
      cases hc : cmp t with
      | lt => rfl
      | eq => exact absurd (heq.1 hc) hlt.ne
      | gt => exact absurd (hgt.1 hc) hlt.asymm
    · refine iff_of_false ?_ hsame.not_lt
      rw [heq.2 hsame]
      decide
    · refine iff_of_false ?_ hlarge.asymm
      rw [hgt.2 hlarge]
      decide
  intro i j h0 hij hj
  have hkeys := hsorted i.toNat j.toNat (by omega) (by omega)
  refine ⟨fun hne => ?_, fun hne => ?_⟩
  · rw [ne_eq, hlt, not_lt] at hne
    exact (h.gt _).2 (lt_of_lt_of_le hkeys hne)
  · rw [ne_eq, h.gt, not_lt] at hne
    exact (hlt _).2 (lt_of_le_of_lt hne hkeys)

/-- The loop of an equality. -/
theorem bsearchEq_of_key {kv : K} {kt : BitVec w → K} {cmp : BitVec w → Ordering} (h : Compares kv kt cmp)
    (hsorted : ∀ i j, i < j → j < desc.n → kt (desc.thresholds i) < kt (desc.thresholds j))
    {branches : List (BitVec w × Datum)} (hperm : desc.branches.Perm branches) :
    CaseResult (fun t => kv = kt t) branches desc.defaultVal (desc.bsearchEq cmp) := by
  have hinj : ∀ i < desc.n, ∀ j < desc.n, kt (desc.thresholds i) = kt (desc.thresholds j) → i = j := by
    intro i hi j hj heq
    rcases Nat.lt_trichotomy i j with hlt | rfl | hlt
    · exact absurd heq (hsorted i j hlt hj).ne
    · rfl
    · exact absurd heq (hsorted j i hlt hi).ne'
  refine caseResult_perm hperm ?_ ?_
  · intro b hb b' hb' hholds hholds'
    obtain ⟨i, hi, rfl⟩ := mem_branches.1 hb
    obtain ⟨j, hj, rfl⟩ := mem_branches.1 hb'
    rw [hinj i hi j hj (hholds.symm.trans hholds')]
  · have hspec := findEq_spec (c := fun mid => cmp (desc.thresholds mid.toNat)) (n := desc.n) (Int.le_refl 0)
      (show (desc.n : Int) - 1 < desc.n by omega) (increasing_of_sorted h hsorted) (fun i h0 hi => absurd h0 (by omega))
      (fun i hi hn => absurd hi (by omega))
    unfold CaseBSearchDesc.bsearchEq
    split
    · rename_i mid hmid
      obtain ⟨h0, hn, heq⟩ := hspec.1 mid hmid
      have hmid : kv = kt (desc.thresholds mid.toNat) := (h.eq _).1 heq
      refine caseResult_of_isFirst (by omega) hmid fun i hi hsame => ?_
      exact absurd (hinj i (by omega) mid.toNat (by omega) (hsame.symm.trans hmid)) hi.ne
    · rename_i hnone
      refine caseResult_default fun k hk hsame => ?_
      exact hspec.2 hnone k (by omega) (by omega) ((h.eq _).2 (by rw [Int.toNat_natCast]; exact hsame))

/-! ## Helpers -/

/-- What a helper returns is what a loop returns whose test is the operator in the order of the keys. -/
structure Searches (desc : CaseBSearchDesc w) (op : CaseCmp) (kv : K) (kt : BitVec w → K) (r : Datum) : Prop where
  body : op ≠ .eq → ∃ test, r = desc.bsearchBody test ∧ ∀ t, test t = true ↔ op.Rel kv (kt t)
  eq : op = .eq → ∃ cmp, r = desc.bsearchEq cmp ∧ Compares kv kt cmp

/-- The result of such a helper of an inequality, where no threshold stands before one that it must follow. -/
theorem Searches.result_of_monotone {op : CaseCmp} {kv : K} {kt : BitVec w → K} {r : Datum} (h : Searches desc op kv kt r)
    (hop : op ≠ .eq)
    (hsorted : ∀ i j, i < j → j < desc.n → op.Before (fun t u => kt t ≤ kt u) (desc.thresholds i) (desc.thresholds j)) :
    CaseResult (fun t => op.Rel kv (kt t)) desc.branches desc.defaultVal r := by
  obtain ⟨test, rfl, htest⟩ := h.body hop
  exact bsearchBody_of_key hop kv kt htest hsorted

/-- The result of such a helper of an equality, over sorted thresholds. -/
theorem Searches.result_of_sorted {kv : K} {kt : BitVec w → K} {r : Datum} (h : Searches desc .eq kv kt r)
    (hsorted : ∀ i j, i < j → j < desc.n → kt (desc.thresholds i) < kt (desc.thresholds j)) {branches : List (BitVec w × Datum)}
    (hperm : desc.branches.Perm branches) : CaseResult (fun t => kv = kt t) branches desc.defaultVal r := by
  obtain ⟨cmp, rfl, hcmp⟩ := h.eq rfl
  exact bsearchEq_of_key hcmp hsorted hperm

/-- The result of such a helper, over thresholds in the order of the keys. -/
theorem Searches.result {op : CaseCmp} {kv : K} {kt : BitVec w → K} {r : Datum} (h : Searches desc op kv kt r)
    (hsorted : ∀ i j, i < j → j < desc.n → op.Before (fun t u => kt t < kt u) (desc.thresholds i) (desc.thresholds j))
    {branches : List (BitVec w × Datum)} (hperm : op = .eq → desc.branches.Perm branches)
    (hsame : op ≠ .eq → desc.branches = branches) :
    CaseResult (fun t => op.Rel kv (kt t)) branches desc.defaultVal r := by
  by_cases hop : op = .eq
  · subst hop
    exact h.result_of_sorted hsorted (hperm rfl)
  · rw [← hsame hop]
    exact h.result_of_monotone hop fun i j hij hj => before_le_of_lt (hsorted i j hij hj)

/-- The tests of an equality helper for words. -/
theorem compares_of_words {kv : K} {kt : BitVec w → K} {eq lt : BitVec w → Prop} [DecidablePred eq] [DecidablePred lt]
    (heq : ∀ t, eq t ↔ kv = kt t) (hlt : ∀ t, lt t ↔ kt t < kv) :
    Compares kv kt fun t => if eq t then .eq else if lt t then .gt else .lt := by
  refine ⟨fun t => ?_, fun t => ?_⟩
  · rw [← heq]
    split_ifs with h1 h2 <;> simp [h1]
  · rw [← hlt]
    split_ifs with h1 h2
    · have hnot : ¬ lt t := by
        rw [hlt, (heq t).1 h1]
        exact lt_irrefl _
      simp [hnot]
    · simp [h2]
    · simp [h2]

/-- The sign of a three-way result. -/
theorem orderingToInt_cmp_sign (a b : K) : (orderingToInt (cmp a b) < 0 ↔ a < b) ∧ (orderingToInt (cmp a b) > 0 ↔ b < a) ∧
    (orderingToInt (cmp a b) = 0 ↔ a = b) := by
  rw [orderingToInt_cmp]
  rcases lt_trichotomy a b with h | rfl | h
  · simp [h, h.ne, h.asymm]
  · simp
  · simp [h, h.ne', h.asymm]

/-- The tests of an equality helper on a three-way result. -/
theorem compares_eqWay {kv : K} {kt : BitVec w → K} {c : BitVec w → Int} (h : ∀ t, c t = orderingToInt (cmp kv (kt t))) :
    Compares kv kt fun t => eqWay (c t) := by
  refine compares_of_words (fun t => ?_) fun t => ?_
  · rw [h]
    exact (orderingToInt_cmp_sign _ _).2.2
  · rw [h]
    exact (orderingToInt_cmp_sign _ _).2.1

/-- The checks of a three-way result. -/
theorem rel_iff_check (op : CaseCmp) (hop : op ≠ .eq) (a b : K) : op.Rel a b ↔ (match op with
    | .lt => decide (orderingToInt (cmp a b) < 0)
    | .le => decide (orderingToInt (cmp a b) ≤ 0)
    | .gt => decide (orderingToInt (cmp a b) > 0)
    | .ge => decide (orderingToInt (cmp a b) ≥ 0)
    | .eq => true) = true := by
  obtain ⟨hneg, hpos, _⟩ := orderingToInt_cmp_sign a b
  cases op with
  | eq => exact absurd rfl hop
  | lt => exact hneg.symm.trans decide_eq_true_iff.symm
  | le => rw [decide_eq_true_iff, ← not_lt, ← gt_iff_lt, hpos, CaseCmp.Rel, not_lt]
  | gt => exact hpos.symm.trans decide_eq_true_iff.symm
  | ge => rw [decide_eq_true_iff, ge_iff_le, ← not_lt, hneg, CaseCmp.Rel, not_lt]

end Keys

/-! ## The helpers of each type -/

section Words

variable {K : Type} [LinearOrder K] {key : BitVec w → K} {lt le : BitVec w → BitVec w → Bool}

/-- The helpers for words, by the two comparisons of an order of the words. -/
theorem searches_words (op : CaseCmp) {desc : CaseBSearchDesc w} (val : BitVec w) {r : Datum} (hinj : Function.Injective key)
    (hlt : ∀ a b, lt a b = true ↔ key a < key b) (hle : ∀ a b, le a b = true ↔ key a ≤ key b)
    (hr : r = match op with
      | .eq => desc.bsearchEq fun t => if t = val then .eq else if lt t val then .gt else .lt
      | .lt => desc.bsearchBody fun t => lt val t
      | .le => desc.bsearchBody fun t => le val t
      | .gt => desc.bsearchBody fun t => lt t val
      | .ge => desc.bsearchBody fun t => le t val) : Searches desc op (key val) key r := by
  subst hr
  refine ⟨fun hop => ?_, fun hop => ?_⟩
  · cases op with
    | eq => exact absurd rfl hop
    | lt => exact ⟨_, rfl, fun t => hlt val t⟩
    | le => exact ⟨_, rfl, fun t => hle val t⟩
    | gt => exact ⟨_, rfl, fun t => hlt t val⟩
    | ge => exact ⟨_, rfl, fun t => hle t val⟩
  · subst hop
    exact ⟨_, rfl, compares_of_words (fun t => ⟨fun h => by rw [h], fun h => hinj h.symm⟩) fun t => hlt t val⟩

end Words

/-- The helpers of a signed type. -/
theorem searches_signed (op : CaseCmp) {desc : CaseBSearchDesc w} (val : BitVec w) {r : Datum}
    (hr : r = match op with
      | .eq => desc.bsearchEq fun t => if t = val then .eq else if t.slt val then .gt else .lt
      | .lt => desc.bsearchBody fun t => val.slt t
      | .le => desc.bsearchBody fun t => val.sle t
      | .gt => desc.bsearchBody fun t => t.slt val
      | .ge => desc.bsearchBody fun t => t.sle val) : Searches desc op val.toInt BitVec.toInt r :=
  searches_words op val (fun _ _ => BitVec.eq_of_toInt_eq) (fun _ _ => BitVec.slt_iff_toInt_lt)
    (fun _ _ => BitVec.sle_iff_toInt_le) hr

/-- The helpers of an unsigned type. -/
theorem searches_unsigned (op : CaseCmp) {desc : CaseBSearchDesc w} (val : BitVec w) {r : Datum}
    (hr : r = match op with
      | .eq => desc.bsearchEq fun t => if t = val then .eq else if t.ult val then .gt else .lt
      | .lt => desc.bsearchBody fun t => val.ult t
      | .le => desc.bsearchBody fun t => val.ule t
      | .gt => desc.bsearchBody fun t => t.ult val
      | .ge => desc.bsearchBody fun t => t.ule val) : Searches desc op val.toNat BitVec.toNat r :=
  searches_words op val (fun _ _ => BitVec.eq_of_toNat_eq) (fun _ _ => BitVec.ult_iff_toNat_lt)
    (fun _ _ => BitVec.ule_iff_toNat_le) hr

/-- The cast keeps the value of an `int16`. -/
theorem toInt_castInt16 (val : BitVec 32) : (castInt16 val).toInt = (val.setWidth 16).toInt :=
  BitVec.toInt_signExtend_of_le (by decide)

/-- The helpers that look at the sign of a three-way result. -/
theorem searches_threeWay {K : Type} [LinearOrder K] (op : CaseCmp) {desc : CaseBSearchDesc w} {kv : K} {kt : BitVec w → K}
    {c : BitVec w → Int} {r : Datum} (hc : ∀ t, c t = orderingToInt (cmp kv (kt t)))
    (hr : r = match op with
      | .eq => desc.bsearchEq fun t => eqWay (c t)
      | .lt => desc.bsearchBody fun t => c t < 0
      | .le => desc.bsearchBody fun t => c t ≤ 0
      | .gt => desc.bsearchBody fun t => c t > 0
      | .ge => desc.bsearchBody fun t => c t ≥ 0) : Searches desc op kv kt r := by
  subst hr
  refine ⟨fun hop => ?_, fun hop => ?_⟩
  · have hrel := fun t => rel_iff_check op hop kv (kt t)
    obtain rfl : c = fun t => orderingToInt (cmp kv (kt t)) := funext hc
    cases op with
    | eq => exact absurd rfl hop
    | lt => exact ⟨_, rfl, fun t => (hrel t).symm⟩
    | le => exact ⟨_, rfl, fun t => (hrel t).symm⟩
    | gt => exact ⟨_, rfl, fun t => (hrel t).symm⟩
    | ge => exact ⟨_, rfl, fun t => (hrel t).symm⟩
  · subst hop
    exact ⟨_, rfl, compares_eqWay hc⟩

/-! ## Texts and other types -/

/-- The comparison looks at the first bytes first. -/
theorem textMemcmp_cons (a b : Byte) (as bs : List Byte) :
    textMemcmp (a :: as) (b :: bs) = if a < b then -1 else if b < a then 1 else textMemcmp as bs := by
  have hmin : min (as.length + 1) (bs.length + 1) = min as.length bs.length + 1 := by omega
  simp only [textMemcmp, List.length_cons, hmin, List.take_succ_cons, memcmp]
  split_ifs <;> simp_all

/-- The bytes of two texts compare as the texts do in the lexicographic order. -/
theorem textMemcmp_sign (t1 t2 : List Byte) : (textMemcmp t1 t2 < 0 ↔ t1.map UInt8.toNat < t2.map UInt8.toNat) ∧
    (textMemcmp t1 t2 > 0 ↔ t2.map UInt8.toNat < t1.map UInt8.toNat) ∧ (textMemcmp t1 t2 = 0 ↔ t1 = t2) := by
  induction t1 generalizing t2 with
  | nil => cases t2 <;> simp [textMemcmp, memcmp]
  | cons a as ih =>
    cases t2 with
    | nil => simp [textMemcmp, memcmp]
    | cons b bs =>
      obtain ⟨hneg, hpos, hzero⟩ := ih bs
      simp only [textMemcmp_cons, List.map_cons, List.cons_lt_cons_iff, List.cons.injEq, ← UInt8.toNat_inj, UInt8.lt_iff_toNat_lt]
      split_ifs with h1 h2
      · simp [h1, h1.asymm, h1.ne, h1.ne']
      · simp [h1, h2, h2.ne, h2.ne']
      · have hsame : a.toNat = b.toNat := by omega
        simpa [hsame] using ⟨hneg, hpos, hzero⟩

/-- The sign of the comparison by the order function. -/
theorem orderCmp_sign {K : Type} [LinearOrder K] {key : Datum → K} {lt : Datum → Datum → Bool}
    (hlt : ∀ a b, lt a b = true ↔ key a < key b) (val t : Datum) :
    (orderCmp lt val t < 0 ↔ key val < key t) ∧ (orderCmp lt val t > 0 ↔ key t < key val) ∧
      (orderCmp lt val t = 0 ↔ key val = key t) := by
  simp only [orderCmp, hlt]
  rcases lt_trichotomy (key val) (key t) with h | h | h
  · simp [h, h.ne, h.asymm]
  · simp [h]
  · simp [h, h.ne', h.asymm]

/-- The tests of the equality helper of another type, on the sign of a comparison. -/
theorem compares_of_sign {K : Type} [LinearOrder K] {kv : K} {kt : BitVec w → K} {c : BitVec w → Int}
    (h : ∀ t, (c t < 0 ↔ kv < kt t) ∧ (c t > 0 ↔ kt t < kv) ∧ (c t = 0 ↔ kv = kt t)) :
    Compares kv kt fun t => if c t < 0 then .lt else if c t > 0 then .gt else .eq := by
  refine ⟨fun t => ?_, fun t => ?_⟩
  · rw [← (h t).2.2]
    split_ifs <;> simp <;> omega
  · rw [← (h t).2.1]
    split_ifs <;> simp <;> omega

section Generic

variable {T : PgText} {K : Type} [LinearOrder K] {key : Datum → K} {desc : CaseBSearchDesc 64} {f : CaseCmpFn}

/-- The equality helper over an order function. -/
theorem compares_order (h : GenericOrder T key .eq desc) (hf : desc.cmpOrderFn = some f) (val : Datum)
    (hmem : caseBsearchGenericEqCanMemcmp T desc = false) :
    ∃ cmp, caseBsearchEqGeneric T val desc = desc.bsearchEq cmp ∧ Compares (key val) key cmp := by
  refine ⟨_, by rw [caseBsearchEqGeneric, hf], ?_⟩
  dsimp only
  simp only [hmem, Bool.false_eq_true, if_false]
  exact compares_of_sign fun t => orderCmp_sign (h.order f hf) val t

/-- The equality helper over the bytes of texts. -/
theorem compares_memcmp (hf : desc.cmpOrderFn = some f) (val : Datum) (hmem : caseBsearchGenericEqCanMemcmp T desc = true) :
    ∃ cmp, caseBsearchEqGeneric T val desc = desc.bsearchEq cmp ∧
      Compares ((T.bytes val).map UInt8.toNat) (fun t => (T.bytes t).map UInt8.toNat) cmp := by
  refine ⟨_, by rw [caseBsearchEqGeneric, hf], ?_⟩
  dsimp only
  simp only [hmem, if_true]
  refine compares_of_sign fun t => ?_
  obtain ⟨hneg, hpos, hzero⟩ := textMemcmp_sign (T.bytes val) (T.bytes t)
  exact ⟨hneg, hpos, hzero.trans (List.map_injective_iff.2 fun _ _ => UInt8.toNat_inj.1).eq_iff.symm⟩

/-- Bytes are compared only for `texteq` under a deterministic collation. -/
theorem cmpFn_of_canMemcmp (hmem : caseBsearchGenericEqCanMemcmp T desc = true) :
    desc.cmpFn = .texteq ∧ T.deterministic desc.cmpCollation = true := by
  unfold caseBsearchGenericEqCanMemcmp at hmem
  split at hmem
  · exact absurd hmem Bool.false_ne_true
  · rename_i hfn
    split at hmem
    · exact absurd hmem Bool.false_ne_true
    · exact ⟨hfn, (Bool.and_eq_true_iff.1 hmem).1⟩

/-- The scan of an equality without an order function. -/
theorem eqGeneric_scan (hnone : desc.cmpOrderFn = none) (val : Datum) :
    CaseResult (fun t => datumGetBool (desc.cmpFn.call T desc.cmpCollation val t) = true) desc.branches desc.defaultVal
      (caseBsearchEqGeneric T val desc) := by
  rw [caseBsearchEqGeneric, hnone]
  dsimp only
  split
  · rename_i i hi
    obtain ⟨hhere, hlt, hbefore⟩ := List.find?_range_eq_some.1 hi
    exact caseResult_of_isFirst (List.mem_range.1 hlt) hhere fun j hj => by simpa using hbefore j hj
  · rename_i hfind
    exact caseResult_default fun k hk => by simpa using List.find?_eq_none.1 hfind k (List.mem_range.2 hk)

end Generic

end CaseBsearchAux
end PgJitter
