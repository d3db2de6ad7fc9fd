import PgJitter.Lemmas.CaseBsearch

/-!
# The binary search of a CASE: the results
-/

namespace PgJitter

namespace CaseBsearchAux

variable {α β : Type} [LinearOrder α] [LinearOrder β] {F : FloatFormats α β} {T : PgText} {K : Type} [LinearOrder K]
  {key : Datum → K} {cbi : CaseBSearchInfo} {desc : CaseBSearchDesc cbi.bsType.width}
  {branches : List (BitVec cbi.bsType.width × Datum)}

/-- A descriptor whose thresholds are sorted, of a type and an operator. -/
structure Sorted (F : FloatFormats α β) (T : PgText) (key : Datum → K) (ty : CaseBSearchType) (op : CaseCmp)
    (desc : CaseBSearchDesc ty.width) (branches : List (BitVec ty.width × Datum)) : Prop where
  sorted : ∀ i j, i < j → j < desc.n → op.Before (ty.Below F T key op desc) (desc.thresholds i) (desc.thresholds j)
  perm : op = .eq → desc.branches.Perm branches
  same : op ≠ .eq → desc.branches = branches

/-- The descriptors of a CASE, but for the equalities without an order. -/
theorem sorted_of_describes (h : cbi.Describes F T key desc branches) (hord : ¬ cbi.bsType.Unsorted cbi.op desc) :
    Sorted F T key cbi.bsType cbi.op desc branches :=
  ⟨h.sorted hord, fun hop => h.perm hop hord, fun hop => h.same fun hboth => hop hboth.1⟩

/-- The result of a helper that searches by keys, when the keys carry the order and the comparison of the type. -/
theorem Sorted.result {ty : CaseBSearchType} {op : CaseCmp} {desc : CaseBSearchDesc ty.width}
    {branches : List (BitVec ty.width × Datum)} (h : Sorted F T key ty op desc branches) {K' : Type} [LinearOrder K']
    {val : BitVec ty.width} {kv : K'} {kt : BitVec ty.width → K'} {r : Datum} (hs : Searches desc op kv kt r)
    (hbelow : ∀ t u, ty.Below F T key op desc t u ↔ kt t < kt u) (hholds : ∀ t, ty.Holds F T op desc val t ↔ op.Rel kv (kt t)) :
    CaseResult (ty.Holds F T op desc val) branches desc.defaultVal r := by
  have heq : ty.Below F T key op desc = fun t u => kt t < kt u := funext fun t => funext fun u => propext (hbelow t u)
  refine (caseResult_congr hholds).2 (hs.result (fun i j hij hj => ?_) h.perm h.same)
  have hsorted := h.sorted i j hij hj
  rwa [heq] at hsorted

/-! ## The rows of the table -/

section Rows

variable (F : FloatFormats α β) (T : PgText) (op : CaseCmp)

/-- The check of a range of an `int4`. -/
theorem check_i32 {desc : CaseBSearchDesc 32} {val : BitVec 32} :
    (desc.hasRangeMin && val.slt (low32 desc.rangeMin)) = true ↔ CaseBSearchType.i32.BelowRange desc val := by
  rw [Bool.and_eq_true_iff, BitVec.slt_iff_toInt_lt]
  rfl

/-- The check of a range of an `int8`. -/
theorem check_i64 {desc : CaseBSearchDesc 64} {val : BitVec 64} :
    (desc.hasRangeMin && val.slt desc.rangeMin) = true ↔ CaseBSearchType.i64.BelowRange desc val := by
  rw [Bool.and_eq_true_iff, BitVec.slt_iff_toInt_lt]
  rfl

/-- The check of a range of an `int2`. -/
theorem check_i16 {desc : CaseBSearchDesc 32} {val : BitVec 32} :
    (desc.hasRangeMin && (castInt16 val).slt (castInt16 (low32 desc.rangeMin))) = true ↔
      CaseBSearchType.i16.BelowRange desc val := by
  rw [Bool.and_eq_true_iff, BitVec.slt_iff_toInt_lt, toInt_castInt16, toInt_castInt16, low32, BitVec.setWidth_setWidth_of_le]
  · rfl
  · decide

/-- The row of `int4`, for a value that is not below the range. -/
theorem searches_i32 {desc : CaseBSearchDesc 32} {val : BitVec 32} (h : ¬ CaseBSearchType.i32.BelowRange desc val) :
    Searches desc op val.toInt BitVec.toInt (bsearchHelperTable F T .i32 op val desc) := by
  refine searches_signed op val ?_
  cases op with
  | lt => exact if_neg (check_i32.not.2 h)
  | _ => rfl

/-- The row of `int8`, for a value that is not below the range. -/
theorem searches_i64 {desc : CaseBSearchDesc 64} {val : BitVec 64} (h : ¬ CaseBSearchType.i64.BelowRange desc val) :
    Searches desc op val.toInt BitVec.toInt (bsearchHelperTable F T .i64 op val desc) := by
  refine searches_signed op val ?_
  cases op with
  | lt => exact if_neg (check_i64.not.2 h)
  | _ => rfl

/-- The row of `oid`. -/
theorem searches_u32 (desc : CaseBSearchDesc 32) (val : BitVec 32) :
    Searches desc op val.toNat BitVec.toNat (bsearchHelperTable F T .u32 op val desc) := by
  refine searches_unsigned op val ?_
  cases op <;> rfl

/-- The row of `int2`, for a value that is not below the range. -/
theorem searches_i16 {desc : CaseBSearchDesc 32} {val : BitVec 32} (h : ¬ CaseBSearchType.i16.BelowRange desc val) :
    Searches desc op (castInt16 val).toInt BitVec.toInt (bsearchHelperTable F T .i16 op val desc) := by
  refine searches_signed op (castInt16 val) ?_
  cases op with
  | eq => rfl
  | _ => exact if_neg (check_i16.not.2 h)

/-- The row of `float4`. -/
theorem searches_f4 (desc : CaseBSearchDesc 64) (val : Datum) :
    Searches desc op (datumGetFloat4 F val).key (fun t => (datumGetFloat4 F t).key) (bsearchHelperTable F T .f4 op val desc) := by
  refine searches_threeWay op (fun t => FloatCmpAux.float8CmpJit_eq (datumGetFloat4 F val) (datumGetFloat4 F t)) ?_
  cases op <;> rfl

/-- The row of `float8`. -/
theorem searches_f8 (desc : CaseBSearchDesc 64) (val : Datum) :
    Searches desc op (datumGetFloat8 F val).key (fun t => (datumGetFloat8 F t).key) (bsearchHelperTable F T .f8 op val desc) := by
  refine searches_threeWay op (fun t => FloatCmpAux.float8CmpJit_eq (datumGetFloat8 F val) (datumGetFloat8 F t)) ?_
  cases op <;> rfl

/-- The row of the other types, for a comparison function that is the operator of an order. -/
theorem searches_generic {desc : CaseBSearchDesc 64} (val : Datum) (h : GenericOrder T key op desc)
    (hord : op = .eq → desc.cmpOrderFn ≠ none) (hmem : op = .eq → caseBsearchGenericEqCanMemcmp T desc = false) :
    Searches desc op (key val) key (bsearchHelperTable F T .generic op val desc) := by
  refine ⟨fun hop => ⟨fun t => datumGetBool (desc.cmpFn.call T desc.cmpCollation val t), ?_, h.cmp val⟩, fun hop => ?_⟩
  · cases op with
    | eq => exact absurd rfl hop
    | _ => rfl
  · subst hop
    obtain ⟨f, hf⟩ := Option.ne_none_iff_exists'.1 (hord rfl)
    exact compares_order h hf val (hmem rfl)

/-- The equality of texts that are compared by their bytes. -/
theorem searches_texts {desc : CaseBSearchDesc 64} (val : Datum) (hord : desc.cmpOrderFn ≠ none)
    (hmem : caseBsearchGenericEqCanMemcmp T desc = true) :
    Searches desc .eq ((T.bytes val).map UInt8.toNat) (fun t => (T.bytes t).map UInt8.toNat)
      (bsearchHelperTable F T .generic .eq val desc) := by
  refine ⟨fun hop => absurd rfl hop, fun _ => ?_⟩
  obtain ⟨f, hf⟩ := Option.ne_none_iff_exists'.1 hord
  exact compares_memcmp hf val hmem

end Rows

/-! ## Both parts -/

/-- Below the range, the default. -/
theorem default_of_belowRange (h : cbi.Describes F T key desc branches) {val : BitVec cbi.bsType.width}
    (hbelow : cbi.bsType.BelowRange desc val) : selectBsearchHelper F T cbi val desc = desc.defaultVal := by
  obtain ⟨ty, isEquality, isLess, isInclusive⟩ := cbi
  unfold selectBsearchHelper
  cases ty with
  | i32 =>
    rw [(h.range hbelow.1).1]
    exact if_pos (check_i32.2 hbelow)
  | i64 =>
    rw [(h.range hbelow.1).1]
    exact if_pos (check_i64.2 hbelow)
  | i16 =>
    rw [(h.range hbelow.1).1]
    exact if_pos (check_i16.2 hbelow)
  | u32 | f4 | f8 | generic => exact hbelow.elim

/-- The comparison of texts is that of their bytes. -/
theorem holds_texts {desc : CaseBSearchDesc 64} (hfn : desc.cmpFn = .texteq) (hdet : T.deterministic desc.cmpCollation = true)
    (val t : Datum) : datumGetBool (desc.cmpFn.call T desc.cmpCollation val t) = true ↔
      (T.bytes val).map UInt8.toNat = (T.bytes t).map UInt8.toNat := by
  rw [hfn, CaseCmpFn.call, T.texteq_iff _ _ _ hdet]
  exact (List.map_injective_iff.2 fun _ _ => UInt8.toNat_inj.1).eq_iff.symm

/-- A descriptor of another type, sorted. -/
theorem generic_result {op : CaseCmp} {desc : CaseBSearchDesc 64} {branches : List (BitVec 64 × Datum)} {val : Datum}
    (h : Sorted F T key .generic op desc branches) (hlawful : CaseBSearchType.generic.Lawful T key op desc)
    (hord : ¬ CaseBSearchType.generic.Unsorted op desc) :
    CaseResult (CaseBSearchType.generic.Holds F T op desc val) branches desc.defaultVal
      (bsearchHelperTable F T .generic op val desc) := by
  have hsome : op = .eq → desc.cmpOrderFn ≠ none := by
    rintro rfl
    exact hord
  by_cases htexts : op = .eq ∧ caseBsearchGenericEqCanMemcmp T desc = true
  · obtain ⟨rfl, hmem⟩ := htexts
    obtain ⟨hfn, hdet⟩ := cmpFn_of_canMemcmp hmem
    refine h.result (searches_texts F T val (hsome rfl) hmem) (fun t u => ?_) fun t => ?_
    · exact (iff_of_eq (if_pos ⟨rfl, hmem⟩)).trans (textMemcmp_sign _ _).1
    · exact holds_texts hfn hdet val t
  · have horder : GenericOrder T key op desc := by
      rcases hlawful with hunsorted | htexts' | horder
      · exact absurd hunsorted hord
      · exact absurd htexts' htexts
      · exact horder
    refine h.result (searches_generic F T op val horder hsome fun hop => ?_) (fun t u => ?_) (horder.cmp val)
    · exact Bool.eq_false_iff.2 fun hmem => htexts ⟨hop, hmem⟩
    · exact iff_of_eq (if_neg htexts)

/-- Not below the range, the result of the first branch whose comparison holds. -/
theorem result_of_not_belowRange (h : cbi.Describes F T key desc branches) {val : BitVec cbi.bsType.width}
    (hbelow : ¬ cbi.bsType.BelowRange desc val) :
    CaseResult (cbi.bsType.Holds F T cbi.op desc val) branches desc.defaultVal (selectBsearchHelper F T cbi val desc) := by
  obtain ⟨ty, isEquality, isLess, isInclusive⟩ := cbi
  unfold selectBsearchHelper
  cases ty with
  | i32 => exact (sorted_of_describes h id).result (searches_i32 F T _ hbelow) (fun _ _ => Iff.rfl) fun _ => Iff.rfl
  | i64 => exact (sorted_of_describes h id).result (searches_i64 F T _ hbelow) (fun _ _ => Iff.rfl) fun _ => Iff.rfl
  | u32 => exact (sorted_of_describes h id).result (searches_u32 F T _ desc val) (fun _ _ => Iff.rfl) fun _ => Iff.rfl
  | i16 =>
    refine (sorted_of_describes h id).result (searches_i16 F T _ hbelow) (fun _ _ => Iff.rfl) fun t => ?_
    exact iff_of_eq (congrArg (CaseCmp.Rel _ · t.toInt) (toInt_castInt16 val).symm)
  | f4 => exact (sorted_of_describes h id).result (searches_f4 F T _ desc val) (fun _ _ => Iff.rfl) fun _ => Iff.rfl
  | f8 => exact (sorted_of_describes h id).result (searches_f8 F T _ desc val) (fun _ _ => Iff.rfl) fun _ => Iff.rfl
  | generic =>
    by_cases hord : CaseBSearchType.generic.Unsorted (CaseBSearchInfo.op ⟨.generic, isEquality, isLess, isInclusive⟩) desc
    · have hsame := h.same fun hboth => hboth.2 hord
      dsimp only at hsame ⊢
      generalize CaseBSearchInfo.op ⟨.generic, isEquality, isLess, isInclusive⟩ = op at hord ⊢
      cases op with
      | eq =>
        rw [← hsame]
        exact eqGeneric_scan hord val
      | lt | le | gt | ge => exact hord.elim
    · exact generic_result (sorted_of_describes h hord) h.lawful hord

end CaseBsearchAux

open CaseBsearchAux

section

variable {α β : Type} [LinearOrder α] [LinearOrder β] (F : FloatFormats α β) (T : PgText) {K : Type} [LinearOrder K]
  (key : Datum → K) (cbi : CaseBSearchInfo) (desc : CaseBSearchDesc cbi.bsType.width)
  (branches : List (BitVec cbi.bsType.width × Datum)) (val : BitVec cbi.bsType.width)

/-- Every helper returns the result of the first branch whose comparison holds, and the default when none does or when the value is
below the range. -/
theorem case_bsearch_right (h : cbi.Describes F T key desc branches) :
    (cbi.bsType.BelowRange desc val → selectBsearchHelper F T cbi val desc = desc.defaultVal) ∧
      (¬ cbi.bsType.BelowRange desc val →
        CaseResult (cbi.bsType.Holds F T cbi.op desc val) branches desc.defaultVal (selectBsearchHelper F T cbi val desc)) := by
  exact ⟨default_of_belowRange h, result_of_not_belowRange h⟩

end

namespace CaseBsearchWitness

/-- Words as floats. -/
def signedFloats : FloatFormats Int Int := ⟨fun d => .num d.toInt, fun d => .num d.toInt⟩

/-- Texts of eight bytes. -/
def wordTexts : PgText where
  bytes d := (List.range 8).map fun i => UInt8.ofNat (d.toNat / 256 ^ i % 256)
  deterministic _ := false
  isC _ := false
  texteq _ a b := boolGetDatum (a == b)
  texteq_iff := fun _ _ _ h => absurd h Bool.false_ne_true

/-- `CASE WHEN x < 10 THEN 0 WHEN x < 20 THEN 1 WHEN x < 30 THEN 2 WHEN x < 40 THEN 3 ELSE 9 END`. -/
def tens : CaseBSearchDesc 32 where
  n := 4
  cmpFn := .other fun _ _ _ => 0
  cmpOrderFn := none
  cmpCollation := 0
  defaultVal := 9
  rangeMin := 0
  hasRangeMin := false
  thresholds k := BitVec.ofNat 32 (10 * (k + 1))
  results k := BitVec.ofNat 64 k

/-- The pattern of that CASE. -/
def ltI32 : CaseBSearchInfo := ⟨.i32, false, true, false⟩

/-- Its descriptor is one. -/
theorem tens_describes : ltI32.Describes signedFloats wordTexts (fun d => d.toNat) tens tens.branches where
  lawful := trivial
  sorted := fun _ i j hij hj => by
    have hall : ∀ j < 4, ∀ i < j, (tens.thresholds i).toInt < (tens.thresholds j).toInt := by decide
    exact hall j hj i hij
  perm := fun hop => nomatch hop
  same := fun _ => rfl
  range := fun h => absurd h Bool.false_ne_true

/-- The search gives 25 the result of `x < 30`. -/
theorem twenty_five : CaseResult (fun t => (25#32).toInt < t.toInt) tens.branches 9#64
    (caseBsearchLtI32 25#32 tens) ∧ caseBsearchLtI32 25#32 tens = 2#64 := by
  refine ⟨(case_bsearch_right signedFloats wordTexts (fun d => d.toNat) ltI32 tens tens.branches 25#32 tens_describes).2 ?_, ?_⟩
  · exact fun h => absurd h.1 Bool.false_ne_true
  · simp [caseBsearchLtI32, CaseBSearchDesc.bsearchBody, BinarySearch.lowerBound, tens]

end CaseBsearchWitness

end PgJitter
