import PgJitter.Lemmas.ScalarArrayOp

/-!
# ANY and ALL over an array: the results
-/

namespace PgJitter

open ScalarArrayOpAux

/-- The answer over no elements. -/
theorem ScalarArrayOp.sqlResult_nil (op : ScalarArrayOp) (scalar : NullableDatum) : op.sqlResult scalar [] = some (!op.useOr) := by
  unfold ScalarArrayOp.sqlResult
  cases op.useOr <;> rfl

/-- The answer over some elements for a null scalar, of a strict function. -/
theorem ScalarArrayOp.sqlResult_null (op : ScalarArrayOp) {scalar : NullableDatum}
    (hscalar : (scalar.isnull && op.fnStrict) = true) (elt : NullableDatum) (elts : List NullableDatum) :
    op.sqlResult scalar (elt :: elts) = none := by
  rw [Bool.and_eq_true] at hscalar
  have hcompare : ∀ elt, op.compare scalar elt = none := by
    intro elt
    rw [ScalarArrayOp.compare, hscalar.1, hscalar.2]
    rfl
  have hdecided : ∀ b, Kleene.decidedBy b ((elt :: elts).map (op.compare scalar)) = none := by
    intro b
    rw [funext hcompare, Kleene.decidedBy, if_neg (by simp), if_pos (by simp)]
  rw [ScalarArrayOp.sqlResult, Kleene.anyOf_eq, Kleene.allOf_eq, hdecided, hdecided, ite_self]

/-- The loop leaves the answer of ANY or ALL, whatever the function, the scalar and the elements; where the shortcut is taken the
generic path finds the same; and the step is left fit for the next array. -/
theorem scalararrayop_loop_right (cat : TypeCatalog) (variant : SimdVariant) (charIsSigned : Bool) (op : ScalarArrayOp)
    (arr : ArrayDatum) (scalar res : NullableDatum) (elems : List (Option (List (BitVec 8)))) (hop : op.Consistent cat)
    (harr : arr.Holds (cat.getTyplenbyvalalign arr.elemtype) elems) :
    (op.loop cat variant charIsSigned arr scalar res).2.IsTruth
        (op.sqlResult scalar (arr.arguments charIsSigned (cat.getTyplenbyvalalign arr.elemtype) elems)) ∧
      (∀ found, (scalar.isnull && op.fnStrict) = false →
        (op.cacheElementType cat arr.elemtype).shortcut variant arr scalar.value elems.length = some found →
        (op.cacheElementType cat arr.elemtype).generic charIsSigned arr scalar elems.length = ⟨boolGetDatum found, false⟩) ∧
      (op.loop cat variant charIsSigned arr scalar res).1.Consistent cat := by
  have hconsistent := loop_consistent hop variant charIsSigned harr.elemtype scalar res
  have htyp := (cacheElementType_spec hop harr.elemtype).1
  have hvalid := cat.valid arr.elemtype
  rw [← htyp] at harr hvalid ⊢
  have hresult : ∀ elts, (op.cacheElementType cat arr.elemtype).sqlResult scalar elts = op.sqlResult scalar elts := by
    intro elts
    unfold ScalarArrayOp.cacheElementType
    split <;> rfl
  have hstrict : (op.cacheElementType cat arr.elemtype).fnStrict = op.fnStrict := by
    unfold ScalarArrayOp.cacheElementType
    split <;> rfl
  have hgeneric : ∀ found, (scalar.isnull && op.fnStrict) = false →
      (op.cacheElementType cat arr.elemtype).shortcut variant arr scalar.value elems.length = some found →
      (op.cacheElementType cat arr.elemtype).generic charIsSigned arr scalar elems.length = ⟨boolGetDatum found, false⟩ := by
    intro found hscalar hshort
    rw [← hstrict] at hscalar
    have htruth := generic_spec charIsSigned hscalar hvalid harr
    rwa [shortcut_spec hscalar hvalid harr hshort] at htruth
  refine ⟨?_, hgeneric, hconsistent⟩
  unfold ScalarArrayOp.loop
  simp only [harr.nitems]
  cases elems with
  | nil =>
    rw [if_pos (by simp), ArrayDatum.arguments, TypLenByValAlign.place, List.map_nil, ScalarArrayOp.sqlResult_nil]
    rfl
  | cons e elems =>
    rw [if_neg (by simp)]
    cases hscalar : (scalar.isnull && op.fnStrict) with
    | true =>
      have hcons : ∃ elt elts, arr.arguments charIsSigned (op.cacheElementType cat arr.elemtype).typ (e :: elems) = elt :: elts := by
        cases e <;> exact ⟨_, _, rfl⟩
      obtain ⟨elt, elts, hcons⟩ := hcons
      rw [if_pos rfl, hcons, ScalarArrayOp.sqlResult_null op hscalar]
      rfl
    | false =>
      rw [if_neg Bool.false_ne_true, Int.toNat_natCast, ← hresult]
      rw [← hstrict] at hscalar
      cases hshort : (op.cacheElementType cat arr.elemtype).shortcut variant arr scalar.value (e :: elems).length with
      | none => exact generic_spec charIsSigned hscalar hvalid harr
      | some found =>
        rw [shortcut_spec hscalar hvalid harr hshort]
        rfl

/-! ## A run -/

namespace ScalarArrayOpWitness

/-- A database with `int4` and `text`. -/
def catalog : TypeCatalog where
  getTyplenbyvalalign oid := if oid = 25 then ⟨-1, false, 4⟩ else ⟨4, true, 4⟩
  valid oid := by split <;> decide

/-- `= ANY` of an `int4` array, before its first array. -/
def step : ScalarArrayOp := ⟨0, true, ⟨0, false, 1⟩, .int4eq, true⟩

/-- The array `{7, NULL, -1}`. -/
def array : ArrayDatum := ⟨[3], 23, some fun _ => 5, [7, 0, 0, 0, 255, 255, 255, 255], 4096⟩

/-- The elements of the array. -/
def elements : List (Option (List (BitVec 8))) := [some [7, 0, 0, 0], none, some [255, 255, 255, 255]]

theorem array_holds : array.Holds (catalog.getTyplenbyvalalign array.elemtype) elements where
  elemtype := by decide
  nitems := by decide
  null := by
    intro k e he
    match k, he with
    | 0, he | 1, he | 2, he =>
      cases he
      rfl
  image := by
    intro bs hbs
    simp only [elements, List.mem_cons, Option.some.injEq, reduceCtorEq, List.not_mem_nil, or_false, false_or] at hbs
    rcases hbs with rfl | rfl <;> rfl
  stored := by
    intro off bs hmem
    have hplace : (catalog.getTyplenbyvalalign array.elemtype).place 0 elements =
        [some (0, [7, 0, 0, 0]), none, some (4, [255, 255, 255, 255])] := by decide
    rw [hplace] at hmem
    simp only [List.mem_cons, Option.some.injEq, Prod.mk.injEq, reduceCtorEq, List.not_mem_nil, or_false, false_or] at hmem
    rcases hmem with ⟨rfl, rfl⟩ | ⟨rfl, rfl⟩ <;> decide

/-- `5 = ANY ('{7, NULL, -1}')` is null. -/
theorem five_is_unknown : (step.loop catalog .neon false array ⟨5, false⟩ ⟨0, false⟩).2.isnull = true := by
  have htruth := (scalararrayop_loop_right catalog .neon false step array ⟨5, false⟩ ⟨0, false⟩ elements (.inl rfl) array_holds).1
  have hresult : step.sqlResult ⟨5, false⟩ (array.arguments false (catalog.getTyplenbyvalalign array.elemtype) elements) = none := by
    decide
  rw [hresult] at htruth
  exact htruth

end ScalarArrayOpWitness

end PgJitter
