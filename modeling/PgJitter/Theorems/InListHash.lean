import PgJitter.Lemmas.InListHash

/-!
# The hash tables and the sorted array of IN lists answer membership

For any hash function and any list, with duplicates: the table is built or is too large, and every probe of it ends with the right answer.
A constant array feeds its elements that are not null. The search of a sorted array needs no table for the same answer.
-/

namespace PgJitter

open InListHashAux HashedSaopAux ScalarArrayOpAux

namespace InListHashAux

/-- A table of integers is built, or the list is too long, and its probes answer membership. -/
theorem crc32_hash_right (hash : BitVec 32 → BitVec 32) {vals : List (BitVec 32)} (hne : vals ≠ []) (hasNulls : Bool) :
    (crc32HashBuild hash vals hasNulls = .raised ∧ 2 ^ 25 < vals.length) ∨
      ∃ ht, crc32HashBuild hash vals hasNulls = .returned ht ∧ ht.hasNulls = hasNulls ∧ ht.Answers hash vals := by
  have hpos : 0 < vals.length := List.length_pos_iff.2 hne
  unfold crc32HashBuild
  rcases hashTableSize_cases 12 8 vals.length with hraised | ⟨size, hsize, ⟨b, rfl⟩, hroom⟩
  · refine .inl ⟨by rw [hraised, LoopResult.raised_bind], Nat.lt_of_not_le fun hle => ?_⟩
    obtain ⟨size, hsize⟩ := hashTableSize_returned 12 8 22 hpos (by decide) (by omega) (by decide)
    exact nomatch hraised.symm.trans hsize
  · have hhome : ∀ val, (hash val).toNat &&& (2 ^ b - 1) < 2 ^ b := fun val => masked_lt b _
    have hbuild := LinearProbing.tryBuild_eq (nextSlot_round b) hhome (Nat.le_of_lt hroom)
    have hbuilt := LinearProbing.built_build (nextSlot_round b) hhome (Nat.le_of_lt hroom)
    rw [hsize, LoopResult.returned_bind]
    dsimp only
    rw [hbuild, LoopResult.ofLoop_some, LoopResult.returned_bind]
    refine .inr ⟨_, rfl, rfl, fun val => ?_⟩
    have hlookup := LinearProbing.lookup_built (nextSlot_round b) hhome hbuilt hroom val
    refine ⟨_, ?_, decide_eq_true_iff⟩
    rw [crc32HashProbe, Nat.sub_add_cancel Nat.one_le_two_pow, hlookup, LoopResult.ofLoop_some]

/-- A table of texts is built, or the list is too long, and its probes answer membership of the payload. -/
theorem text_hash_right (sz : StringZilla) (hash : List Byte → BitVec 32) (bytes : Datum → List Byte) {datums : List Datum}
    (hne : datums ≠ [])
    (hasNulls : Bool) :
    (textHashBuild hash bytes datums hasNulls = .raised ∧ 2 ^ 24 < datums.length) ∨
      ∃ ht, textHashBuild hash bytes datums hasNulls = .returned ht ∧ ht.hasNulls = hasNulls ∧
        ht.Answers sz hash bytes (datums.map bytes) := by
  have hpos : 0 < datums.length := List.length_pos_iff.2 hne
  unfold textHashBuild
  rcases hashTableSize_cases 16 16 datums.length with hraised | ⟨size, hsize, ⟨b, rfl⟩, hroom⟩
  · refine .inl ⟨by rw [hraised, LoopResult.raised_bind], Nat.lt_of_not_le fun hle => ?_⟩
    obtain ⟨size, hsize⟩ := hashTableSize_returned 16 16 21 hpos (by decide) (by omega) (by decide)
    exact nomatch hraised.symm.trans hsize
  · have htexts : (datums.map bytes).length < 2 ^ b := by rwa [List.length_map]
    obtain ⟨entries, hfold, hprobe⟩ := textHashBuild_table sz hash htexts
    rw [hsize, LoopResult.returned_bind]
    dsimp only
    rw [hfold, LoopResult.ofLoop_some, LoopResult.returned_bind]
    refine .inr ⟨_, rfl, rfl, fun datum => ?_⟩
    obtain ⟨found, hfound, hiff⟩ := hprobe (bytes datum)
    refine ⟨found, ?_, hiff⟩
    rw [textHashProbe, Nat.sub_add_cancel Nat.one_le_two_pow]
    exact congrArg LoopResult.ofLoop hfound

/-- What an array feeds. -/
theorem from_array_eq (hash : List Byte → BitVec 32) (bytes : Datum → List Byte) (cat : TypeCatalog)
    (eligible charIsSigned : Bool) {arr : ArrayDatum} {elems : List (Option (List (BitVec 8)))}
    (h : arr.Holds (cat.getTyplenbyvalalign arr.elemtype) elems) :
    textHashBuildFromArray hash bytes cat eligible charIsSigned arr =
      if eligible = true ∧ (cat.getTyplenbyvalalign arr.elemtype).typbyval = false ∧ arr.elemtype = textOid ∧
          0 < (elems.length : Int) ∧ (elems.length : Int) ≤ maxTextItems then
        let datums := textDatums charIsSigned arr (cat.getTyplenbyvalalign arr.elemtype) elems
        let nulls := elems.any Option.isNone
        if datums = [] then .returned (none, nulls)
        else (textHashBuild hash bytes datums nulls).bind fun ht => .returned (some ht, nulls)
      else .returned (none, false) := by
  have hwalk := textValsLoop_eq charIsSigned (cat.valid arr.elemtype) (rest_zero h) false
  have hstart : stateAt arr 0 0 false = ⟨0, 1, 0, false⟩ := by simp [stateAt]
  rw [hstart, Bool.false_or] at hwalk
  unfold textHashBuildFromArray
  rw [h.nitems]
  cases eligible with
  | false => simp
  | true =>
    dsimp only
    rw [if_neg (by decide), Int.toNat_natCast, hwalk]
    simp only [true_and, List.length_pos_iff, ne_eq, ite_not]
    rfl

end InListHashAux

/-- For every hash function, list of integers and list of texts that is not empty: the table is built, or an error says that it would be
too large, no loop runs on, and every probe of the table ends and answers whether the value is in the list. An array that is walked (of
an eligible operation, of texts, not empty and not too long) feeds the Datums of its elements that are not null, in their order, and
reports whether it has a null; any other array feeds nothing. -/
theorem in_list_hash_right (sz : StringZilla) (intHash : BitVec 32 → BitVec 32) (textHash : List Byte → BitVec 32)
    (bytes : Datum → List Byte)
    (cat : TypeCatalog) :
    (∀ vals hasNulls, vals ≠ [] →
      (crc32HashBuild intHash vals hasNulls = .raised ∧ 2 ^ 25 < vals.length) ∨
        ∃ ht, crc32HashBuild intHash vals hasNulls = .returned ht ∧ ht.hasNulls = hasNulls ∧ ht.Answers intHash vals) ∧
    (∀ datums hasNulls, datums ≠ [] →
      (textHashBuild textHash bytes datums hasNulls = .raised ∧ 2 ^ 24 < datums.length) ∨
        ∃ ht, textHashBuild textHash bytes datums hasNulls = .returned ht ∧ ht.hasNulls = hasNulls ∧
          ht.Answers sz textHash bytes (datums.map bytes)) ∧
    ∀ eligible charIsSigned arr elems, ArrayDatum.Holds arr (cat.getTyplenbyvalalign arr.elemtype) elems →
      textHashBuildFromArray textHash bytes cat eligible charIsSigned arr =
        if eligible = true ∧ (cat.getTyplenbyvalalign arr.elemtype).typbyval = false ∧ arr.elemtype = textOid ∧
            0 < (elems.length : Int) ∧ (elems.length : Int) ≤ maxTextItems then
          let datums := textDatums charIsSigned arr (cat.getTyplenbyvalalign arr.elemtype) elems
          let nulls := elems.any Option.isNone
          if datums = [] then .returned (none, nulls)
          else (textHashBuild textHash bytes datums nulls).bind fun ht => .returned (some ht, nulls)
        else .returned (none, false) :=
  ⟨fun _ hasNulls hne => crc32_hash_right intHash hne hasNulls, fun _ hasNulls hne => text_hash_right sz textHash bytes hne hasNulls,
    fun eligible charIsSigned _ _ h => from_array_eq textHash bytes cat eligible charIsSigned h⟩

/-! ## The sorted array -/

/-- For every non-decreasing list, with duplicates or empty: the search for any value stays inside the array, ends within `k + 1` turns
when the list has no more than `2 ^ k` values, and returns 1 if the value is in the list and 0 if it is not. -/
theorem sorted_array_probe_right {vals : List (BitVec 32)} (hsorted : vals.Pairwise fun a b => a.toInt ≤ b.toInt) (hasNulls : Bool)
    (val : BitVec 32) :
    ∀ k, vals.length ≤ 2 ^ k →
      sortedArrayProbeInt4 (k + 1) val (sortedArrayBuildInt4 vals hasNulls) = .ok (if val ∈ vals then 1 else 0) := by
  intro k hk
  have hloop : sortedArrayProbeLoop (sortedArrayBuildInt4 vals hasNulls) val (k + 1) 0 vals.length =
      .ok (BinarySearch.narrow (notBelow vals val) 0 vals.length, min vals.length 1) :=
    sortedArrayProbeLoop_eq (by rw [Nat.zero_add]; exact Nat.le_refl _) hk
  unfold sortedArrayProbeInt4
  rw [show (sortedArrayBuildInt4 vals hasNulls).nvals = vals.length from rfl, hloop]
  dsimp only [Except.bind]
  rcases Nat.eq_zero_or_pos vals.length with hempty | hpos
  · rw [if_neg (by omega), List.length_eq_zero_iff.1 hempty, if_neg List.not_mem_nil]
  · -- the entry that is left is read, and it is the value if any entry is
    have hleft : BinarySearch.narrow (notBelow vals val) 0 vals.length < vals.length := by
      have hmem := (@BinarySearch.narrow_mem (notBelow vals val) 0 _ hpos).2
      rwa [Nat.zero_add] at hmem
    have hentry : (sortedArrayBuildInt4 vals hasNulls).entry (BinarySearch.narrow (notBelow vals val) 0 vals.length) =
        .ok vals[BinarySearch.narrow (notBelow vals val) 0 vals.length] := entry_eq hleft
    rw [if_pos (by omega), hentry]
    refine congrArg Except.ok ?_
    by_cases hmem : val ∈ vals
    · have hfound := narrow_found hsorted hmem
      rw [List.getElem?_eq_getElem hleft] at hfound
      rw [if_pos (Option.some.inj hfound), if_pos hmem]
    · have hother : vals[BinarySearch.narrow (notBelow vals val) 0 vals.length] ≠ val :=
        fun heq => hmem (heq ▸ List.getElem_mem hleft)
      rw [if_neg hother, if_neg hmem]

/-! ## Witnesses -/

namespace InListHashWitness

/-- A catalog that knows texts. -/
def texts : TypeCatalog where
  getTyplenbyvalalign _ := ⟨-1, false, 4⟩
  valid _ := by decide

/-- The array `{a, NULL}`. -/
def array : ArrayDatum := ⟨[2], 25, some fun _ => 1, [20, 0, 0, 0, 97, 0, 0, 0], 4096⟩

/-- The elements of the array. -/
def elements : List (Option (List (BitVec 8))) := [some [20, 0, 0, 0, 97], none]

/-- The texts of the array and of a value elsewhere. -/
def payload (d : Datum) : List Byte := if d = 4096 then [97] else [98]

theorem array_holds : array.Holds (texts.getTyplenbyvalalign array.elemtype) elements where
  elemtype := by decide
  nitems := by decide
  null := by
    intro k e he
    match k, he with
    | 0, he | 1, he =>
      cases he
      rfl
  image := by
    intro bs hbs
    simp only [elements, List.mem_cons, Option.some.injEq, reduceCtorEq, List.not_mem_nil, or_false] at hbs
    subst hbs
    exact ⟨by decide, by decide⟩
  stored := by
    intro off bs hmem
    have hplace : (texts.getTyplenbyvalalign array.elemtype).place 0 elements = [some (0, [20, 0, 0, 0, 97]), none] := by decide
    rw [hplace] at hmem
    simp only [List.mem_cons, Option.some.injEq, Prod.mk.injEq, reduceCtorEq, List.not_mem_nil, or_false] at hmem
    obtain ⟨rfl, rfl⟩ := hmem
    decide

/-- Three integers with one hash for all values, and the array. -/
theorem five_five_seven_and_a :
    (∃ ht, crc32HashBuild (fun _ => 3) [5, 5, 7] false = .returned ht ∧ ht.hasNulls = false ∧ ht.Answers (fun _ => 3) [5, 5, 7]) ∧
    ∃ ht, textHashBuildFromArray (fun _ => 4) payload texts true false array = .returned (some ht, true) ∧
      ht.Answers .naive (fun _ => 4) payload [[97]] := by
  obtain ⟨hints, htexts, harray⟩ := in_list_hash_right .naive (fun _ => 3) (fun _ => 4) payload texts
  constructor
  · rcases hints [5, 5, 7] false (by decide) with h | h
    · exact absurd h.2 (by decide)
    · exact h
  · have hdatums : textDatums false array (texts.getTyplenbyvalalign array.elemtype) elements = [4096] := by decide
    rcases htexts [4096] true (by decide) with h | ⟨ht, hbuild, -, hanswers⟩
    · exact absurd h.2 (by decide)
    · refine ⟨ht, ?_, hanswers⟩
      rw [harray true false array elements array_holds, if_pos (by decide), hdatums]
      dsimp only
      rw [if_neg (by decide), show elements.any Option.isNone = true from rfl, hbuild, LoopResult.returned_bind]

/-- A list of five with a negative value and a duplicate, and a value that lies between two entries. -/
theorem two_occurs_three_does_not :
    sortedArrayProbeInt4 4 2 (sortedArrayBuildInt4 [-7, 2, 2, 5, 9] false) = .ok 1 ∧
      sortedArrayProbeInt4 4 3 (sortedArrayBuildInt4 [-7, 2, 2, 5, 9] false) = .ok 0 := by
  have hsorted : List.Pairwise (fun a b : BitVec 32 => a.toInt ≤ b.toInt) [-7, 2, 2, 5, 9] := by decide
  exact ⟨sorted_array_probe_right hsorted false 2 3 (by decide), sorted_array_probe_right hsorted false 3 3 (by decide)⟩

end InListHashWitness

end PgJitter
