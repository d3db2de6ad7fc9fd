import PgJitter.Lemmas.HashedSaopTree

/-!
# IN and NOT IN over a constant list

Each kind of code stores the three-valued result exactly when the representation of the scalar that it compares is the one the
constants were read in. The comparison tree compares whole words with constants extended by their sign, so it misses a negative
value, or an `oid` from 2^31 on, that was extended with zeros; the hash probe compares the low halves of the words; the SIMD scan
compares a scalar with its padding too.
-/

namespace PgJitter

open Assembly HashedSaopAux

variable {fn : EqFn}

/-- The value fills the last chunk of the SIMD scan: it is not in the list, and among the candidates, which start from the
smallest constant, it is the first one that is not. -/
def IsPadding (elems : List (Option fn.Value)) (x : fn.Value) : Prop :=
  some x ∉ elems ∧ ∃ m, some m ∈ elems ∧ (∀ u, some u ∈ elems → m.toInt ≤ u.toInt) ∧
    ∃ k, x.setWidth 32 = padCandidate (m.setWidth 32 ^^^ 0x80000000) k ∧
      ∀ i < k, ∃ u, some u ∈ elems ∧ u.setWidth 32 = padCandidate (m.setWidth 32 ^^^ 0x80000000) i

/-- When a kind of code is right about an argument that holds `v`: a value of the list is represented, as far as it is compared,
like the constant, and a value outside of it is not the padding of a chunk. -/
def RightFor (cfg : SaopConfig) (elems : List (Option fn.Value)) (arg : NullableDatum) (v : Option fn.Value) :
    SaopStrategy → Prop
  | .bsearch => ∀ x, v = some x → some x ∈ elems → arg.value = fetchAtt cfg.charIsSigned fn x
  | .crc32 => ∀ x, v = some x → some x ∈ elems → arg.value.setWidth 32 = (fetchAtt cfg.charIsSigned fn x).setWidth 32
  | .simd => ∀ x, v = some x → cfg.simdLanes ∣ (elems.filterMap id).length ∨ ¬IsPadding elems x

namespace HashedSaopAux

/-! ### From the stored result to the truth value -/

/-- The code that stores the result of finding the scalar or not yields the truth value of IN exactly when it finds the values of
the list and no others. -/
theorem yields_iff {P : SaopProgram} {inclause : Bool} {elems : List (Option fn.Value)} {arg : NullableDatum}
    {v : Option fn.Value} {hit : Prop} [Decidable hit] (hstores : Stores P inclause (elems.any (·.isNone)) arg hit)
    (hrep : arg.Represents v) :
    Yields P arg (sqlIn inclause elems v) ↔ ∀ x, v = some x → (hit ↔ some x ∈ elems) := by
  have hres : Yields P arg (sqlIn inclause elems v) ↔
      (resultOf inclause (elems.any (·.isNone)) arg hit).IsTruth (sqlIn inclause elems v) := by
    constructor
    · intro h
      obtain ⟨s', hruns, htruth⟩ := h ⟨0, 0, ⟨0, true⟩⟩
      obtain ⟨s'', hruns', hres⟩ := hstores ⟨0, 0, ⟨0, true⟩⟩
      obtain ⟨-, rfl⟩ := Prod.mk.inj (hruns.eq_of_over hruns' (step_end s') (step_end s''))
      exact hres ▸ htruth
    · intro h s
      obtain ⟨s', hruns, hres⟩ := hstores s
      exact ⟨s', hruns, hres ▸ h⟩
  have hnulls : elems.any (·.isNone) = decide (none ∈ elems) := by
    rw [Bool.eq_iff_iff, List.any_eq_true, decide_eq_true_iff]
    constructor
    · rintro ⟨e, he, hnone⟩
      rwa [Option.isNone_iff_eq_none.1 hnone] at he
    · intro h
      exact ⟨none, h, rfl⟩
  rw [hres, hnulls]
  cases v with
  | none =>
    have hisnull : arg.isnull = true := hrep
    refine iff_of_true ?_ (fun x hx => nomatch hx)
    rw [resultOf, if_pos hisnull]
    rfl
  | some x =>
    rw [resultOf, hrep.1, if_neg Bool.false_ne_true]
    simp only [sqlIn, Option.some.injEq, forall_eq']
    by_cases hhit : hit <;> by_cases hmem : some x ∈ elems <;> by_cases hnone : none ∈ elems <;> cases inclause <;>
      simp [hhit, hmem, hnone, NullableDatum.IsTruth, foundResult, notFoundResult, boolGetDatum]

/-! ### The constants -/

theorem mem_nonNull {α : Type} {elems : List (Option α)} {u : α} : u ∈ elems.filterMap id ↔ some u ∈ elems := by
  simp [List.mem_filterMap]

/-- The types of the eligible functions are at most a word long. -/
theorem typlen_le (h : fn.inRawDatumBsearchSafe = true) : 8 * fn.typlen ≤ 64 := by
  cases fn <;> first | decide | exact absurd h Bool.false_ne_true

/-- The types of the hashed functions are at most half a word long. -/
theorem typlen_le_half (h : fn.inInt32HashSafe = true) : 8 * fn.typlen ≤ 32 := by
  cases fn <;> first | decide | exact absurd h Bool.false_ne_true

/-- The value of a constant is in the low bits of its Datum. -/
theorem setWidth_fetchAtt (hlen : 8 * fn.typlen ≤ 64) (charIsSigned : Bool) (u : fn.Value) :
    (fetchAtt charIsSigned fn u).setWidth (8 * fn.typlen) = u := by
  unfold fetchAtt fetchByval
  split
  · exact setWidth_setWidth hlen u
  · exact setWidth_signExtend hlen u

/-- The value of an argument is in the low bits of its Datum. -/
theorem setWidth_value (hlen : 8 * fn.typlen ≤ 64) {arg : NullableDatum} {x : fn.Value} (hrep : arg.Represents (some x)) :
    arg.value.setWidth (8 * fn.typlen) = x := by
  rcases hrep.2 with h | h
  · rw [h, setWidth_signExtend hlen]
  · rw [h, setWidth_setWidth hlen]

/-- The sorted constants rise. -/
theorem sortRawDatums_pairwise (vals : List Datum) : (sortRawDatums vals).Pairwise fun a b => a.toInt ≤ b.toInt := by
  refine (List.pairwise_mergeSort ?_ ?_ vals).imp fun h => BitVec.sle_iff_toInt_le.1 h
  · intro a b c hab hbc
    rw [BitVec.sle_iff_toInt_le] at *
    omega
  · intro a b
    rw [Bool.or_eq_true, BitVec.sle_iff_toInt_le, BitVec.sle_iff_toInt_le]
    omega

theorem mem_sortRawDatums {vals : List Datum} {d : Datum} : d ∈ sortRawDatums vals ↔ d ∈ vals := List.mem_mergeSort

theorem length_sortRawDatums (vals : List Datum) : (sortRawDatums vals).length = vals.length := List.length_mergeSort vals

section Hits

variable {elems : List (Option fn.Value)} {arg : NullableDatum} {x : fn.Value}

/-- What the comparison tree finds. -/
theorem bsearch_hit_iff (hlen : 8 * fn.typlen ≤ 64) (charIsSigned : Bool) (hrep : arg.Represents (some x)) :
    (arg.value ∈ sortRawDatums ((elems.filterMap id).map (fetchAtt charIsSigned fn)) ↔ some x ∈ elems) ↔
      (some x ∈ elems → arg.value = fetchAtt charIsSigned fn x) := by
  rw [mem_sortRawDatums]
  have hval := setWidth_value hlen hrep
  constructor
  · intro h hmem
    obtain ⟨u, -, hu⟩ := List.mem_map.1 (h.2 hmem)
    have hux : u = x := by rw [← setWidth_fetchAtt hlen charIsSigned u, hu, hval]
    rw [← hu, hux]
  · intro h
    constructor
    · intro hmem
      obtain ⟨u, hu, heq⟩ := List.mem_map.1 hmem
      have hux : u = x := by rw [← setWidth_fetchAtt hlen charIsSigned u, heq, hval]
      exact hux ▸ mem_nonNull.1 hu
    · intro hmem
      exact List.mem_map.2 ⟨x, mem_nonNull.2 hmem, (h hmem).symm⟩

/-- What the hash probe finds. -/
theorem crc32_hit_iff (hlen : 8 * fn.typlen ≤ 32) (charIsSigned : Bool) (hrep : arg.Represents (some x)) :
    (arg.value.setWidth 32 ∈ (sortRawDatums ((elems.filterMap id).map (fetchAtt charIsSigned fn))).map (·.setWidth 32) ↔
      some x ∈ elems) ↔
      (some x ∈ elems → arg.value.setWidth 32 = (fetchAtt charIsSigned fn x).setWidth 32) := by
  have hval := setWidth_value (by omega) hrep
  have hlow : ∀ d : Datum, (d.setWidth 32).setWidth (8 * fn.typlen) = d.setWidth (8 * fn.typlen) := fun d =>
    BitVec.setWidth_setWidth_of_le d hlen
  have hux : ∀ u : fn.Value, (fetchAtt charIsSigned fn u).setWidth 32 = arg.value.setWidth 32 → u = x := by
    intro u hu
    rw [← setWidth_fetchAtt (by omega) charIsSigned u, ← hlow, hu, hlow, hval]
  constructor
  · intro h hmem
    obtain ⟨d, hd, heq⟩ := List.mem_map.1 (h.2 hmem)
    obtain ⟨u, -, rfl⟩ := List.mem_map.1 (mem_sortRawDatums.1 hd)
    rw [← heq, hux u heq]
  · intro h
    constructor
    · intro hmem
      obtain ⟨d, hd, heq⟩ := List.mem_map.1 hmem
      obtain ⟨u, hu, rfl⟩ := List.mem_map.1 (mem_sortRawDatums.1 hd)
      exact hux u heq ▸ mem_nonNull.1 hu
    · intro hmem
      exact List.mem_map.2 ⟨_, mem_sortRawDatums.2 (List.mem_map.2 ⟨x, mem_nonNull.2 hmem, rfl⟩), (h hmem).symm⟩

end Hits

section Simd

variable {elems : List (Option (BitVec 32))}

/-- The constants that the SIMD scan compares, before the padding: `fetch_att` extends an `int4` with its sign. -/
abbrev simdConstants (elems : List (Option (BitVec 32))) : List (BitVec 32) :=
  (sortRawDatums ((elems.filterMap id).map (·.signExtend 64))).map (·.setWidth 32)

theorem mem_simdConstants {u : BitVec 32} : u ∈ simdConstants elems ↔ some u ∈ elems := by
  constructor
  · intro h
    obtain ⟨d, hd, rfl⟩ := List.mem_map.1 h
    obtain ⟨u, hu, rfl⟩ := List.mem_map.1 (mem_sortRawDatums.1 hd)
    rw [setWidth_signExtend (by decide)]
    exact mem_nonNull.1 hu
  · intro h
    exact List.mem_map.2 ⟨u.signExtend 64, mem_sortRawDatums.2 (List.mem_map.2 ⟨u, mem_nonNull.2 h, rfl⟩),
      setWidth_signExtend (by decide) u⟩

theorem length_simdConstants (elems : List (Option (BitVec 32))) :
    (simdConstants elems).length = (elems.filterMap id).length := by
  rw [List.length_map, length_sortRawDatums, List.length_map]

/-- The first constant is the smallest one. -/
theorem simdConstants_head (hne : 0 < (elems.filterMap id).length) :
    some ((simdConstants elems).headD 0) ∈ elems ∧ ∀ u, some u ∈ elems → ((simdConstants elems).headD 0).toInt ≤ u.toInt := by
  have hpair := sortRawDatums_pairwise ((elems.filterMap id).map (·.signExtend 64))
  have hmem : ∀ u, u ∈ simdConstants elems ↔ some u ∈ elems := fun u => mem_simdConstants
  have hlen := length_simdConstants elems
  have hall : ∀ d ∈ sortRawDatums ((elems.filterMap id).map (·.signExtend 64)), (d.setWidth 32).toInt = d.toInt := by
    intro d hd
    obtain ⟨u, -, rfl⟩ := List.mem_map.1 (mem_sortRawDatums.1 hd)
    rw [setWidth_signExtend (by decide)]
    exact (BitVec.toInt_signExtend_of_le (by decide)).symm
  unfold simdConstants at hmem hlen ⊢
  generalize sortRawDatums ((elems.filterMap id).map (·.signExtend 64)) = sorted at hpair hmem hlen hall ⊢
  cases sorted with
  | nil =>
    rw [List.map_nil, List.length_nil] at hlen
    omega
  | cons d ds =>
    rw [List.map_cons, List.headD_cons]
    refine ⟨(hmem _).1 List.mem_cons_self, ?_⟩
    intro u hu
    obtain ⟨d', hd', rfl⟩ := List.mem_map.1 ((hmem u).2 hu)
    rw [hall d List.mem_cons_self, hall d' hd']
    rcases List.mem_cons.1 hd' with rfl | hd'
    · exact Int.le_refl _
    · exact List.rel_of_pairwise_cons hpair hd'

/-- The value that fills the last chunk. -/
abbrev simdPad (elems : List (Option (BitVec 32))) : BitVec 32 :=
  padVal (simdConstants elems) (simdConstants elems).length
    ((simdConstants elems).headD 0 ^^^ 0x80000000)

/-- It is not in the list. -/
theorem simdPad_not_mem (hlen : (elems.filterMap id).length < 2 ^ 32 - 1) : some (simdPad elems) ∉ elems := by
  rw [← mem_simdConstants]
  exact padVal_not_mem (by rw [length_simdConstants]; exact hlen) _

/-- It is the first candidate that is not in the list. -/
theorem isPadding_iff (hne : 0 < (elems.filterMap id).length) (hlen : (elems.filterMap id).length < 2 ^ 32 - 1)
    (x : BitVec 32) : @IsPadding .int4eq elems x ↔ x = simdPad elems := by
  obtain ⟨hhead, hmin⟩ := simdConstants_head hne
  have habsent := simdPad_not_mem hlen
  obtain ⟨k₀, hk₀, hpad, hbefore, -⟩ := padVal_eq (simdConstants elems)
    (simdConstants elems).length ((simdConstants elems).headD 0 ^^^ 0x80000000)
  have hlow : ∀ u : BitVec 32, u.setWidth 32 = u := fun u => BitVec.setWidth_eq u
  constructor
  · rintro ⟨hx, m, hm, hmmin, k, hk, hkbefore⟩
    have hmhead : m = (simdConstants elems).headD 0 :=
      BitVec.eq_of_toInt_eq (Int.le_antisymm (hmmin _ hhead) (hmin m hm))
    subst hmhead
    rw [simdPad, hpad] at habsent ⊢
    have hxk : x = padCandidate ((simdConstants elems).headD 0 ^^^ 0x80000000) k := (hlow x).symm.trans hk
    rcases Nat.lt_trichotomy k k₀ with hlt | rfl | hgt
    · exact absurd (mem_simdConstants.1 (hxk ▸ hbefore k hlt)) hx
    · exact hxk
    · obtain ⟨u, hu, hu'⟩ := hkbefore k₀ hgt
      exact absurd ((hlow u).symm.trans hu' ▸ hu) habsent
  · rintro rfl
    refine ⟨habsent, _, hhead, hmin, k₀, (hlow _).trans hpad, ?_⟩
    intro i hi
    exact ⟨_, mem_simdConstants.1 (hbefore i hi), hlow _⟩

/-- What the SIMD scan finds. -/
theorem simd_hit_iff {lanes : Nat} (hlanes : 0 < lanes) (hne : 0 < (elems.filterMap id).length)
    (hlen : (elems.filterMap id).length < 2 ^ 32 - 1) {arg : NullableDatum} {x : BitVec 32}
    (hrep : @NullableDatum.Represents .int4eq arg (some x)) :
    (arg.value.setWidth 32 ∈ simdVals (simdConstants elems) lanes ↔ some x ∈ elems) ↔
      (lanes ∣ (elems.filterMap id).length ∨ ¬@IsPadding .int4eq elems x) := by
  have hval : arg.value.setWidth 32 = x := @setWidth_value .int4eq (by decide) arg x hrep
  have habsent := simdPad_not_mem hlen
  rw [hval, mem_simdVals hlanes, mem_simdConstants, isPadding_iff hne hlen, length_simdConstants]
  rw [simdPad, length_simdConstants] at *
  constructor
  · intro h
    by_contra hno
    rw [not_or, not_not] at hno
    exact habsent (hno.2 ▸ h.1 (Or.inr hno))
  · intro h
    refine ⟨?_, Or.inl⟩
    rintro (hmem | ⟨hdvd, heq⟩)
    · exact hmem
    · exact absurd heq (h.resolve_left hdvd)

end Simd

end HashedSaopAux

/-- The code emitted for a constant list yields the truth value of IN, and of NOT IN, for an argument that is null or represents a
value of the type, exactly when its kind of comparison is right for the argument. -/
theorem hashed_saop_yields_iff {cfg : SaopConfig} {inclause : Bool} {arr : ArrayType (8 * fn.typlen)}
    {elems : List (Option fn.Value)} {strategy : SaopStrategy} {P : SaopProgram} {arg : NullableDatum} {v : Option fn.Value}
    (hholds : arr.Holds elems) (hemit : emitHashedScalarArrayOp cfg inclause arr = some (strategy, P))
    (hrep : arg.Represents v) :
    Yields P arg (sqlIn inclause elems v) ↔ RightFor cfg elems arg v strategy := by
  obtain ⟨hvals, hnulls⟩ := extract_eq hholds cfg.charIsSigned
  unfold emitHashedScalarArrayOp at hemit
  split at hemit
  · rename_i helig
    have hlen := typlen_le helig.2.1
    simp only [hvals, hnulls] at hemit
    split at hemit
    · -- the SIMD scan, for `int4eq` only
      rename_i hsimd
      obtain ⟨hpos, -, hmax, rfl, -⟩ := hsimd
      obtain ⟨rfl, rfl⟩ := Prod.mk.inj (Option.some.inj hemit)
      have hlanes : 0 < cfg.simdLanes := by
        unfold SaopConfig.simdLanes
        split <;> decide
      rw [length_sortRawDatums, List.length_map] at hpos hmax
      have hcount : (elems.filterMap id).length ≤ 64 := by
        refine Nat.le_trans hmax ?_
        unfold SaopConfig.simdMaxNvals
        split <;> omega
      rw [yields_iff (simd_stores _ inclause _ hlanes arg) hrep]
      refine forall_congr' fun x => ?_
      refine imp_congr_right fun hx => ?_
      subst hx
      exact simd_hit_iff hlanes hpos (Nat.lt_of_le_of_lt hcount (by decide)) hrep
    · split at hemit
      · -- the comparison tree
        obtain ⟨rfl, rfl⟩ := Prod.mk.inj (Option.some.inj hemit)
        rw [yields_iff (bsearch_stores (sortRawDatums_pairwise _) inclause _ arg) hrep]
        refine forall_congr' fun x => ?_
        refine imp_congr_right fun hx => ?_
        subst hx
        exact bsearch_hit_iff hlen cfg.charIsSigned hrep
      · split at hemit
        · -- the hash probe
          rename_i hcrc
          obtain ⟨ht, hbuild, hpair⟩ := Option.map_eq_some_iff.1 hemit
          obtain ⟨rfl, rfl⟩ := Prod.mk.inj hpair
          have hsafe : fn.inInt32HashSafe = true := by
            have := hcrc.2.2
            rw [SaopConfig.crc32HashEnabled, Bool.and_eq_true] at this
            exact this.2
          rw [yields_iff (crc32_stores hbuild inclause _ _ arg) hrep]
          refine forall_congr' fun x => ?_
          refine imp_congr_right fun hx => ?_
          subst hx
          exact crc32_hit_iff (typlen_le_half hsafe) cfg.charIsSigned hrep
        · nomatch hemit
  · nomatch hemit

namespace HashedSaopWitness

/-- `7, 3, NULL, -1, 12, 7, -5, 40, 0, 21`. -/
def items (fn : EqFn) : List (Option fn.Value) :=
  [some 7, some 3, none, some (-1), some 12, some 7, some (-5), some 40, some 0, some 21].map (Option.map (BitVec.ofInt (8 * fn.typlen)))

/-- The array of these items: the third bit of its null bitmap is not set. -/
def itemArray (fn : EqFn) : ArrayType (8 * fn.typlen) :=
  ⟨10, some [0xFB, 0x03], fun s => ((items fn).filterMap id).getD (s / fn.typlen) 0⟩

theorem itemArray_holds (fn : EqFn) (hlen : 0 < fn.typlen) : (itemArray fn).Holds (items fn) where
  nitems_eq := rfl
  bit := fun bytes hbytes k e he => by
    obtain rfl := Option.some.inj hbytes
    have hbits : ∀ k < 10, ((([0xFB, 0x03] : List UInt8).getD (k / 8) 0).toNat.testBit (k % 8)) =
        ([some 7, some 3, none, some (-1), some 12, some 7, some (-5), some 40, some 0, some (21 : Int)].getD k none).isSome := by decide
    have hk : k < 10 := (List.getElem?_eq_some_iff.1 he).1
    rw [hbits k hk]
    rw [items, List.getElem?_map] at he
    obtain ⟨i, hi, rfl⟩ := Option.map_eq_some_iff.1 he
    rw [List.getD_eq_getElem?_getD, hi, Option.getD_some, Option.isSome_map]
  no_bitmap := fun h => absurd h (Option.some_ne_none _)
  value := fun k v hv => by
    obtain ⟨hk, hget⟩ := List.getElem?_eq_some_iff.1 hv
    have hsplit : (items fn).filterMap id = ((items fn).take k).filterMap id ++ v :: ((items fn).drop (k + 1)).filterMap id := by
      conv_lhs => rw [← List.take_append_drop k (items fn), List.drop_eq_getElem_cons hk, hget]
      rw [List.filterMap_append]
      rfl
    change ((items fn).filterMap id).getD ((((items fn).take k).filterMap id).length * fn.typlen / fn.typlen) 0 = v
    rw [Nat.mul_div_cancel _ hlen, hsplit, List.getD_eq_getElem?_getD, List.getElem?_append_right (Nat.le_refl _), Nat.sub_self]
    rfl

/-- The settings under which a list of ten constants gets a kind of code. -/
def settings : SaopStrategy → SaopConfig
  | .bsearch => ⟨false, false, 4096, 0, true, true, false, true, true⟩
  | .crc32 => ⟨false, true, 8, 0, true, true, false, true, true⟩
  | .simd => ⟨false, false, 4096, 64, true, true, false, true, true⟩

/-- The Datums of the constants, sorted. -/
def constants (fn : EqFn) : List Datum := sortRawDatums (((items fn).filterMap id).map (fetchAtt true fn))

theorem extract_items (fn : EqFn) (hlen : 0 < fn.typlen) :
    sortRawDatums ((itemArray fn).extract true).vals = constants fn ∧ ((itemArray fn).extract true).hasNulls = true := by
  obtain ⟨hvals, hnulls⟩ := extract_eq (itemArray_holds fn hlen) true
  exact ⟨congrArg sortRawDatums hvals, hnulls⟩

theorem length_constants (fn : EqFn) : (constants fn).length = 9 := by
  rw [constants, length_sortRawDatums]
  rfl

theorem emit_bsearch (inclause : Bool) : emitHashedScalarArrayOp (settings .bsearch) inclause (itemArray .int4eq) =
    some (.bsearch, emitBsearch inclause true (constants .int4eq)) := by
  obtain ⟨hvals, hnulls⟩ := extract_items .int4eq (by decide)
  rw [emitHashedScalarArrayOp, if_pos ⟨rfl, rfl, (by decide : 0 < 10), (by decide : 10 ≤ 4096)⟩]
  simp only [settings, hvals, hnulls, length_constants]
  rfl

theorem emit_simd (inclause : Bool) : emitHashedScalarArrayOp (settings .simd) inclause (itemArray .int4eq) =
    some (.simd, emitSimd inclause true (simdConstants (items .int4eq)) 4) := by
  obtain ⟨hvals, hnulls⟩ := extract_items .int4eq (by decide)
  rw [emitHashedScalarArrayOp, if_pos ⟨rfl, rfl, (by decide : 0 < 10), (by decide : 10 ≤ 4096)⟩]
  simp only [settings, hvals, hnulls, length_constants]
  rfl

theorem emit_crc32 (inclause : Bool) :
    ∃ ht, crc32HashBuildInt4 ((constants .int2eq).map (·.setWidth 32)) true = some ht ∧
      emitHashedScalarArrayOp (settings .crc32) inclause (itemArray .int2eq) = some (.crc32, emitCrc32 inclause true true ht) := by
  have hlen : ((constants .int2eq).map (·.setWidth 32)).length = 9 := by rw [List.length_map, length_constants]
  obtain ⟨ht, hbuild⟩ := Option.isSome_iff_exists.1
    (@crc32HashBuildInt4_isSome ((constants .int2eq).map (·.setWidth 32)) true (by rw [hlen]; decide) (by rw [hlen]; decide))
  obtain ⟨hvals, hnulls⟩ := extract_items .int2eq (by decide)
  refine ⟨ht, hbuild, ?_⟩
  rw [emitHashedScalarArrayOp, if_pos ⟨rfl, rfl, (by decide : 0 < 10), (by decide : 10 ≤ 16384)⟩]
  simp only [settings, hvals, hnulls, length_constants, hbuild]
  rfl

/-- The argument of an `int4` whose Datum is extended by its sign. -/
theorem represents_int4 (x : EqFn.Value .int4eq) : @NullableDatum.Represents .int4eq ⟨x.signExtend 64, false⟩ (some x) := ⟨rfl, Or.inl rfl⟩

/-- In the comparison tree over these constants, of an `int4` whose Datum is extended by its sign: -1 is IN the list, 5 is neither IN it nor
NOT IN it, and 40 is not NOT IN it. -/
theorem in_items :
    Yields (emitBsearch true true (constants .int4eq)) ⟨0xFFFFFFFFFFFFFFFF, false⟩ (some true) ∧
      Yields (emitBsearch true true (constants .int4eq)) ⟨5, false⟩ none ∧
      Yields (emitBsearch false true (constants .int4eq)) ⟨5, false⟩ none ∧
      Yields (emitBsearch false true (constants .int4eq)) ⟨40, false⟩ (some false) := by
  have hholds := itemArray_holds .int4eq (by decide)
  refine ⟨?_, ?_, ?_, ?_⟩
  · exact (hashed_saop_yields_iff hholds (emit_bsearch true) (represents_int4 (-1))).2 fun x hx _ => by cases hx; decide
  · exact (hashed_saop_yields_iff hholds (emit_bsearch true) (represents_int4 5)).2 fun x hx _ => by cases hx; decide
  · exact (hashed_saop_yields_iff hholds (emit_bsearch false) (represents_int4 5)).2 fun x hx _ => by cases hx; decide
  · exact (hashed_saop_yields_iff hholds (emit_bsearch false) (represents_int4 40)).2 fun x hx _ => by cases hx; decide

/-- The kind of code is wrong about some argument and some list. -/
def Fails (strategy : SaopStrategy) : Prop :=
  ∃ (fn : EqFn) (cfg : SaopConfig) (arr : ArrayType (8 * fn.typlen)) (elems : List (Option fn.Value)) (P : SaopProgram)
    (arg : NullableDatum) (v : Option fn.Value), arr.Holds elems ∧
      emitHashedScalarArrayOp cfg true arr = some (strategy, P) ∧ arg.Represents v ∧ ¬Yields P arg (sqlIn true elems v)

/-- Each of the three kinds of code is wrong about some argument of a list of ten items: -1 of an `int4` extended with zeros is not found in
the tree, and of an `int2` extended with zeros not in the hash table; 2147483643, which is not in the list, is found in the padding of the
last chunk. -/
theorem each_strategy_fails : Fails .bsearch ∧ Fails .crc32 ∧ Fails .simd := by
  refine ⟨?_, ?_, ?_⟩
  · have hrep : @NullableDatum.Represents .int4eq ⟨0xFFFFFFFF, false⟩ (some (BitVec.ofInt 32 (-1))) := ⟨rfl, Or.inr (by decide)⟩
    refine ⟨.int4eq, settings .bsearch, itemArray .int4eq, items .int4eq, _, _, _, itemArray_holds _ (by decide), emit_bsearch true,
      hrep, ?_⟩
    intro h
    have hstores := bsearch_stores (sortRawDatums_pairwise (((items .int4eq).filterMap id).map (fetchAtt true .int4eq))) true true
      ⟨0xFFFFFFFF, false⟩
    have hhit := ((yields_iff hstores hrep).1 h _ rfl).2 (by decide)
    exact absurd (mem_sortRawDatums.1 hhit) (by decide)
  · obtain ⟨ht, hbuild, hemit⟩ := emit_crc32 true
    have hrep : @NullableDatum.Represents .int2eq ⟨0xFFFF, false⟩ (some (BitVec.ofInt 16 (-1))) := ⟨rfl, Or.inr (by decide)⟩
    refine ⟨.int2eq, settings .crc32, itemArray .int2eq, items .int2eq, _, _, _, itemArray_holds _ (by decide), hemit, hrep, ?_⟩
    intro h
    have hstores := crc32_stores hbuild true true true ⟨0xFFFF, false⟩
    have hhit := ((yields_iff hstores hrep).1 h _ rfl).2 (by decide)
    obtain ⟨d, hd, heq⟩ := List.mem_map.1 hhit
    have hnot : 0xFFFF#32 ∉ (((items .int2eq).filterMap id).map (fetchAtt true .int2eq)).map (·.setWidth 32) := by decide
    exact hnot (List.mem_map.2 ⟨d, mem_sortRawDatums.1 hd, heq⟩)
  · have hrep := represents_int4 (BitVec.ofInt 32 2147483643)
    refine ⟨.int4eq, settings .simd, itemArray .int4eq, items .int4eq, _, _, _, itemArray_holds _ (by decide), emit_simd true, hrep, ?_⟩
    intro h
    have hstores := @simd_stores (simdConstants (items .int4eq)) 4 true true (by decide) ⟨(BitVec.ofInt 32 2147483643).signExtend 64, false⟩
    have hhit := (yields_iff hstores hrep).1 h _ rfl
    have hall : (items .int4eq).all (fun e => decide ((BitVec.ofInt 32 (-5)).toInt ≤ (e.getD 0).toInt)) = true := by decide
    have hmin : ∀ e ∈ items .int4eq, (BitVec.ofInt 32 (-5)).toInt ≤ (e.getD 0).toInt := fun e he =>
      of_decide_eq_true (List.all_eq_true.1 hall e he)
    have hfirst : (BitVec.ofInt 32 2147483643) = padCandidate (BitVec.ofInt 32 (-5) ^^^ 0x80000000) 0 := by decide
    have hpad : @IsPadding .int4eq (items .int4eq) (BitVec.ofInt 32 2147483643) :=
      ⟨by decide, BitVec.ofInt 32 (-5), by decide, fun u hu => hmin _ hu, 0, hfirst, fun i hi => absurd hi (Nat.not_lt_zero i)⟩
    rcases (simd_hit_iff (by decide) (by decide) (by decide) hrep).1 hhit with hdvd | hno
    · exact absurd hdvd (by decide)
    · exact hno hpad

end HashedSaopWitness

end PgJitter
