import PgJitter.ScalarArrayOp
import PgJitter.Lemmas.HashedSaop
import PgJitter.Lemmas.SimdHelpers

/-!
# Helpers for `Theorems/ScalarArrayOp.lean`: the walk over an array

The element at an offset is read as it was stored, the walk stays in step with the layout and with the null bitmap, and a turn of
the loop is a step of a scan of the comparisons. The shortcut is compared with that scan.
-/

namespace PgJitter
namespace ScalarArrayOpAux

open Layout HashedSaopAux

variable {charIsSigned : Bool}

/-! ## Stored bytes -/

section Bytes

variable {arr : ArrayDatum} {off : Nat} {bs : List (BitVec 8)}

/-- A stored byte is read back. -/
theorem byte_stored (h : (arr.data.drop off).take bs.length = bs) {i : Nat} (hi : i < bs.length) :
    arr.area.byte (off + i) = bs[i] := by
  have hget : arr.data[off + i]? = some bs[i] := by
    have hat : ((arr.data.drop off).take bs.length)[i]? = bs[i]? := by rw [h]
    rw [List.getElem?_take_of_lt hi, List.getElem?_drop] at hat
    rw [hat, List.getElem?_eq_getElem hi]
  rw [HeapTuple.byte, List.getD_eq_getElem?_getD]
  exact congrArg (·.getD 0) hget

/-- A stored number is read back. -/
theorem leNat_stored {cs : List (BitVec 8)} (h : ∀ i (hi : i < cs.length), arr.area.byte (off + i) = cs[i]) :
    arr.area.leNat off cs.length = ByteMemory.leNat cs := by
  induction cs generalizing off with
  | nil => rfl
  | cons c cs ih =>
    have hhead := h 0 (Nat.succ_pos _)
    rw [Nat.add_zero, List.getElem_cons_zero] at hhead
    rw [List.length_cons, HeapTuple.leNat, ByteMemory.leNat, hhead, ih]
    intro i hi
    have htail := h (i + 1) (Nat.succ_lt_succ hi)
    rw [List.getElem_cons_succ] at htail
    rw [← htail]
    congr 1
    omega

/-- The length of a stored varlena is that of its header. -/
theorem varsizeAny_stored (h : (arr.data.drop off).take bs.length = bs) (hv : IsVarlena bs) :
    arr.area.varsizeAny off = bs.length := by
  cases bs with
  | nil => exact hv.elim
  | cons b bs =>
    have hb : arr.area.byte off = b := byte_stored h (i := 0) (Nat.succ_pos _)
    simp only [IsVarlena] at hv
    unfold HeapTuple.varsizeAny
    simp only [hb, List.length_cons]
    by_cases htoast : b = 1
    · rw [if_pos htoast] at hv
      obtain ⟨tag, htag, hlen⟩ := hv
      obtain ⟨rest, rfl⟩ : ∃ rest, bs = tag :: rest := by
        cases bs with
        | nil => cases htag
        | cons t rest => exact ⟨rest, by cases htag; rfl⟩
      have htag : arr.area.byte (off + 1) = tag := byte_stored h (i := 1) (by simp)
      rw [if_pos (by rw [htoast]; rfl), htag, hlen]
      omega
    · have hne : b.toNat ≠ 1 := fun h1 => htoast (BitVec.eq_of_toNat_eq h1)
      rw [if_neg htoast] at hv
      rw [if_neg hne]
      split
      · rename_i hodd
        rw [if_pos hodd] at hv
        exact hv
      · rename_i heven
        rw [if_neg heven] at hv
        obtain ⟨hlen, hsize⟩ := hv
        have hheader : arr.area.leNat off 4 = ByteMemory.leNat (b :: bs.take 3) := by
          have hlen4 : (b :: bs.take 3).length = 4 := by simp [hlen]
          rw [← hlen4]
          refine leNat_stored fun i hi => ?_
          rw [hlen4] at hi
          rw [byte_stored h (by simp; omega)]
          cases i with
          | zero => rfl
          | succ i => simp
        rw [hheader]
        exact hsize

/-- The length of a stored cstring, without the byte that ends it. -/
theorem strlen_stored (h : (arr.data.drop off).take bs.length = bs) (hc : IsCstring bs) :
    arr.area.strlen off + 1 = bs.length := by
  obtain ⟨cs, rfl, hcs⟩ := hc
  have hdata : arr.data.drop off = cs ++ [0] ++ (arr.data.drop off).drop (cs ++ [0]).length := by
    conv_lhs => rw [← List.take_append_drop (cs ++ [0]).length (arr.data.drop off), h]
  have htake : (arr.data.drop off).takeWhile (· != 0) = cs := by
    rw [hdata, List.append_assoc, List.takeWhile_append_of_pos]
    · simp
    · intro c hc
      have hne : c ≠ 0 := fun h0 => hcs (h0 ▸ hc)
      simpa using hne
  change ((arr.data.drop off).takeWhile (· != 0)).length + 1 = _
  rw [htake, List.length_append, List.length_singleton]

/-- The end of a stored value. -/
theorem attAddlengthPointer_stored {typ : TypLenByValAlign} (h : (arr.data.drop off).take bs.length = bs)
    (himage : typ.Image bs) : arr.attAddlengthPointer typ off = off + bs.length := by
  unfold TypLenByValAlign.Image at himage
  unfold ArrayDatum.attAddlengthPointer
  split
  · rename_i hpos
    rw [if_pos hpos] at himage
    omega
  · rename_i hpos
    rw [if_neg hpos] at himage
    split
    · rename_i hvar
      rw [if_pos hvar] at himage
      rw [varsizeAny_stored h himage]
    · rename_i hvar
      rw [if_neg hvar] at himage
      have := strlen_stored h himage
      omega

/-- A stored value is fetched as the argument that it is passed as. -/
theorem fetchAtt_stored {typ : TypLenByValAlign} (hvalid : TypeValid typ.typlen typ.typbyval typ.typalign)
    (h : (arr.data.drop off).take bs.length = bs) (himage : typ.Image bs) :
    (⟨arr.fetchAtt charIsSigned typ off, false⟩ : NullableDatum) = arr.argument charIsSigned typ (some (off, bs)) := by
  unfold ArrayDatum.fetchAtt ArrayDatum.argument
  cases hbyval : typ.typbyval with
  | false => rfl
  | true =>
    have hpos : 0 < typ.typlen := by
      rcases hvalid with ⟨_, hlen, _⟩ | ⟨hfalse, _⟩
      · simp only [List.mem_cons, List.not_mem_nil, or_false] at hlen
        omega
      · exact absurd (hbyval.symm.trans hfalse) (by decide)
    rw [TypLenByValAlign.Image, if_pos hpos] at himage
    have hw : typ.typlen.toNat = bs.length := by omega
    rw [if_pos rfl, hw, leNat_stored fun i hi => byte_stored h hi]
    rfl

end Bytes

/-! ## The null bitmap -/

/-- The state at the element `k`, at the offset `off`. -/
def stateAt (arr : ArrayDatum) (k off : Nat) (resultnull : Bool) : SaopLoopState where
  bitmap := if arr.nullBitmap.isNone then 0 else k / 8
  bitmask := if arr.nullBitmap.isNone then 1 else 2 ^ (k % 8)
  s := off
  resultnull := resultnull

variable {arr : ArrayDatum}

/-- The test of the bit is that of the element. -/
theorem elementIsNull_stateAt (k off : Nat) (rn : Bool) : arr.elementIsNull (stateAt arr k off rn) = arr.nullAt k := by
  unfold ArrayDatum.elementIsNull ArrayDatum.nullAt stateAt
  cases hb : arr.nullBitmap with
  | none => rfl
  | some bits =>
    simp only [Option.isNone_some, Bool.false_eq_true, if_false, and_bit_eq_zero]
    rfl

/-- The move to the next bit is the move to the next element. -/
theorem nextBit_stateAt (k off : Nat) (rn : Bool) : arr.nextBit (stateAt arr k off rn) = stateAt arr (k + 1) off rn := by
  unfold ArrayDatum.nextBit stateAt
  cases hb : arr.nullBitmap with
  | none => rfl
  | some bits =>
    simp only [Option.isNone_some, Bool.false_eq_true, if_false]
    rcases next_bit k with ⟨hlast, hbyte, hbit⟩ | ⟨hne, hbyte, hbit⟩
    · rw [if_pos hlast, hbyte, hbit]
    · rw [if_neg hne, hbyte, hbit]

/-! ## The loop -/

section Loop

variable {op : ScalarArrayOp} {scalar : NullableDatum}

/-- The elements from `k` on, the next of them at `off`. -/
structure Rest (arr : ArrayDatum) (typ : TypLenByValAlign) (k off : Nat) (elems : List (Option (List (BitVec 8)))) : Prop where
  null : ∀ j e, elems[j]? = some e → arr.nullAt (k + j) = e.isNone
  image : ∀ bs, some bs ∈ elems → typ.Image bs
  stored : ∀ p bs, some (p, bs) ∈ typ.place off elems → (arr.data.drop p).take bs.length = bs

/-- All elements of an array. -/
theorem rest_zero {typ : TypLenByValAlign} {elems : List (Option (List (BitVec 8)))} (h : arr.Holds typ elems) :
    Rest arr typ 0 0 elems :=
  ⟨fun j e he => (Nat.zero_add j).symm ▸ h.null j e he, h.image, h.stored⟩

variable {typ : TypLenByValAlign} {k off : Nat} {elems : List (Option (List (BitVec 8)))} {bs : List (BitVec 8)}

/-- The null bits after the first element. -/
theorem null_tail {e : Option (List (BitVec 8))} (h : Rest arr typ k off (e :: elems)) :
    ∀ j e, elems[j]? = some e → arr.nullAt (k + 1 + j) = e.isNone := by
  intro j e he
  have := h.null (j + 1) e (by rwa [List.getElem?_cons_succ])
  rwa [show k + 1 + j = k + (j + 1) by omega]

/-- The elements after a null. -/
theorem Rest.tail_none (h : Rest arr typ k off (none :: elems)) : Rest arr typ (k + 1) off elems :=
  ⟨null_tail h, fun bs hbs => h.image bs (List.mem_cons_of_mem _ hbs),
    fun p bs hp => h.stored p bs (List.mem_cons_of_mem _ hp)⟩

/-- The elements after a value. -/
theorem Rest.tail_some (h : Rest arr typ k off (some bs :: elems)) :
    Rest arr typ (k + 1) (alignUp typ.typalign (off + bs.length)) elems :=
  ⟨null_tail h, fun cs hcs => h.image cs (List.mem_cons_of_mem _ hcs),
    fun p cs hp => h.stored p cs (List.mem_cons_of_mem _ hp)⟩

/-- The fetch of a null. -/
theorem fetchElement_none (h : Rest arr op.typ k off (none :: elems)) (rn : Bool) :
    op.fetchElement charIsSigned arr (stateAt arr k off rn) = (arr.argument charIsSigned op.typ none, off) := by
  have hnull : arr.nullAt k = true := h.null 0 none rfl
  rw [ScalarArrayOp.fetchElement, elementIsNull_stateAt, hnull, if_pos rfl]
  rfl

/-- The fetch of a value. -/
theorem fetchElement_some (hvalid : TypeValid op.typ.typlen op.typ.typbyval op.typ.typalign)
    (h : Rest arr op.typ k off (some bs :: elems)) (rn : Bool) :
    op.fetchElement charIsSigned arr (stateAt arr k off rn) =
      (arr.argument charIsSigned op.typ (some (off, bs)), alignUp op.typ.typalign (off + bs.length)) := by
  have hnull : arr.nullAt k = false := h.null 0 (some bs) rfl
  have himage : op.typ.Image bs := h.image bs List.mem_cons_self
  have hstored := h.stored off bs List.mem_cons_self
  rw [ScalarArrayOp.fetchElement, elementIsNull_stateAt, hnull, if_neg Bool.false_ne_true]
  rw [show (stateAt arr k off rn).s = off from rfl, fetchAtt_stored hvalid hstored himage,
    attAddlengthPointer_stored hstored himage]

/-- The call of a turn gives the comparison, unless a null scalar met a strict function. -/
theorem callElement_eq (hscalar : (scalar.isnull && op.fnStrict) = false) (elt : NullableDatum) :
    op.compare scalar elt = if (op.callElement scalar elt).isnull then none
      else some (datumGetBool (op.callElement scalar elt).value) := by
  unfold ScalarArrayOp.compare ScalarArrayOp.callElement
  cases hs : op.fnStrict <;> cases hn : scalar.isnull <;> cases he : elt.isnull <;> simp_all

/-- A turn: the scan of the comparisons takes a step. -/
theorem elementLoop_succ (hscalar : (scalar.isnull && op.fnStrict) = false) {elt : NullableDatum} {off' : Nat} {rn : Bool}
    (hfetch : op.fetchElement charIsSigned arr (stateAt arr k off rn) = (elt, off')) (n : Nat) {l : List (Option Bool)}
    (hrest : ∀ rn', (op.elementLoop charIsSigned arr scalar n (stateAt arr (k + 1) off' rn')).IsTruth (Kleene.scan op.useOr rn' l)) :
    (op.elementLoop charIsSigned arr scalar (n + 1) (stateAt arr k off rn)).IsTruth
      (Kleene.scan op.useOr rn (op.compare scalar elt :: l)) := by
  have hstate : ∀ rn', arr.nextBit { stateAt arr k off rn with s := off', resultnull := rn' } = stateAt arr (k + 1) off' rn' :=
    fun rn' => nextBit_stateAt k off' rn'
  have hsame : { stateAt arr k off rn with s := off' } = { stateAt arr k off rn with s := off', resultnull := rn } := rfl
  rw [ScalarArrayOp.elementLoop, hfetch, callElement_eq hscalar, Kleene.scan]
  dsimp only
  rw [hsame, hstate, hstate]
  cases hisnull : (op.callElement scalar elt).isnull with
  | true => simpa using hrest true
  | false =>
    have hnext := hrest rn
    have hdecided : ∀ b, NullableDatum.IsTruth ⟨boolGetDatum b, false⟩ (some b) := fun _ => rfl
    cases hor : op.useOr <;> cases hval : datumGetBool (op.callElement scalar elt).value <;> rw [hor] at hnext <;>
      simp [hdecided, hnext]

/-- The loop scans the comparisons of the elements that are left. -/
theorem elementLoop_spec (charIsSigned : Bool) (hscalar : (scalar.isnull && op.fnStrict) = false)
    (hvalid : TypeValid op.typ.typlen op.typ.typbyval op.typ.typalign) (h : Rest arr op.typ k off elems) (rn : Bool) :
    (op.elementLoop charIsSigned arr scalar elems.length (stateAt arr k off rn)).IsTruth
      (Kleene.scan op.useOr rn (((op.typ.place off elems).map (arr.argument charIsSigned op.typ)).map (op.compare scalar))) := by
  induction elems generalizing k off rn with
  | nil => cases rn <;> simp [ScalarArrayOp.elementLoop, stateAt, TypLenByValAlign.place, Kleene.scan, NullableDatum.IsTruth]
  | cons e elems ih =>
    cases e with
    | none => exact elementLoop_succ hscalar (fetchElement_none h rn) _ fun rn' => ih h.tail_none rn'
    | some bs => exact elementLoop_succ hscalar (fetchElement_some hvalid h rn) _ fun rn' => ih h.tail_some rn'

end Loop

/-! ## The shortcut -/

section Shortcut

variable {typ : TypLenByValAlign} {elems : List (Option (List (BitVec 8)))} {w : Nat}

/-- Values as long as their alignment are next to each other. -/
theorem place_getElem? (hw : 0 < w) (halign : typ.typalign = w) (hlen : ∀ e ∈ elems, ∃ bs, e = some bs ∧ bs.length = w)
    {off : Nat} (hoff : w ∣ off) (i : Nat) :
    (typ.place off elems)[i]? = elems[i]?.map fun e => e.map fun bs => (off + w * i, bs) := by
  induction elems generalizing off i with
  | nil => rfl
  | cons e elems ih =>
    obtain ⟨bs, rfl, hbs⟩ := hlen e List.mem_cons_self
    rw [TypLenByValAlign.place]
    cases i with
    | zero => rfl
    | succ i =>
      have hend : w ∣ off + bs.length := by rw [hbs]; exact Nat.dvd_add hoff (Nat.dvd_refl w)
      rw [halign, alignUp_of_dvd hw hend, List.getElem?_cons_succ, List.getElem?_cons_succ,
        ih (fun e he => hlen e (List.mem_cons_of_mem _ he)) hend, hbs, Nat.mul_succ]
      congr 1
      funext e
      congr 1
      funext cs
      rw [Prod.mk.injEq]
      exact ⟨by omega, rfl⟩

/-- The elements of a by-value type of `w` bytes, more than one, all of them there, are passed as the words of the data. -/
theorem arguments_eq_words (hw : 1 < w) (hvalid : TypeValid typ.typlen typ.typbyval typ.typalign) (hlen : typ.typlen = w)
    (hbyval : typ.typbyval = true) (hbitmap : arr.nullBitmap = none) (h : arr.Holds typ elems) :
    arr.arguments charIsSigned typ elems = (List.range elems.length).map fun i => ⟨(arr.words w i).signExtend 64, false⟩ := by
  have halign : typ.typalign = w := by
    rcases hvalid with ⟨_, _, halign⟩ | ⟨hfalse, _⟩
    · omega
    · exact absurd (hbyval.symm.trans hfalse) (by decide)
  have hall : ∀ e ∈ elems, ∃ bs, e = some bs ∧ bs.length = w := by
    intro e he
    obtain ⟨k, hk⟩ := List.mem_iff_getElem?.mp he
    have hnull := h.null k e hk
    rw [ArrayDatum.nullAt, hbitmap] at hnull
    cases e with
    | none => cases hnull
    | some bs =>
      have himage := h.image bs he
      rw [TypLenByValAlign.Image, if_pos (by omega)] at himage
      exact ⟨bs, rfl, by omega⟩
  have hplace := place_getElem? (Nat.lt_of_succ_lt hw) halign hall (Nat.dvd_zero w)
  refine List.ext_getElem? fun i => ?_
  rw [ArrayDatum.arguments, List.getElem?_map, hplace, List.getElem?_map]
  rcases Nat.lt_or_ge i elems.length with hi | hi
  · obtain ⟨bs, hbs, hbslen⟩ := hall elems[i] (List.getElem_mem hi)
    have hi? : elems[i]? = some (some bs) := by rw [List.getElem?_eq_getElem hi, hbs]
    have hmem : some (0 + w * i, bs) ∈ typ.place 0 elems :=
      List.mem_iff_getElem?.mpr ⟨i, by rw [hplace, hi?, Option.map_some, Option.map_some]⟩
    have hstored := h.stored _ _ hmem
    have hword : arr.area.leNat (w * i) w = ByteMemory.leNat bs := by
      rw [Nat.zero_add] at hstored
      rw [← hbslen] at hstored ⊢
      exact leNat_stored fun j hj => byte_stored hstored hj
    rw [hi?, List.getElem?_range hi, Option.map_some, Option.map_some, Option.map_some, Option.map_some, ArrayDatum.argument,
      hbyval, if_pos rfl, ArrayDatum.words, hword, hbslen, fetchByval, if_neg fun h => Nat.ne_of_gt hw h.1]
  · rw [List.getElem?_eq_none hi, List.getElem?_eq_none (by simpa using hi)]
    rfl

variable {op : ScalarArrayOp} {scalar : NullableDatum}

/-- A comparison of words by `f`, which decides whether they are equal. -/
theorem sqlResult_words (hor : op.useOr = true) {f : Nat → Bool} {elts : Nat → NullableDatum} {n : Nat}
    (hcompare : ∀ i, op.compare scalar (elts i) = some (f i)) :
    op.sqlResult scalar ((List.range n).map elts) = some ((List.range n).any f) := by
  rw [ScalarArrayOp.sqlResult, if_pos hor, Kleene.anyOf_eq, List.map_map]
  rw [← Kleene.decidedBy_true_map]
  congr 1
  exact List.map_congr_left fun i _ => hcompare i

/-- A comparison by a function that returns a truth value for every two words. -/
theorem compare_of_call (hscalar : (scalar.isnull && op.fnStrict) = false) {value : Datum} {b : Bool}
    (hcall : op.fnAddr.call scalar ⟨value, false⟩ = ⟨boolGetDatum b, false⟩) :
    op.compare scalar ⟨value, false⟩ = some b := by
  have hcond : (op.fnStrict && (scalar.isnull || false)) = false := by rw [Bool.or_false, Bool.and_comm]; exact hscalar
  rw [ScalarArrayOp.compare, hcond, if_neg Bool.false_ne_true, hcall, if_neg Bool.false_ne_true]
  cases b <;> rfl

/-- The search for an integer is the comparison with one item after the other. -/
theorem int4_array_any (variant : SimdVariant) (val : BitVec 32) (data : Nat → BitVec 32) (nitems : Nat) :
    variant.simdInt4ArrayEq val data nitems = (List.range nitems).any fun i => val == data i := by
  rw [Bool.eq_iff_iff, SimdHelpersAux.int4_array_iff]
  simp only [List.any_eq_true, List.mem_range, beq_iff_eq]
  exact exists_congr fun i => and_congr_right fun _ => eq_comm

/-- The search for a wide integer is the comparison with one item after the other. -/
theorem int8_array_any (variant : SimdVariant) (val : BitVec 64) (data : Nat → BitVec 64) (nitems : Nat) :
    variant.simdInt8ArrayEq val data nitems = (List.range nitems).any fun i => val == data i := by
  rw [Bool.eq_iff_iff, SimdHelpersAux.int8_array_iff]
  simp only [List.any_eq_true, List.mem_range, beq_iff_eq]
  exact exists_congr fun i => and_congr_right fun _ => eq_comm

/-- Where the shortcut is taken it finds what the comparisons say. -/
theorem shortcut_spec (hscalar : (scalar.isnull && op.fnStrict) = false)
    (hvalid : TypeValid op.typ.typlen op.typ.typbyval op.typ.typalign) (h : arr.Holds op.typ elems) {variant : SimdVariant} {found : Bool}
    (hshort : op.shortcut variant arr scalar.value elems.length = some found) :
    op.sqlResult scalar (arr.arguments charIsSigned op.typ elems) = some found := by
  unfold ScalarArrayOp.shortcut at hshort
  split at hshort
  · rename_i hguard
    rw [Bool.and_eq_true, Bool.and_eq_true, Option.isNone_iff_eq_none] at hguard
    obtain ⟨⟨hbitmap, hbyval⟩, hor⟩ := hguard
    cases hfn : op.fnAddr with
    | int4eq =>
      simp only [hfn, Option.ite_none_right_eq_some, Option.some.injEq] at hshort
      obtain ⟨hlen, rfl⟩ := hshort
      rw [arguments_eq_words (w := 4) (by decide) hvalid hlen hbyval hbitmap h, int4_array_any]
      refine sqlResult_words hor fun i => compare_of_call hscalar ?_
      rw [hfn, PGFunction.call, setWidth_signExtend (by decide)]
    | int8eq =>
      simp only [hfn, Option.ite_none_right_eq_some, Option.some.injEq] at hshort
      obtain ⟨hlen, rfl⟩ := hshort
      rw [arguments_eq_words (w := 8) (by decide) hvalid hlen hbyval hbitmap h, int8_array_any]
      refine sqlResult_words hor fun i => compare_of_call hscalar ?_
      rw [hfn, PGFunction.call, BitVec.signExtend_eq]
    | other f => simp only [hfn, reduceCtorEq] at hshort
  · cases hshort

end Shortcut

/-! ## The generic path -/

/-- The generic path gives the answer. -/
theorem generic_spec (charIsSigned : Bool) {op : ScalarArrayOp} {scalar : NullableDatum} {elems : List (Option (List (BitVec 8)))}
    (hscalar : (scalar.isnull && op.fnStrict) = false)
    (hvalid : TypeValid op.typ.typlen op.typ.typbyval op.typ.typalign) (h : arr.Holds op.typ elems) :
    (op.generic charIsSigned arr scalar elems.length).IsTruth (op.sqlResult scalar (arr.arguments charIsSigned op.typ elems)) := by
  have hstart : (⟨0, 1, 0, false⟩ : SaopLoopState) = stateAt arr 0 0 false := by simp [stateAt]
  have hloop := elementLoop_spec charIsSigned hscalar hvalid (rest_zero h) false
  rw [Kleene.scan_false] at hloop
  rw [ScalarArrayOp.generic, hstart, ScalarArrayOp.sqlResult]
  cases hor : op.useOr with
  | true =>
    rw [hor] at hloop
    rw [if_pos rfl, Kleene.anyOf_eq]
    exact hloop
  | false =>
    rw [hor] at hloop
    rw [if_neg Bool.false_ne_true, Kleene.allOf_eq]
    exact hloop

/-- What is looked up is right, and kept. -/
theorem cacheElementType_spec {op : ScalarArrayOp} {cat : TypeCatalog} (hop : op.Consistent cat) {elemtype : Nat}
    (hne : elemtype ≠ 0) : (op.cacheElementType cat elemtype).typ = cat.getTyplenbyvalalign elemtype ∧
      (op.cacheElementType cat elemtype).Consistent cat := by
  unfold ScalarArrayOp.cacheElementType
  split
  · exact ⟨rfl, .inr rfl⟩
  · rename_i hsame
    have hsame : op.elementType = elemtype := not_not.mp hsame
    rcases hop with hzero | htyp
    · exact absurd (hsame.symm.trans hzero) hne
    · exact ⟨hsame ▸ htyp, .inr htyp⟩

/-- A call leaves the step fit for the next array. -/
theorem loop_consistent {op : ScalarArrayOp} {cat : TypeCatalog} (hop : op.Consistent cat) (variant : SimdVariant) (charIsSigned : Bool)
    (hne : arr.elemtype ≠ 0) (scalar res : NullableDatum) : (op.loop cat variant charIsSigned arr scalar res).1.Consistent cat := by
  unfold ScalarArrayOp.loop
  simp only
  split
  · exact hop
  · split
    · exact hop
    · split <;> exact (cacheElementType_spec hop hne).2

end ScalarArrayOpAux
end PgJitter
