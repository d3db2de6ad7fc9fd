import PgJitter.InListHash
import PgJitter.Lib.BinarySearch
import PgJitter.Lemmas.HashedSaop
import PgJitter.Lemmas.ScalarArrayOp

/-!
# Helpers for `InListHash.lean`: the size of a table, the table of texts as one of payloads, the walk, and the sorted array

The doubling ends within its turns, at a power of two that is at least twice the number of values. The entries of a table of texts are
read as a table of payloads, on which the two loops of the text functions are those of linear probing. The loop over a sorted array is
the narrowing of a window, whatever the array holds; in a non-decreasing one it leaves the first entry that is not below the value.
-/

namespace PgJitter
namespace InListHashAux

open Layout HashedSaopAux ScalarArrayOpAux

/-! ## The size of a table -/

/-- The loop returns what the doubling gives. -/
theorem tableSizeLoop_returned {minSlots turns tableSize size : Nat} :
    tableSizeLoop minSlots turns tableSize = .returned size ↔ growTable minSlots turns tableSize = some size := by
  induction turns generalizing tableSize with
  | zero => simp [tableSizeLoop, growTable]
  | succ turns ih =>
    rw [tableSizeLoop, growTable]
    split
    · split
      · simp
      · exact ih
    · simp

/-- The loop ends: from a power of two, before the next one passes `INT_MAX`. -/
theorem tableSizeLoop_ends {minSlots turns a : Nat} (hturns : 31 ≤ a + turns) (hpos : 0 < turns) :
    tableSizeLoop minSlots turns (2 ^ a) ≠ .unended := by
  induction turns generalizing a with
  | zero => exact absurd hpos (Nat.lt_irrefl 0)
  | succ turns ih =>
    rw [tableSizeLoop]
    split
    · split
      · simp
      · rename_i hsmall
        have ha : a < 30 := by
          refine (Nat.pow_lt_pow_iff_right (a := 2) (by decide)).1 ?_
          rw [intMax] at hsmall
          omega
        rw [← Nat.pow_succ]
        exact ih (by omega) (by omega)
    · simp

/-- What the size of a table is, when there is one. -/
structure SizeFor (nvals size : Nat) : Prop where
  power : ∃ b, size = 2 ^ b
  room : nvals < size

/-- The computation of the size ends, with an error or a size that has room. -/
theorem hashTableSize_cases (headerSize slotSize nvals : Nat) :
    hashTableSize headerSize slotSize nvals = .raised ∨
      ∃ size, hashTableSize headerSize slotSize nvals = .returned size ∧ SizeFor nvals size := by
  unfold hashTableSize
  split
  · exact .inl rfl
  · rename_i hvals
    rw [not_or] at hvals
    cases hloop : tableSizeLoop (nvals * 2) 30 16 with
    | raised => exact .inl rfl
    | unended => exact absurd hloop (tableSizeLoop_ends (a := 4) (by decide) (by decide))
    | returned size =>
      obtain ⟨hmin, hpower⟩ := growTable_some (a := 4) (tableSizeLoop_returned.1 hloop)
      rw [LoopResult.returned_bind]
      split
      · exact .inl rfl
      · exact .inr ⟨size, rfl, hpower, by omega⟩

/-- For so many values that `16 * 2 ^ k` slots are enough, and fit, there is a size. -/
theorem hashTableSize_returned (headerSize slotSize k : Nat) {nvals : Nat} (hpos : 0 < nvals) (hk : k < 27) (hroom : nvals * 2 ≤ 16 * 2 ^ k)
    (hfits : 16 * 2 ^ k ≤ (maxAllocSize - headerSize) / slotSize) :
    ∃ size, hashTableSize headerSize slotSize nvals = .returned size := by
  have hpow : 2 ^ k ≤ 2 ^ 26 := Nat.pow_le_pow_right (by decide) (by omega)
  have hmax : 16 * 2 ^ k ≤ intMax := by rw [intMax]; omega
  have hgrow : ∃ size, growTable (nvals * 2) 30 16 = some size ∧ size ≤ 16 * 2 ^ k := growTable_isSome hroom hmax (by omega)
  obtain ⟨size, hsize, hle⟩ := hgrow
  refine ⟨size, ?_⟩
  rw [hashTableSize, if_neg (by rw [intMax]; omega), tableSizeLoop_returned.2 hsize, LoopResult.returned_bind, if_neg (by omega)]

/-! ## Slots -/

/-- The next slot is the next one in the round. -/
theorem nextSlot_round (b : Nat) : ∀ i < 2 ^ b, nextSlot (2 ^ b - 1) i = (i + 1) % 2 ^ b := fun _ _ => nextSlot_eq

/-- A masked hash is a slot. -/
theorem masked_lt (b h : Nat) : h &&& (2 ^ b - 1) < 2 ^ b := by
  rw [Nat.and_two_pow_sub_one_eq_mod]
  exact Nat.mod_lt _ (Nat.two_pow_pos b)

/-! ## Texts -/

variable {hash : List Byte → BitVec 32}

/-- The entries as a table of payloads. -/
def payloads (entries : Nat → TextHashEntry) : LinearProbing.Table (List Byte) :=
  fun i => if (entries i).hash = 0 then none else some (entries i).data

/-- The home slot of a payload. -/
def textHome (hash : List Byte → BitVec 32) (mask : Nat) (data : List Byte) : Nat := (textHybridHash hash data).toNat &&& mask

/-- Every entry that is not empty has the hash and the length of its payload. -/
def Wf (hash : List Byte → BitVec 32) (entries : Nat → TextHashEntry) : Prop :=
  ∀ i, (entries i).hash ≠ 0 → (entries i).hash = textHybridHash hash (entries i).data ∧ (entries i).len = (entries i).data.length

/-- The hash of a text is not the mark of an empty entry. -/
theorem textHybridHash_ne_zero (data : List Byte) : textHybridHash hash data ≠ 0 := by
  intro h
  have hbit := congrArg (fun v => v.getLsbD 0) h
  simp [textHybridHash] at hbit

/-- The search for an empty entry is that for a free slot. -/
theorem emptyEntryLoop_eq (mask turns idx : Nat) (entries : Nat → TextHashEntry) :
    emptyEntryLoop mask entries turns idx = LinearProbing.freeSlot (nextSlot mask) (payloads entries) turns idx := by
  induction turns generalizing idx with
  | zero => rfl
  | succ turns ih =>
    rw [emptyEntryLoop, LinearProbing.freeSlot, ih, payloads]
    by_cases hempty : (entries idx).hash = 0 <;> simp [hempty]

/-- An entry that is written holds its payload. -/
theorem payloads_update (entries : Nat → TextHashEntry) (idx len : Nat) (src : List Byte) :
    payloads (Function.update entries idx ⟨textHybridHash hash src, len, src⟩) = Function.update (payloads entries) idx (some src) := by
  funext i
  by_cases hi : i = idx
  · subst hi
    rw [payloads, Function.update_self, Function.update_self]
    exact if_neg (textHybridHash_ne_zero src)
  · simp [payloads, hi]

/-- An insertion into well-formed entries is one into the table of payloads, and keeps them well-formed. -/
theorem textHashInsert_eq {mask : Nat} {entries : Nat → TextHashEntry} (hwf : Wf hash entries) {src : List Byte}
    {t : LinearProbing.Table (List Byte)}
    (h : LinearProbing.tryInsert (mask + 1) (nextSlot mask) (textHome hash mask) (payloads entries) src = some t) :
    ∃ entries', textHashInsert hash mask entries src = some entries' ∧ payloads entries' = t ∧ Wf hash entries' := by
  obtain ⟨idx, hidx, rfl⟩ := Option.map_eq_some_iff.1 h
  refine ⟨Function.update entries idx ⟨textHybridHash hash src, src.length, src⟩, ?_, payloads_update entries idx src.length src, ?_⟩
  · rw [textHashInsert, emptyEntryLoop_eq]
    exact Option.map_eq_some_iff.2 ⟨idx, hidx, rfl⟩
  · intro i
    by_cases hi : i = idx
    · subst hi
      simp
    · simpa [hi] using hwf i

/-- All the insertions. -/
theorem textHashInsert_foldlM {mask : Nat} {texts : List (List Byte)} {entries : Nat → TextHashEntry} (hwf : Wf hash entries)
    {t : LinearProbing.Table (List Byte)}
    (h : texts.foldlM (LinearProbing.tryInsert (mask + 1) (nextSlot mask) (textHome hash mask)) (payloads entries) = some t) :
    ∃ entries', texts.foldlM (textHashInsert hash mask) entries = some entries' ∧ payloads entries' = t ∧ Wf hash entries' := by
  induction texts generalizing entries with
  | nil => exact ⟨entries, rfl, Option.some.inj h, hwf⟩
  | cons src texts ih =>
    rw [List.foldlM_cons] at h
    obtain ⟨t', hfirst, hrest⟩ := Option.bind_eq_some_iff.1 h
    obtain ⟨entries', hinsert, rfl, hwf'⟩ := textHashInsert_eq hwf hfirst
    obtain ⟨entries'', hfold, hrest'⟩ := ih hwf' hrest
    refine ⟨entries'', ?_, hrest'⟩
    rw [List.foldlM_cons, hinsert]
    exact hfold

/-- The probe of well-formed entries is the lookup in the table of payloads. -/
theorem textProbeLoop_eq (sz : StringZilla) {mask : Nat} {entries : Nat → TextHashEntry} (hwf : Wf hash entries) (data : List Byte)
    (turns idx : Nat) :
    textProbeLoop sz mask entries (textHybridHash hash data) data turns idx =
      LinearProbing.lookup (nextSlot mask) (payloads entries) data turns idx := by
  induction turns generalizing idx with
  | zero => rfl
  | succ turns ih =>
    rw [textProbeLoop, LinearProbing.lookup, ih]
    by_cases hempty : (entries idx).hash = 0
    · simp [hempty, payloads]
    · obtain ⟨hhash, hlen⟩ := hwf idx hempty
      have hpayload : payloads entries idx = some (entries idx).data := if_neg hempty
      have htest : (decide ((entries idx).hash = textHybridHash hash data) && decide ((entries idx).len = data.length) &&
          sz.equal data ((entries idx).data.take data.length)) = decide ((entries idx).data = data) := by
        rw [hlen]
        by_cases hl : (entries idx).data.length = data.length
        · rw [← hl, List.take_length, Bool.eq_iff_iff]
          have hequal := sz.equal_iff data (entries idx).data hl.symm
          simp only [Bool.and_eq_true, decide_eq_true_eq, and_true, hequal]
          exact ⟨fun h => h.2.symm, fun h => ⟨by rw [hhash, h], h.symm⟩⟩
        · have hne : (entries idx).data ≠ data := fun h => hl (congrArg List.length h)
          simp [hl, hne]
      rw [if_neg hempty, hpayload]
      dsimp only
      rw [htest]
      simp

/-- A table of texts that is large enough. -/
theorem textHashBuild_table (sz : StringZilla) (hash : List Byte → BitVec 32) {b : Nat} {texts : List (List Byte)}
    (hroom : texts.length < 2 ^ b) :
    ∃ entries, texts.foldlM (textHashInsert hash (2 ^ b - 1)) (fun _ => ⟨0, 0, []⟩) = some entries ∧
      ∀ data, ∃ found, textProbeLoop sz (2 ^ b - 1) entries (textHybridHash hash data) data (2 ^ b) (textHome hash (2 ^ b - 1) data) =
        some found ∧ (found = true ↔ data ∈ texts) := by
  have hslots : 2 ^ b - 1 + 1 = 2 ^ b := Nat.sub_add_cancel Nat.one_le_two_pow
  have hhome : ∀ data, textHome hash (2 ^ b - 1) data < 2 ^ b := fun data => masked_lt b _
  have hbuild := LinearProbing.tryBuild_eq (nextSlot_round b) hhome (Nat.le_of_lt hroom)
  rw [LinearProbing.tryBuild, ← hslots] at hbuild
  have hempty : payloads (fun _ => ⟨0, 0, []⟩) = fun _ => none := rfl
  rw [← hempty] at hbuild
  obtain ⟨entries, hfold, hpayloads, hwf⟩ := textHashInsert_foldlM (fun i h => absurd rfl h) hbuild
  have hbuilt := LinearProbing.built_build (nextSlot_round b) hhome (Nat.le_of_lt hroom)
  refine ⟨entries, hfold, fun data => ?_⟩
  have hlookup := LinearProbing.lookup_built (nextSlot_round b) hhome hbuilt hroom data
  rw [textProbeLoop_eq sz hwf, hpayloads, hslots]
  exact ⟨_, hlookup, by simp⟩

/-! ## The walk -/

/-- The walk gives the Datums of the elements that are not null, in their order, and whether it met a null. -/
theorem textValsLoop_eq (charIsSigned : Bool) {arr : ArrayDatum} {typ : TypLenByValAlign}
    (hvalid : TypeValid typ.typlen typ.typbyval typ.typalign)
    {k off : Nat} {elems : List (Option (List (BitVec 8)))} (h : Rest arr typ k off elems) (nulls : Bool) :
    textValsLoop charIsSigned arr typ elems.length (stateAt arr k off nulls) =
      ((((typ.place off elems).map (arr.argument charIsSigned typ)).filter fun arg => !arg.isnull).map NullableDatum.value,
        nulls || elems.any Option.isNone) := by
  induction elems generalizing k off nulls with
  | nil => simp [textValsLoop, TypLenByValAlign.place, stateAt]
  | cons e elems ih =>
    have hnull : arr.nullAt k = e.isNone := h.null 0 e rfl
    rw [List.length_cons, textValsLoop, elementIsNull_stateAt, hnull]
    cases e with
    | none =>
      have hstate : arr.nextBit { stateAt arr k off nulls with resultnull := true } = stateAt arr (k + 1) off true :=
        nextBit_stateAt k off true
      rw [Option.isNone_none, if_pos rfl, hstate, ih h.tail_none]
      simp [TypLenByValAlign.place, ArrayDatum.argument]
    | some bs =>
      have himage : typ.Image bs := h.image bs List.mem_cons_self
      have hstored := h.stored off bs List.mem_cons_self
      have hs : (stateAt arr k off nulls).s = off := rfl
      have hstate : ∀ off', arr.nextBit { stateAt arr k off nulls with s := off' } = stateAt arr (k + 1) off' nulls :=
        fun off' => nextBit_stateAt k off' nulls
      have hfetch : arr.fetchAtt charIsSigned typ off = (arr.argument charIsSigned typ (some (off, bs))).value :=
        congrArg NullableDatum.value (fetchAtt_stored hvalid hstored himage)
      rw [Option.isNone_some, if_neg Bool.false_ne_true, hs, hstate, attAddlengthPointer_stored hstored himage, ih h.tail_some, hfetch]
      simp [TypLenByValAlign.place, ArrayDatum.argument]

/-! ## The sorted array -/

/-- An entry that the value is not above. -/
def notBelow (vals : List (BitVec 32)) (val : BitVec 32) (i : Nat) : Bool := vals[i]?.any fun v => !v.slt val

theorem notBelow_eq {vals : List (BitVec 32)} {val : BitVec 32} {i : Nat} (h : i < vals.length) :
    notBelow vals val i = !(vals[i].slt val) := by
  rw [notBelow, List.getElem?_eq_getElem h, Option.any_some]

/-- An entry of the array is read. -/
theorem entry_eq {sa : SortedInt32Array} {i : Nat} (h : i < sa.vals.length) : sa.entry i = .ok sa.vals[i] := by
  rw [SortedInt32Array.entry, List.getElem?_eq_getElem h]

/-- The loop narrows its window inside the array, in one turn more than the halvings that a window of `2 ^ k` takes. -/
theorem sortedArrayProbeLoop_eq {sa : SortedInt32Array} {val : BitVec 32} {base n k : Nat} (hfits : base + n ≤ sa.vals.length)
    (hk : n ≤ 2 ^ k) :
    sortedArrayProbeLoop sa val (k + 1) base n = .ok (BinarySearch.narrow (notBelow sa.vals val) base n, min n 1) := by
  induction k generalizing base n with
  | zero =>
    have hn : ¬ n > 1 := by simpa using hk
    rw [sortedArrayProbeLoop, if_neg hn, BinarySearch.narrow, if_neg hn, Nat.min_eq_left (Nat.not_lt.1 hn)]
  | succ k ih =>
    rw [sortedArrayProbeLoop, BinarySearch.narrow]
    by_cases hn : n > 1
    · have hmid : base + (n / 2 - 1) < sa.vals.length := by omega
      have hpart := BinarySearch.advance_mem (notBelow sa.vals val) base n
      have hbase : base + (sa.vals[base + (n / 2 - 1)].slt val).toNat * (n / 2) =
          BinarySearch.advance (notBelow sa.vals val) base n := by
        rw [BinarySearch.advance, show base + n / 2 - 1 = base + (n / 2 - 1) by omega, notBelow_eq hmid]
        cases sa.vals[base + (n / 2 - 1)].slt val <;> simp
      have hhalf : n - n / 2 ≤ 2 ^ k := by
        rw [Nat.pow_succ] at hk
        omega
      rw [if_pos hn, if_pos hn]
      dsimp only
      rw [Nat.shiftRight_one, entry_eq hmid]
      dsimp only [Except.bind]
      rw [hbase, ih (by omega) hhalf, show min (n - n / 2) 1 = min n 1 by omega]
    · rw [if_neg hn, if_neg hn, Nat.min_eq_left (Nat.not_lt.1 hn)]

/-- In a non-decreasing array, the entries that the value is not above are the last ones. -/
theorem notBelow_upClosed {vals : List (BitVec 32)} (hsorted : vals.Pairwise fun a b => a.toInt ≤ b.toInt) (val : BitVec 32) :
    BinarySearch.UpClosed (notBelow vals val) vals.length := by
  intro i j hij hj hi
  rcases Nat.eq_or_lt_of_le hij with rfl | hlt
  · exact hi
  · have hle := List.pairwise_iff_getElem.1 hsorted i j (by omega) hj hlt
    rw [notBelow_eq (by omega)] at hi
    rw [notBelow_eq hj]
    simp only [BitVec.slt, Bool.not_eq_true', decide_eq_false_iff_not] at hi ⊢
    omega

/-- A value that occurs is the entry that the narrowing leaves. -/
theorem narrow_found {vals : List (BitVec 32)} (hsorted : vals.Pairwise fun a b => a.toInt ≤ b.toInt) {val : BitVec 32} (h : val ∈ vals) :
    vals[BinarySearch.narrow (notBelow vals val) 0 vals.length]? = some val := by
  obtain ⟨j, hj, rfl⟩ := List.getElem_of_mem h
  have hup := notBelow_upClosed hsorted vals[j]
  have hfirst := BinarySearch.isFirst_lowerBound hup
  -- the entry itself passes, so that the first that passes is not after it
  have hpass : notBelow vals vals[j] j = true := by
    rw [notBelow_eq hj]
    simp [BitVec.slt]
  have hle : BinarySearch.lowerBound (notBelow vals vals[j]) 0 vals.length ≤ j := by
    by_contra hgt
    exact absurd (hpass.symm.trans (hfirst.before j (by omega))) Bool.noConfusion
  have hlt := Nat.lt_of_le_of_lt hle hj
  rw [BinarySearch.narrow_eq hup hfirst (by omega) ⟨Nat.zero_le _, by omega⟩, List.getElem?_eq_getElem hlt]
  have hhere := hfirst.here hlt
  rw [notBelow_eq hlt] at hhere
  simp only [BitVec.slt, Bool.not_eq_true', decide_eq_false_iff_not] at hhere
  refine congrArg some (BitVec.eq_of_toInt_eq (Int.le_antisymm ?_ (by omega)))
  rcases Nat.eq_or_lt_of_le hle with heq | hbefore
  · simp [heq]
  · exact List.pairwise_iff_getElem.1 hsorted _ j hlt hj hbefore

end InListHashAux
end PgJitter
