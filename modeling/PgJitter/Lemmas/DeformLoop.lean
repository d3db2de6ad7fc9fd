import PgJitter.DeformLoop
import PgJitter.Lemmas.Deform

/-!
# Helpers for `Theorems/DeformLoop.lean`: the loops over columns

A body that is right brings the arrays from one stored column to another: `Fills` says so, and bodies that fill adjacent ranges
compose. The vector loops and the loop over the set bits of a byte are shown to be the plain loops.
-/

namespace PgJitter
namespace DeformLoopAux

open Layout HeapTuple DeformAux

variable {t : HeapTuple} {charIsSigned : Bool} {desc : TupleDesc}

/-! ## Filling stored columns -/

/-- The state in which the columns from `i` to before `j` are deformed, on the arrays `s`. -/
def filled (charIsSigned : Bool) (t : HeapTuple) (desc : TupleDesc) (i j : Nat) (s : DeformState) : DeformState :=
  ⟨t.offAfter desc j, fill (t.storedValue charIsSigned desc) s.values i j, fill t.attIsnull s.isnull i j⟩

theorem filled_filled {i m j : Nat} (h : i ≤ m) (h' : m ≤ j) (s : DeformState) :
    filled charIsSigned t desc m j (filled charIsSigned t desc i m s) = filled charIsSigned t desc i j s := by
  simp only [filled, fill_fill _ _ h h']

/-- No column to deform. -/
theorem filled_self {i : Nat} {s : DeformState} (hs : s.off = t.offAfter desc i) : filled charIsSigned t desc i i s = s := by
  simp only [filled, fill_self, ← hs]

/-- A stored column is 0 when null. -/
theorem storedValue_of_null {k : Nat} (h : t.attIsnull k = true) : t.storedValue charIsSigned desc k = 0 := if_pos h

theorem storedValue_of_not_null {k : Nat} (h : t.attIsnull k = false) :
    t.storedValue charIsSigned desc k = t.fetchAtt charIsSigned (desc.att k) (t.attAlignPointer (desc.att k) (t.offAfter desc k)) := by
  rw [storedValue, if_neg (Bool.eq_false_iff.1 h)]

theorem offAfter_succ_of_null {k : Nat} (h : t.attIsnull k = true) : t.offAfter desc (k + 1) = t.offAfter desc k := if_pos h

theorem offAfter_succ_of_not_null {k : Nat} (h : t.attIsnull k = false) : t.offAfter desc (k + 1) =
    t.attAddlengthPointer (desc.att k) (t.attAlignPointer (desc.att k) (t.offAfter desc k)) := by
  rw [offAfter, if_neg (Bool.eq_false_iff.1 h)]

/-- A null column. -/
theorem store_null_eq {k : Nat} (h : t.attIsnull k = true) {s : DeformState} (hs : s.off = t.offAfter desc k) :
    s.store k ⟨0, true⟩ = filled charIsSigned t desc k (k + 1) s := by
  simp only [filled, fill_succ, storedValue_of_null h, h, offAfter_succ_of_null h, ← hs]
  rfl

/-- A column that is not null. -/
theorem store_value_eq {k off off' : Nat} (h : t.attIsnull k = false) {s : DeformState}
    (hoff : off = t.attAlignPointer (desc.att k) (t.offAfter desc k)) {value : Datum}
    (hvalue : value = t.fetchAtt charIsSigned (desc.att k) off) (hnext : off' = t.attAddlengthPointer (desc.att k) off) :
    { s.store k ⟨value, false⟩ with off := off' } = filled charIsSigned t desc k (k + 1) s := by
  subst hoff hvalue hnext
  simp only [filled, fill_succ, storedValue_of_not_null h, h, offAfter_succ_of_not_null h]
  rfl

/-- Columns that are all null, on arrays that say so. -/
theorem filled_of_null (charIsSigned : Bool) (t : HeapTuple) (desc : TupleDesc) {i j : Nat} (hij : i ≤ j)
    (hnull : ∀ k, i ≤ k → k < j → t.attIsnull k = true) {s : DeformState}
    (hs : s.off = t.offAfter desc i) (hvalues : ∀ k, i ≤ k → k < j → s.values k = 0)
    (hisnull : ∀ k, i ≤ k → k < j → s.isnull k = true) : filled charIsSigned t desc i j s = s := by
  have hoff : t.offAfter desc j = t.offAfter desc i := by
    clear hvalues hisnull
    induction j, hij using Nat.le_induction with
    | base => rfl
    | succ j hij ih =>
      rw [offAfter_succ_of_null (hnull j hij (Nat.lt_succ_self j))]
      exact ih fun k h h' => hnull k h (Nat.lt_succ_of_lt h')
  have hv : fill (t.storedValue charIsSigned desc) s.values i j = s.values := by
    funext k
    by_cases hk : i ≤ k ∧ k < j
    · rw [fill_of_mem _ _ hk.1 hk.2, storedValue_of_null (hnull k hk.1 hk.2), hvalues k hk.1 hk.2]
    · exact if_neg hk
  have hn : fill t.attIsnull s.isnull i j = s.isnull := by
    funext k
    by_cases hk : i ≤ k ∧ k < j
    · rw [fill_of_mem _ _ hk.1 hk.2, hnull k hk.1 hk.2, hisnull k hk.1 hk.2]
    · exact if_neg hk
  rw [filled, hoff, hv, hn, ← hs]

/-- A step that deforms its column where the deform of the column starts. -/
def StepRight (charIsSigned : Bool) (t : HeapTuple) (desc : TupleDesc) (step : Nat → DeformState → DeformState) (k : Nat) : Prop :=
  ∀ s : DeformState, s.off = t.offAfter desc k → step k s = filled charIsSigned t desc k (k + 1) s

/-- A loop of right steps. -/
theorem forColumns_eq {step : Nat → DeformState → DeformState} {n i : Nat} {s : DeformState} (hs : s.off = t.offAfter desc i)
    (h : ∀ k, i ≤ k → k < i + n → StepRight charIsSigned t desc step k) :
    forColumns step i n s = filled charIsSigned t desc i (i + n) s := by
  induction n generalizing i s with
  | zero => exact (filled_self hs).symm
  | succ n ih =>
    rw [forColumns, h i (Nat.le_refl i) (Nat.lt_add_of_pos_right n.succ_pos) s hs,
      ih (s := filled charIsSigned t desc i (i + 1) s) rfl fun k hk hk' => h k (Nat.le_of_succ_le hk) (by omega),
      filled_filled (Nat.le_succ i) (by omega), Nat.add_assoc, Nat.add_comm 1 n]

/-! ## The steps -/

/-- A tuple without a bitmap has no nulls; with one, the bits say which. -/
theorem attIsnull_eq (k : Nat) : t.attIsnull k = (t.hasnulls && !bitSet t k) := rfl

/-- A visit is right. -/
theorem visitColumn_right (k : Nat) : StepRight charIsSigned t desc (visitColumn t charIsSigned desc) k := by
  intro s hs
  rw [visitColumn]
  split
  · rename_i h
    exact store_null_eq h hs
  · rename_i h
    exact store_value_eq (Bool.eq_false_iff.2 h) (by rw [hs]) rfl rfl

/-- A column that is not null is visited by its descriptor. -/
theorem sparseColumn_eq {k : Nat} (h : t.attIsnull k = false) (s : DeformState) :
    sparseColumn t charIsSigned desc k s = visitColumn t charIsSigned desc k s := by
  have hoff : (if (desc.att k).attlen = -1 then t.attAlignPointer (desc.att k) s.off
      else if 1 < (desc.att k).attalignby then alignUp (desc.att k).attalignby s.off else s.off) =
      t.attAlignPointer (desc.att k) s.off := by
    split
    · rfl
    · rename_i hlen
      rw [attAlignPointer_of_ne hlen]
      split
      · rfl
      · rename_i halign
        rw [Nat.le_antisymm (Nat.not_lt.1 halign) (attalignby_pos _), alignUp_one]
  rw [visitColumn, if_neg (Bool.eq_false_iff.1 h), sparseColumn]
  dsimp only
  rw [hoff]

/-- A column of a tuple with a bitmap is visited by its bit. -/
theorem sparseBit_eq (hnulls : t.hasnulls = true) (k : Nat) (s : DeformState) :
    sparseBit t charIsSigned desc k s = visitColumn t charIsSigned desc k s := by
  have hbit : t.attIsnull k = !bitSet t k := by rw [attIsnull_eq, hnulls, Bool.true_and]
  unfold sparseBit
  split
  · rename_i h
    exact sparseColumn_eq (by rw [hbit, h]; rfl) s
  · rename_i h
    rw [visitColumn, if_pos (by rw [hbit, Bool.eq_false_iff.2 h]; rfl)]

/-- The load that a descriptor selects. -/
theorem descriptor_value_eq (att : CompactAttribute) (off : Nat) :
    (if !att.attbyval then t.pointer off
      else if att.attlen = 1 then t.load off 1
      else if att.attlen = 2 then t.load off 2
      else if att.attlen = 4 then t.load off 4
      else t.load off 8) = t.fetchAtt true att off := by
  by_cases hbyval : att.attbyval = true
  · have hlen := attlen_mem_of_byval hbyval
    simp only [List.mem_cons, List.not_mem_nil, or_false] at hlen
    rw [hbyval, Bool.not_true, if_neg Bool.false_ne_true]
    rcases hlen with h | h | h | h
    · rw [if_pos h, fetchAtt_of_byval (w := 1) hbyval h]
    · rw [if_neg (by omega), if_pos h, fetchAtt_of_byval (w := 2) hbyval h]
    · rw [if_neg (by omega), if_neg (by omega), if_pos h, fetchAtt_of_byval (w := 4) hbyval h]
    · rw [if_neg (by omega), if_neg (by omega), if_neg (by omega), fetchAtt_of_byval (w := 8) hbyval h]
  · rw [fetchAtt_of_not_byval (Bool.eq_false_iff.2 hbyval), Bool.eq_false_iff.2 hbyval, Bool.not_false, if_pos rfl]

/-- The step over a column that a descriptor selects. -/
theorem descriptor_next_eq (att : CompactAttribute) (off : Nat) :
    (if 0 < att.attlen then off + att.attlen.toNat
      else if att.attlen = -1 then off + t.varsizeAny off
      else off + (t.strlen off + 1)) = t.attAddlengthPointer att off := by
  rw [attAddlengthPointer, Nat.add_assoc]

/-- The step of the loop over descriptors is right for a stored column. -/
theorem descriptorStep_right (hconf : t.Conforms desc) {natts k : Nat} (hk : k < t.natts) (hk' : k < natts) :
    StepRight true t desc (descriptorStep t desc (allNotnull desc natts)) k := by
  intro s hs
  have hcond : (!allNotnull desc natts && !(desc.att k).attnotnull && t.hasnulls && !bitSet t k) = t.attIsnull k := by
    rw [Bool.and_assoc, ← attIsnull_eq]
    by_cases hatt : (desc.att k).attnotnull = true
    · rw [hconf.notnull k hk hatt, Bool.and_false]
    · have hall : allNotnull desc natts = false := by
        rw [← Bool.not_eq_true, allNotnull, List.all_eq_true]
        exact fun h => hatt (h k (List.mem_range.2 hk'))
      rw [hall, Bool.eq_false_iff.2 hatt, Bool.not_false, Bool.true_and, Bool.true_and]
  dsimp only [descriptorStep]
  rw [hcond]
  split
  · rename_i h
    exact store_null_eq h hs
  · rename_i h
    refine store_value_eq (Bool.eq_false_iff.2 h) ?_ (descriptor_value_eq _ _) (descriptor_next_eq _ _)
    rw [hs]
    unfold attAlignPointer
    split
    · rename_i halign
      rw [Nat.le_antisymm halign (attalignby_pos _), alignUp_one, ite_self]
    · rfl

/-! ## Loads in a row -/

/-- Numbers of `w` bytes in a row, the first at `off` and for the column `attnum`. -/
def row (t : HeapTuple) (w off attnum : Nat) : Nat → Datum := fun k => t.load (off + w * (k - attnum)) w

/-- The row from a later number on. -/
theorem row_shift (t : HeapTuple) (w off attnum : Nat) {m k : Nat} (h : attnum + m ≤ k) :
    row t w (off + w * m) (attnum + m) k = row t w off attnum k := by
  have hk : k - attnum = m + (k - (attnum + m)) := by omega
  rw [row, row, hk, Nat.mul_add, Nat.add_assoc]

theorem loadLoop_eq (w n off attnum : Nat) (values : Nat → Datum) :
    loadLoop t w n off attnum values = fill (row t w off attnum) values attnum (attnum + n) := by
  induction n generalizing off attnum values with
  | zero => exact (fill_self _ _ _).symm
  | succ n ih =>
    have hfirst : t.load off w = row t w off attnum attnum := by rw [row, Nat.sub_self, Nat.mul_zero, Nat.add_zero]
    have hrest : fill (row t w (off + w) (attnum + 1)) (Function.update values attnum (row t w off attnum attnum)) (attnum + 1)
        (attnum + 1 + n) = fill (row t w off attnum) (Function.update values attnum (row t w off attnum attnum)) (attnum + 1)
        (attnum + 1 + n) := by
      refine fill_congr _ fun k hk _ => ?_
      have h := row_shift t w off attnum (m := 1) hk
      rwa [Nat.mul_one] at h
    rw [loadLoop, ih, hfirst, hrest, fill_update _ _ (by omega), Nat.add_assoc, Nat.add_comm 1 n]

theorem vectorLoop_eq (lanes n off attnum : Nat) (values : Nat → Datum) :
    vectorLoop t lanes n off attnum values = fill (row t 4 off attnum) values attnum (attnum + n * lanes) := by
  induction n generalizing off attnum values with
  | zero => rw [Nat.zero_mul, Nat.add_zero, fill_self, vectorLoop]
  | succ n ih =>
    rw [vectorLoop, ih, fill_congr _ fun k hk _ => row_shift t 4 _ _ hk]
    have h := fill_fill (row t 4 off attnum) values (Nat.le_add_right attnum lanes)
      (Nat.le_add_right (attnum + lanes) (n * lanes))
    rw [show attnum + (n + 1) * lanes = attnum + lanes + n * lanes by rw [Nat.succ_mul]; omega, ← h]
    rfl

/-- Full vectors and a tail are the numbers in a row. -/
theorem int4ToDatumBatch_eq (vu : VectorUnit) (count off attnum : Nat) (values : Nat → Datum) :
    int4ToDatumBatch t vu count off attnum values = fill (row t 4 off attnum) values attnum (attnum + count) := by
  have hsplit : count / vu.lanes count * vu.lanes count + count % vu.lanes count = count := Nat.div_add_mod' _ _
  rw [int4ToDatumBatch, vectorLoop_eq, loadLoop_eq, fill_congr _ fun k hk _ => row_shift t 4 _ _ hk,
    fill_fill _ _ (Nat.le_add_right _ _) (Nat.le_add_right _ _), Nat.add_assoc, hsplit]

/-! ## Columns of one length -/

/-- From `i` to before `j`, all columns are passed in a word of `w` bytes. -/
def UniformOn (desc : TupleDesc) (w i j : Nat) : Prop :=
  ∀ k, i ≤ k → k < j → (desc.att k).attbyval = true ∧ (desc.att k).attlen = (w : Int)

/-- Stored columns of one length that are not null follow one another. -/
theorem offAfter_row {w i n : Nat} (huni : UniformOn desc w i (i + n)) (hnull : ∀ k, i ≤ k → k < i + n → t.attIsnull k = false)
    {m : Nat} (hm : 0 < m) (hmn : m ≤ n) : t.offAfter desc (i + m) = alignUp w (t.offAfter desc i) + w * m := by
  induction m, hm using Nat.le_induction with
  | base =>
    obtain ⟨hbyval, hlen⟩ := huni i (Nat.le_refl i) (by omega)
    rw [offAfter_succ_of_not_null (hnull i (Nat.le_refl i) (by omega)), attAlignPointer_of_byval hbyval hlen,
      attAddlengthPointer_of_byval hbyval hlen, Nat.mul_one]
  | succ m hm ih =>
    obtain ⟨hbyval, hlen⟩ := huni (i + m) (Nat.le_add_right i m) (by omega)
    have hdvd : w ∣ alignUp w (t.offAfter desc i) + w * m := Nat.dvd_add (dvd_alignUp _ _) (Nat.dvd_mul_right w m)
    rw [← Nat.add_assoc, offAfter_succ_of_not_null (hnull (i + m) (Nat.le_add_right i m) (by omega)),
      attAlignPointer_of_byval hbyval hlen, attAddlengthPointer_of_byval hbyval hlen, ih (by omega),
      alignUp_of_dvd (attalignby_of_byval hbyval hlen).2 hdvd, Nat.mul_succ, Nat.add_assoc]

/-- Their values are the numbers in a row. -/
theorem storedValue_row {w i n : Nat} (huni : UniformOn desc w i (i + n))
    (hnull : ∀ k, i ≤ k → k < i + n → t.attIsnull k = false) {k : Nat} (hk : i ≤ k) (hk' : k < i + n) :
    t.storedValue true desc k = row t w (alignUp w (t.offAfter desc i)) i k := by
  obtain ⟨hbyval, hlen⟩ := huni k hk hk'
  obtain ⟨m, rfl⟩ := Nat.exists_eq_add_of_le hk
  rw [storedValue_of_not_null (hnull _ hk hk'), attAlignPointer_of_byval hbyval hlen, fetchAtt_of_byval hbyval hlen, row,
    Nat.add_sub_cancel_left]
  rcases Nat.eq_zero_or_pos m with rfl | hm
  · rfl
  · have hdvd : w ∣ alignUp w (t.offAfter desc i) + w * m := Nat.dvd_add (dvd_alignUp _ _) (Nat.dvd_mul_right w m)
    rw [offAfter_row huni hnull hm (by omega), alignUp_of_dvd (attalignby_of_byval hbyval hlen).2 hdvd]

/-- A row of loads deforms such columns. -/
theorem filled_row {w i n : Nat} (huni : UniformOn desc w i (i + n)) (hnull : ∀ k, i ≤ k → k < i + n → t.attIsnull k = false)
    (hn : 0 < n) {s : DeformState} (hs : s.off = t.offAfter desc i) {isnull : Nat → Bool}
    (hisnull : isnull = fill (fun _ => false) s.isnull i (i + n)) :
    (⟨alignUp w s.off + w * n, fill (row t w (alignUp w s.off) i) s.values i (i + n), isnull⟩ : DeformState) =
      filled true t desc i (i + n) s := by
  have hv := fill_congr s.values fun k hk hk' => storedValue_row huni hnull hk hk'
  have hi := fill_congr s.isnull fun k hk hk' => (hnull k hk hk').symm
  rw [filled, offAfter_row huni hnull hn (Nat.le_refl n), hv, hisnull, hi, hs]

/-- When all columns have one length, every offset is aligned. -/
theorem dvd_offAfter {w j : Nat} (huni : UniformOn desc w 0 j) : ∀ k, k ≤ j → w ∣ t.offAfter desc k
  | 0, _ => Nat.dvd_zero w
  | k + 1, hk => by
    obtain ⟨hbyval, hlen⟩ := huni k (Nat.zero_le k) hk
    by_cases h : t.attIsnull k = true
    · rw [offAfter_succ_of_null h]
      exact dvd_offAfter huni k (Nat.le_of_succ_le hk)
    · rw [offAfter_succ_of_not_null (Bool.eq_false_iff.2 h), attAlignPointer_of_byval hbyval hlen,
        attAddlengthPointer_of_byval hbyval hlen]
      exact Nat.dvd_add (dvd_alignUp _ _) (Nat.dvd_refl w)

/-- The step of the loop over columns of one width is right for a stored column that may be null. -/
theorem uniformNullStep_right {w j k : Nat} (huni : UniformOn desc w 0 j) (hk : k < j) (hnulls : t.hasnulls = true) :
    StepRight true t desc (uniformNullStep t w) k := by
  intro s hs
  obtain ⟨hbyval, hlen⟩ := huni k (Nat.zero_le k) hk
  have hbit : t.attIsnull k = !bitSet t k := by rw [attIsnull_eq, hnulls, Bool.true_and]
  unfold uniformNullStep
  split
  · rename_i h
    refine store_value_eq (by rw [hbit, h]; rfl) ?_ (fetchAtt_of_byval hbyval hlen _).symm
      (attAddlengthPointer_of_byval hbyval hlen _).symm
    rw [attAlignPointer_of_byval hbyval hlen, hs,
      alignUp_of_dvd (attalignby_of_byval hbyval hlen).2 (dvd_offAfter huni k (Nat.le_of_lt hk))]
  · rename_i h
    exact store_null_eq (by rw [hbit, Bool.eq_false_iff.2 h]; rfl) hs

/-- The tight loop, on a tuple whose stored columns are not null: it deforms them, and clears all null flags up to `natts`. -/
theorem uniformLoop_eq (vu : VectorUnit) {w natts i : Nat} (huni : UniformOn desc w 0 natts) (hw : 0 < w)
    (hnull : ∀ k, i ≤ k → k < min t.natts natts → t.attIsnull k = false) {s : DeformState}
    (hs : i ≤ t.natts → s.off = t.offAfter desc i) (hi : i ≤ natts) :
    uniformLoop t vu w natts i s =
      ⟨if i ≤ t.natts then t.offAfter desc (min t.natts natts) else s.off,
        fill (t.storedValue true desc) s.values i (min t.natts natts), fill (fun _ => false) s.isnull i natts⟩ := by
  rcases Nat.lt_or_ge i (min t.natts natts) with hlt | hge
  · obtain ⟨n, hn⟩ := Nat.exists_eq_add_of_lt hlt
    have hle : i ≤ t.natts := by omega
    have hlim : min t.natts natts = i + (n + 1) := by omega
    rw [hlim] at hnull ⊢
    have huni' : UniformOn desc w i (i + (n + 1)) := fun k _ hk' => huni k (Nat.zero_le k) (by omega)
    have halign : alignUp w s.off = s.off := by
      rw [hs hle]
      exact alignUp_of_dvd hw (dvd_offAfter huni i hi)
    have hrow := filled_row huni' hnull n.succ_pos (hs hle) rfl
    rw [halign] at hrow
    have hoff : s.off + w * (n + 1) = t.offAfter desc (i + (n + 1)) := congrArg DeformState.off hrow
    have hval : fill (row t w s.off i) s.values i (i + (n + 1)) = fill (t.storedValue true desc) s.values i (i + (n + 1)) :=
      congrArg DeformState.values hrow
    unfold uniformLoop
    dsimp only
    rw [hlim, Nat.add_sub_cancel_left, if_pos hle]
    split
    · rename_i h4
      subst h4
      rw [if_neg (by omega), int4ToDatumBatch_eq, hoff, hval]
    · rw [loadLoop_eq, hoff, hval]
  · have hoff : (if i ≤ t.natts then t.offAfter desc (min t.natts natts) else s.off) = s.off := by
      split
      · rename_i hle
        rw [hs hle, show min t.natts natts = i by omega]
      · rfl
    unfold uniformLoop
    dsimp only
    rw [Nat.sub_eq_zero_of_le hge, if_pos hge, fill_of_le _ _ hge, hoff, Nat.mul_zero]
    split
    · rfl
    · rfl

/-! ## The bitmap -/

/-- The bits of a bitmap are all set when the check says so. -/
theorem getLsbD_of_allNotnull {bits : Nat → BitVec 8} {ncols : Nat} (h : simdNullbitmapAllNotnull bits ncols = true) {k : Nat}
    (hk : k < ncols) : (bits (k / 8)).getLsbD (k % 8) = true := by
  rw [simdNullbitmapAllNotnull, Bool.and_eq_true, List.all_eq_true, Bool.or_eq_true, beq_iff_eq, beq_iff_eq] at h
  have hmod : k % 8 < 8 := Nat.mod_lt k (by decide)
  rcases Nat.lt_or_ge (k / 8) (ncols / 8) with hlt | hge
  · have hbyte : bits (k / 8) = 255 := beq_iff_eq.1 (h.1 _ (List.mem_range.2 hlt))
    have hones : ∀ i : Fin 8, (255 : BitVec 8).getLsbD i = true := by decide
    rw [hbyte]
    exact hones ⟨k % 8, hmod⟩
  · have hbyte : k / 8 = ncols / 8 := by omega
    have hlt : k % 8 < ncols % 8 := by omega
    rcases h.2 with h0 | hmask
    · omega
    · have hmasks : ∀ m i : Fin 8, i < m → (BitVec.ofNat 8 (2 ^ (m : Nat) - 1)).getLsbD i = true := by decide
      have hbit := hmasks ⟨ncols % 8, Nat.mod_lt _ (by decide)⟩ ⟨k % 8, hmod⟩ hlt
      have hand := congrArg (fun b => b.getLsbD (k % 8)) hmask
      simp only [BitVec.getLsbD_and] at hand
      rw [hbyte]
      exact (Bool.and_eq_true _ _ ▸ hand.trans hbit : _ ∧ _).1

/-- Then no column is null. -/
theorem attIsnull_of_allNotnull {natts : Nat} (h : simdNullbitmapAllNotnull t.tBits natts = true) {k : Nat} (hk : k < natts) :
    t.attIsnull k = false := by
  rw [attIsnull_eq, bitSet, getLsbD_of_allNotnull h hk, Bool.not_true, Bool.and_false]

/-- The lowest bit that is set. -/
theorem ctz_spec (bm : BitVec 8) (h : bm ≠ 0) :
    ctz bm < 8 ∧ bm.getLsbD (ctz bm) = true ∧ ∀ i, i < ctz bm → bm.getLsbD i = false := by
  revert bm
  decide +kernel

/-- To clear it. -/
theorem getLsbD_clear (bm : BitVec 8) : ∀ i : Fin 8, (bm &&& (bm - 1)).getLsbD i = (bm.getLsbD i && i != ctz bm) := by
  revert bm
  decide +kernel

/-- The null flag of a column by its byte. -/
theorem attIsnull_of_byte (hnulls : t.hasnulls = true) {bi i : Nat} (hi : i < 8) :
    t.attIsnull (bi * 8 + i) = !(t.tBits bi).getLsbD i := by
  rw [attIsnull_eq, hnulls, Bool.true_and, bitSet, show (bi * 8 + i) / 8 = bi by omega, show (bi * 8 + i) % 8 = i by omega]

/-- The bits of a byte from bit `b` on. -/
def BitsFrom (b : Nat) (byte bm : BitVec 8) : Prop := ∀ i, i < 8 → bm.getLsbD i = (decide (b ≤ i) && byte.getLsbD i)

/-- The first of them, the clear ones before it, and those after it. -/
theorem bitsFrom_next {b : Nat} {byte bm : BitVec 8} (hbits : BitsFrom b byte bm) (h0 : bm ≠ 0) :
    b ≤ ctz bm ∧ ctz bm < 8 ∧ byte.getLsbD (ctz bm) = true ∧ (∀ i, b ≤ i → i < ctz bm → byte.getLsbD i = false) ∧
      BitsFrom (ctz bm + 1) byte (bm &&& (bm - 1)) := by
  obtain ⟨hlt, hset, hlow⟩ := ctz_spec bm h0
  have hbit := hbits (ctz bm) hlt
  rw [hset, eq_comm, Bool.and_eq_true, decide_eq_true_eq] at hbit
  have hclear : ∀ i, b ≤ i → i < ctz bm → byte.getLsbD i = false := by
    intro i hi hi'
    have hfalse := hbits i (by omega)
    rw [hlow i hi', decide_eq_true hi, Bool.true_and] at hfalse
    exact hfalse.symm
  refine ⟨hbit.1, hlt, hbit.2, hclear, fun i hi => ?_⟩
  rw [getLsbD_clear bm ⟨i, hi⟩, hbits i hi, Bool.eq_iff_iff]
  simp only [Bool.and_eq_true, decide_eq_true_eq, bne_iff_ne]
  constructor
  · rintro ⟨⟨hbi, hi'⟩, hne⟩
    refine ⟨?_, hi'⟩
    rcases Nat.lt_or_ge i (ctz bm) with h | h
    · exact nomatch (hclear i hbi h).symm.trans hi'
    · omega
  · rintro ⟨hci, hi'⟩
    exact ⟨⟨by omega, hi'⟩, by omega⟩

/-! ## The sparse helper visits the columns -/

/-- A loop in two parts. -/
theorem forColumns_add (step : Nat → DeformState → DeformState) (i m n : Nat) (s : DeformState) :
    forColumns step i (m + n) s = forColumns step (i + m) n (forColumns step i m s) := by
  induction m generalizing i s with
  | zero => rw [Nat.zero_add, Nat.add_zero, forColumns]
  | succ m ih => rw [Nat.succ_add, forColumns, ih, forColumns, Nat.add_assoc, Nat.add_comm 1 m]

/-- A loop of steps that are the same. -/
theorem forColumns_congr {step step' : Nat → DeformState → DeformState} {i n : Nat}
    (h : ∀ k s, i ≤ k → k < i + n → step k s = step' k s) (s : DeformState) : forColumns step i n s = forColumns step' i n s := by
  induction n generalizing i s with
  | zero => rfl
  | succ n ih =>
    rw [forColumns, forColumns, h i s (Nat.le_refl i) (by omega)]
    exact ih (fun k s hk hk' => h k s (by omega) (by omega)) _

/-- The columns from `lo` to before `hi` set to null. -/
def cleared (s : DeformState) (lo hi : Nat) : DeformState :=
  { s with values := fill (fun _ => 0) s.values lo hi, isnull := fill (fun _ => true) s.isnull lo hi }

theorem cleared_self (s : DeformState) (i : Nat) : cleared s i i = s := by
  rw [cleared, fill_self, fill_self]

/-- A store into the first of the null columns. -/
theorem update_fill {β : Type} (g f : Nat → β) {k hi : Nat} (hk : k < hi) (v : β) :
    Function.update (fill g f k hi) k v = fill g (Function.update f k v) (k + 1) hi := by
  funext j
  rcases Nat.lt_trichotomy j k with hj | rfl | hj
  · rw [Function.update_of_ne (Nat.ne_of_lt hj), fill_of_lt _ _ hj, fill_of_lt _ _ (by omega), Function.update_of_ne (Nat.ne_of_lt hj)]
  · rw [Function.update_self, fill_of_lt _ _ (Nat.lt_succ_self j), Function.update_self]
  · rw [Function.update_of_ne (Nat.ne_of_gt hj)]
    rcases Nat.lt_or_ge j hi with hlt | hge
    · rw [fill_of_mem _ _ (Nat.le_of_lt hj) hlt, fill_of_mem _ _ hj hlt]
    · rw [fill_of_ge _ _ hge, fill_of_ge _ _ hge, Function.update_of_ne (Nat.ne_of_gt hj)]

theorem store_cleared (s : DeformState) {k hi : Nat} (hk : k < hi) (d : NullableDatum) :
    (cleared s k hi).store k d = cleared (s.store k d) (k + 1) hi := by
  simp only [DeformState.store, cleared, update_fill _ _ hk]

/-- The visit of the first of the null columns. -/
theorem visit_cleared (s : DeformState) {k hi : Nat} (hk : k < hi) :
    visitColumn t charIsSigned desc k (cleared s k hi) = cleared (visitColumn t charIsSigned desc k s) (k + 1) hi := by
  simp only [visitColumn, store_cleared s hk]
  split
  · rfl
  · rfl

/-- The visit of a null column changes nothing when the column was set to null. -/
theorem visit_null_cleared {k hi : Nat} (h : t.attIsnull k = true) (s : DeformState) (hk : k < hi) :
    cleared s k hi = cleared (visitColumn t charIsSigned desc k s) (k + 1) hi := by
  have hfill : ∀ {β : Type} (g f : Nat → β), fill g f k hi = Function.update (fill g f k hi) k (g k) := by
    intro β g f
    rw [← fill_of_mem g f (Nat.le_refl k) hk, Function.update_eq_self]
  rw [visitColumn, if_pos h, ← store_cleared s hk, DeformState.store, cleared]
  simp only [← hfill]

/-- Null columns are passed over. -/
theorem visits_null_cleared {i n hi : Nat} (hle : i + n ≤ hi) (h : ∀ k, i ≤ k → k < i + n → t.attIsnull k = true) (s : DeformState) :
    cleared s i hi = cleared (forColumns (visitColumn t charIsSigned desc) i n s) (i + n) hi := by
  induction n generalizing i s with
  | zero => rw [forColumns, Nat.add_zero]
  | succ n ih =>
    rw [visit_null_cleared (h i (Nat.le_refl i) (by omega)) s (by omega), forColumns,
      ih (by omega) (fun k hk hk' => h k (by omega) (by omega)), Nat.add_assoc, Nat.add_comm 1 n]

/-- The loop over the set bits from bit `b` on, on columns that are set to null, visits the columns of the byte. -/
theorem sparseBits_eq (t : HeapTuple) (charIsSigned : Bool) (desc : TupleDesc) (hnulls : t.hasnulls = true) (bi : Nat) {n b : Nat}
    {bm : BitVec 8} (hb : b ≤ 8)
    (hn : 8 - b ≤ n) (hbits : BitsFrom b (t.tBits bi) bm) (s : DeformState) :
    sparseBits t charIsSigned desc (bi * 8) n bm (cleared s (bi * 8 + b) (bi * 8 + 8)) =
      forColumns (visitColumn t charIsSigned desc) (bi * 8 + b) (8 - b) s := by
  induction n generalizing b bm s with
  | zero =>
    have hb8 : b = 8 := by omega
    subst hb8
    rw [sparseBits, cleared_self, Nat.sub_self, forColumns]
  | succ n ih =>
    -- the columns before a bit `c` are null when their bits are clear
    have hnull : ∀ c, c ≤ 8 → (∀ i, b ≤ i → i < c → (t.tBits bi).getLsbD i = false) → ∀ k, bi * 8 + b ≤ k → k < bi * 8 + c →
        t.attIsnull k = true := by
      intro c hc hlow k hk hk'
      obtain ⟨i, rfl⟩ := Nat.exists_eq_add_of_le (Nat.le_trans (Nat.le_add_right _ b) hk)
      rw [attIsnull_of_byte hnulls (by omega), hlow i (by omega) (by omega)]
      rfl
    rw [sparseBits]
    split
    · rename_i h0
      have hclear : ∀ i, b ≤ i → i < 8 → (t.tBits bi).getLsbD i = false := by
        intro i hi hi'
        have hbit := hbits i hi'
        rw [h0, decide_eq_true hi, Bool.true_and] at hbit
        exact hbit.symm.trans BitVec.getLsbD_zero
      rw [visits_null_cleared (n := 8 - b) (by omega) (fun k hk hk' => hnull 8 (Nat.le_refl 8) hclear k hk (by omega)) s,
        show bi * 8 + b + (8 - b) = bi * 8 + 8 by omega, cleared_self]
    · rename_i h0
      obtain ⟨hbc, hlt, hset, hlow, hrest⟩ := bitsFrom_next hbits h0
      generalize ctz bm = c at hbc hlt hset hlow hrest ⊢
      rw [visits_null_cleared (n := c - b) (by omega) (fun k hk hk' => hnull c (by omega) hlow k hk (by omega)) s,
        show bi * 8 + b + (c - b) = bi * 8 + c by omega, sparseColumn_eq (by rw [attIsnull_of_byte hnulls hlt, hset]; rfl),
        visit_cleared _ (by omega), Nat.add_assoc, ih hlt (by omega) hrest, show 8 - b = c - b + (1 + (8 - (c + 1))) by omega,
        forColumns_add, forColumns_add, show bi * 8 + b + (c - b) = bi * 8 + c by omega]
      rfl

/-- The loop over the bytes from a byte on visits the columns from there up to the limit. -/
theorem sparseBytes_eq (hnulls : t.hasnulls = true) {limit n bi : Nat} (hn : n = (limit + 7) / 8 - bi) (s : DeformState) :
    sparseBytes t charIsSigned desc limit bi n s = forColumns (visitColumn t charIsSigned desc) (bi * 8) (limit - bi * 8) s := by
  induction n generalizing bi s with
  | zero => rw [sparseBytes, show limit - bi * 8 = 0 by omega, forColumns]
  | succ n ih =>
    rw [sparseBytes]
    split
    · exact forColumns_congr (fun k s _ _ => sparseBit_eq hnulls k s) s
    · have hbits := sparseBits_eq t charIsSigned desc hnulls bi (b := 0) (Nat.zero_le 8) (Nat.le_refl 8)
        (fun i _ => by rw [decide_eq_true (Nat.zero_le i), Bool.true_and]) s
      rw [Nat.add_zero] at hbits
      rw [show limit - bi * 8 = 8 + (limit - (bi + 1) * 8) by omega, forColumns_add, show bi * 8 + 8 = (bi + 1) * 8 by omega,
        ← ih (by omega), ← hbits, cleared, show bi * 8 + 8 = (bi + 1) * 8 by omega]

/-- The columns that `deform_sparse_dispatch` goes over are visited one by one. -/
theorem sparse_columns_eq (t : HeapTuple) (charIsSigned : Bool) (desc : TupleDesc) (limit i : Nat) (s : DeformState) :
    (if !t.hasnulls then forColumns (sparseColumn t charIsSigned desc) i (limit - i) s
    else if 0 < i % 8 then
      sparseBytes t charIsSigned desc limit (i / 8 + 1) ((limit + 7) / 8 - (i / 8 + 1))
        (forColumns (sparseBit t charIsSigned desc) i (min (i / 8 * 8 + 8) limit - i) s)
    else sparseBytes t charIsSigned desc limit (i / 8) ((limit + 7) / 8 - i / 8) s) =
      forColumns (visitColumn t charIsSigned desc) i (limit - i) s := by
  by_cases hnulls : t.hasnulls = true
  · rw [hnulls, Bool.not_true, if_neg Bool.false_ne_true]
    split
    · -- the rest of the first byte, and the bytes after it
      rw [sparseBytes_eq hnulls rfl, forColumns_congr (fun k s _ _ => sparseBit_eq hnulls k s) s]
      rcases Nat.lt_or_ge limit (i / 8 * 8 + 8) with hlt | hge
      · rw [Nat.min_eq_right (Nat.le_of_lt hlt), show limit - (i / 8 + 1) * 8 = 0 by omega, forColumns]
      · rw [Nat.min_eq_left hge, show limit - i = (i / 8 * 8 + 8 - i) + (limit - (i / 8 + 1) * 8) by omega, forColumns_add,
          show i + (i / 8 * 8 + 8 - i) = (i / 8 + 1) * 8 by omega]
    · rw [sparseBytes_eq hnulls rfl, show i / 8 * 8 = i by omega]
  · rw [Bool.eq_false_iff.2 hnulls, Bool.not_false, if_pos rfl]
    refine forColumns_congr (fun k s _ _ => sparseColumn_eq ?_ s) s
    rw [attIsnull_eq, Bool.eq_false_iff.2 hnulls, Bool.false_and]

end DeformLoopAux
end PgJitter
