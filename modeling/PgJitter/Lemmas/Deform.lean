import PgJitter.Deform

/-!
# Helpers for `Theorems/Deform.lean`: one column of an unrolled deform

`Knows st off` says that what the compiler knows of an offset holds of it. It is true of the offset after the columns before the
one that is emitted, whatever those columns stored, so it does not matter at which column a deform is entered.
-/

namespace PgJitter
namespace DeformAux

open Layout HeapTuple

variable {t : HeapTuple} {desc : TupleDesc} {att : CompactAttribute} {st : AlignState} {off : Nat}

/-! ## Attributes -/

/-- An alignment is positive. -/
theorem attalignby_pos (att : CompactAttribute) : 0 < att.attalignby := by
  have h := att.valid
  simp only [TypeValid, List.mem_cons, List.not_mem_nil, or_false] at h
  omega

/-- A value passed in a word has the length of a machine type. -/
theorem attlen_mem_of_byval (h : att.attbyval = true) : att.attlen ∈ [1, 2, 4, 8] := by
  rcases att.valid with ⟨_, hlen, _⟩ | ⟨hbyval, _⟩
  · exact hlen
  · exact absurd (h.symm.trans hbyval) (by decide)

/-- An aligned offset of a fixed-length attribute. -/
theorem attAlignPointer_of_ne (h : att.attlen ≠ -1) (off : Nat) :
    t.attAlignPointer att off = alignUp att.attalignby off := if_neg fun h' => h h'.1

/-- An offset that is a multiple of the alignment is aligned. -/
theorem attAlignPointer_of_dvd (h : att.attalignby ∣ off) : t.attAlignPointer att off = off := by
  unfold attAlignPointer
  split
  · rfl
  · exact alignUp_of_dvd (attalignby_pos att) h

/-! ## Attributes that are passed in a word -/

/-- A value passed in a word is aligned to its length. -/
theorem attalignby_of_byval {att : CompactAttribute} {w : Nat} (h : att.attbyval = true) (h' : att.attlen = (w : Int)) :
    att.attalignby = w ∧ 0 < w := by
  have hpos := attalignby_pos att
  rcases att.valid with ⟨_, _, halign⟩ | ⟨hbyval, _⟩
  · omega
  · exact absurd (h.symm.trans hbyval) (by decide)

theorem attAlignPointer_of_byval {att : CompactAttribute} {w : Nat} (h : att.attbyval = true) (h' : att.attlen = (w : Int))
    (off : Nat) : t.attAlignPointer att off = alignUp w off := by
  rw [attAlignPointer_of_ne (by omega), (attalignby_of_byval h h').1]

theorem attAddlengthPointer_of_byval {att : CompactAttribute} {w : Nat} (h : att.attbyval = true) (h' : att.attlen = (w : Int))
    (off : Nat) : t.attAddlengthPointer att off = off + w := by
  have hpos := (attalignby_of_byval h h').2
  rw [attAddlengthPointer, if_pos (by omega), h', Int.toNat_natCast]

/-- Where a `char` has a sign, every value is extended with its sign. -/
theorem fetchByval_true (w : Nat) (v : BitVec (8 * w)) : fetchByval true w v = v.signExtend 64 :=
  if_neg fun h => Bool.noConfusion h.2

/-- Then `fetch_att` is the load that is emitted. -/
theorem fetchAtt_of_byval {att : CompactAttribute} {w : Nat} (h : att.attbyval = true) (h' : att.attlen = (w : Int))
    (off : Nat) : t.fetchAtt true att off = t.load off w := by
  rw [fetchAtt, if_pos h, fetchByval_true, h', Int.toNat_natCast, load]

/-- A pointer has no sign. -/
theorem fetchAtt_of_not_byval {att : CompactAttribute} (h : att.attbyval = false) (charIsSigned : Bool) (off : Nat) :
    t.fetchAtt charIsSigned att off = t.pointer off := by
  rw [fetchAtt, h, if_neg Bool.false_ne_true]

/-- A byte is extended alike with and without a sign when its first bit is clear. -/
theorem setWidth_eq_signExtend_iff (b : BitVec 8) : b.setWidth 64 = b.signExtend 64 ↔ b.msb = false := by
  refine ⟨fun h => ?_, fun h => (BitVec.signExtend_eq_setWidth_of_msb_false h).symm⟩
  have hbit := congrArg BitVec.msb h
  rw [BitVec.msb_setWidth, BitVec.getLsbD_of_ge b 63 (by decide), BitVec.msb_signExtend] at hbit
  simpa using hbit.symm

/-- What the platform's `char` makes of a value. -/
theorem fetchByval_eq_iff (charIsSigned : Bool) (w : Nat) (v : BitVec (8 * w)) :
    fetchByval charIsSigned w v = v.signExtend 64 ↔ (charIsSigned = false → w = 1 → v.msb = false) := by
  unfold fetchByval
  split
  · rename_i h
    obtain ⟨rfl, rfl⟩ := h
    exact (setWidth_eq_signExtend_iff v).trans ⟨fun hmsb _ _ => hmsb, fun hmsb => hmsb rfl rfl⟩
  · rename_i h
    exact iff_of_true rfl fun hchar hw => absurd ⟨hw, hchar⟩ h

/-- The number in one byte is the byte. -/
theorem ofNat_leNat_one (t : HeapTuple) (off : Nat) : BitVec.ofNat 8 (t.leNat off 1) = t.byte off := by
  rw [leNat, leNat, Nat.mul_zero, Nat.add_zero, BitVec.ofNat_toNat, BitVec.setWidth_eq]

/-- What the platform's `char` makes of an attribute. -/
theorem fetchAtt_eq_iff (charIsSigned : Bool) (att : CompactAttribute) (off : Nat) :
    t.fetchAtt charIsSigned att off = t.fetchAtt true att off ↔
      (charIsSigned = false → att.attbyval = true → att.attlen = 1 → (t.byte off).msb = false) := by
  by_cases hbyval : att.attbyval = true
  · have hone : att.attlen = 1 ↔ att.attlen.toNat = 1 := by omega
    rw [fetchAtt, fetchAtt, if_pos hbyval, if_pos hbyval, fetchByval_true, fetchByval_eq_iff, forall_prop_of_true hbyval, hone]
    generalize att.attlen.toNat = w
    refine forall_congr' fun _ => forall_congr' fun hw => ?_
    subst hw
    rw [← ofNat_leNat_one]
  · have hbyval' := Bool.eq_false_iff.2 hbyval
    rw [fetchAtt_of_not_byval hbyval', fetchAtt_of_not_byval hbyval']
    exact iff_of_true rfl fun _ h => absurd h hbyval

/-- What the platform's `char` makes of a stored attribute. -/
theorem storedValue_eq_iff (charIsSigned : Bool) (desc : TupleDesc) (k : Nat) :
    t.storedValue charIsSigned desc k = t.storedValue true desc k ↔ t.CharFits charIsSigned desc k := by
  unfold storedValue CharFits
  by_cases hnull : t.attIsnull k = true
  · rw [if_pos hnull, if_pos hnull]
    exact iff_of_true rfl fun _ h => absurd (hnull.symm.trans h) (by decide)
  · rw [if_neg hnull, if_neg hnull, fetchAtt_eq_iff, forall_prop_of_true (Bool.eq_false_iff.2 hnull)]
    -- a byte is aligned everywhere
    have hoff : (desc.att k).attbyval = true → (desc.att k).attlen = 1 →
        t.attAlignPointer (desc.att k) (t.offAfter desc k) = t.offAfter desc k := by
      intro hbyval hlen
      rw [attAlignPointer_of_byval (w := 1) hbyval hlen, alignUp_one]
    refine forall_congr' fun _ => forall_congr' fun hbyval => forall_congr' fun hlen => ?_
    rw [hoff hbyval hlen]

/-- A stored pointer is the same on every platform. -/
theorem storedValue_of_not_byval {k : Nat} (h : (desc.att k).attbyval = false) (charIsSigned : Bool) :
    t.storedValue charIsSigned desc k = t.storedValue true desc k :=
  (storedValue_eq_iff charIsSigned desc k).2 fun _ _ hbyval => absurd (h.symm.trans hbyval) (by decide)

/-- What the platform's `char` makes of the columns that a deform sets. -/
theorem columnValue_eq_iff (charIsSigned : Bool) (desc : TupleDesc) (natts nvalid : Nat) :
    (∀ k, nvalid ≤ k → k < natts → t.columnValue charIsSigned desc k = t.columnValue true desc k) ↔
      t.CharsFit charIsSigned desc natts nvalid := by
  constructor
  · intro h k hk hk'
    have hcol := congrArg NullableDatum.value (h k hk (by omega))
    rw [columnValue, columnValue, if_pos (by omega), if_pos (by omega)] at hcol
    exact (storedValue_eq_iff charIsSigned desc k).1 hcol
  · intro h k hk hk'
    unfold columnValue
    split
    · rw [(storedValue_eq_iff charIsSigned desc k).2 (h k hk (by omega))]
    · rfl

/-! ## What is known -/

/-- What the compiler knows of an offset holds of it: when it takes the offset for known it is the known one, and else the known
number divides it. -/
structure Knows (st : AlignState) (off : Nat) : Prop where
  exact : st.guaranteed = true → st.known = some off
  dvd : ∀ n, st.known = some n → n ∣ off

/-- Nothing is known. -/
theorem knows_nothing (off : Nat) : Knows ⟨none, false⟩ off :=
  ⟨fun h => absurd h Bool.false_ne_true, fun n h => by cases h⟩

/-- A known offset. -/
theorem knows_exact (g : Bool) (off : Nat) : Knows ⟨some off, g⟩ off :=
  ⟨fun _ => rfl, fun n h => by cases h; exact Nat.dvd_refl off⟩

/-- Where the alignment at run time is left out, the offset is aligned. -/
theorem dvd_of_needsAlign (hst : Knows st off) (h : needsAlign att st.known = false) : att.attalignby ∣ off := by
  rcases hknown : st.known with _ | n
  · have hle : att.attalignby ≤ 1 := by simpa [needsAlign, hknown] using h
    rw [Nat.le_antisymm hle (attalignby_pos att)]
    exact Nat.one_dvd off
  · rcases Nat.lt_or_ge 1 att.attalignby with hlt | hle
    · have heq : n = alignUp att.attalignby n := by simpa [needsAlign, hknown, hlt] using h
      exact Nat.dvd_trans ((alignUp_eq_self_iff (attalignby_pos att)).1 heq.symm) (hst.dvd n hknown)
    · rw [Nat.le_antisymm hle (attalignby_pos att)]
      exact Nat.one_dvd off

/-- An offset taken for known after the alignment is the aligned one. -/
theorem known_alignedState (t : HeapTuple) (att : CompactAttribute) (hst : Knows st off) (h : (alignedState att st).guaranteed = true) :
    (alignedState att st).known = some (t.attAlignPointer att off) := by
  unfold alignedState at h ⊢
  split at h
  · rename_i hneeds
    simp only [Bool.and_eq_true, bne_iff_ne] at h
    rw [if_pos hneeds, attAlignPointer_of_ne h.2, hst.exact h.1.1]
    rfl
  · rename_i hneeds
    simp only [Bool.and_eq_true] at h
    rw [if_neg hneeds, attAlignPointer_of_dvd (dvd_of_needsAlign hst (Bool.eq_false_iff.2 hneeds))]
    exact hst.exact h.1

/-- After a column that may be null nothing is known. -/
theorem nextState_of_nullable (h : att.attnotnull = false) (st : AlignState) : nextState att st = ⟨none, false⟩ := by
  simp [nextState, h]

/-- What is known after a stored column holds of the offset after it. -/
theorem knows_nextState (hexact : st.guaranteed = true → st.known = some (t.attAlignPointer att off)) :
    Knows (nextState att st) (t.attAddlengthPointer att (t.attAlignPointer att off)) := by
  unfold nextState
  split
  · exact knows_nothing _
  · rename_i hlen
    have hpos : 0 < att.attlen := by
      have h := att.valid
      simp only [TypeValid, List.mem_cons, List.not_mem_nil, or_false] at h
      omega
    have hadd : t.attAddlengthPointer att (t.attAlignPointer att off) = t.attAlignPointer att off + att.attlen.toNat :=
      if_pos hpos
    split
    · rename_i n hboth hknown
      rw [Bool.and_eq_true] at hboth
      rw [hexact hboth.2, Option.some.injEq] at hknown
      rw [hadd, hknown]
      exact knows_exact _ _
    · split
      · rename_i hmod
        rw [Bool.and_eq_true, beq_iff_eq] at hmod
        refine ⟨fun h => absurd h Bool.false_ne_true, fun n h => ?_⟩
        cases h
        rw [hadd, attAlignPointer_of_ne (by omega)]
        exact Nat.dvd_add (dvd_alignUp _ _) (Nat.dvd_of_mod_eq_zero hmod.2)
      · exact knows_nothing _

/-! ## The code of a column -/

/-- Instructions that fall through are run one after the other. -/
theorem runColumn_append {is : List DeformInstr} {s s' : DeformState} (h : runColumn t is s = (.fall, s'))
    (rest : List DeformInstr) : runColumn t (is ++ rest) s = runColumn t rest s' := by
  induction is generalizing s with
  | nil =>
    cases h
    rfl
  | cons i is ih =>
    rcases hi : execDeformInstr t s i with ⟨flow, s1⟩
    rw [runColumn, hi] at h
    rw [List.cons_append, runColumn, hi]
    cases flow with
    | fall => exact ih h
    | nextColumn => exact absurd (congrArg Prod.fst h) DeformFlow.noConfusion
    | out => exact absurd (congrArg Prod.fst h) DeformFlow.noConfusion

/-- An instruction that jumps ends the code of its column. -/
theorem runColumn_cons_of_ne {i : DeformInstr} {is : List DeformInstr} {s : DeformState}
    (h : (execDeformInstr t s i).1 ≠ .fall) : runColumn t (i :: is) s = execDeformInstr t s i := by
  rw [runColumn]
  rcases hi : execDeformInstr t s i with ⟨flow, s1⟩
  cases flow with
  | fall => exact absurd (by rw [hi]) h
  | nextColumn => rfl
  | out => rfl

/-- The alignment code aligns the offset. -/
theorem runColumn_emitAlign (hst : Knows st off) (s : DeformState) (hs : s.off = off) :
    runColumn t (emitAlign att st) s = (.fall, { s with off := t.attAlignPointer att off }) := by
  have hfirst : runColumn t
      (if needsAlign att st.known then
        if att.attlen = -1 then [.alignIfLong att.attalignby] else [.align att.attalignby]
      else []) s = (.fall, { s with off := t.attAlignPointer att off }) := by
    subst hs
    by_cases hneeds : needsAlign att st.known = true
    · by_cases hlen : att.attlen = -1
      · rw [if_pos hneeds, if_pos hlen, runColumn, execDeformInstr, attAlignPointer]
        by_cases hbyte : t.byte s.off = 0
        · rw [if_neg (not_not_intro hbyte), if_neg fun h => h.2 hbyte]
          rfl
        · rw [if_pos hbyte, if_pos ⟨hlen, hbyte⟩]
          rfl
      · simp [hneeds, hlen, runColumn, execDeformInstr, attAlignPointer]
    · rw [if_neg hneeds, attAlignPointer_of_dvd (dvd_of_needsAlign hst (Bool.eq_false_iff.2 hneeds))]
      rfl
  rw [emitAlign, runColumn_append hfirst]
  split
  · rename_i n heq
    have hknown := known_alignedState t att hst (by rw [heq])
    rw [heq, Option.some.injEq] at hknown
    simp only [runColumn, execDeformInstr, hknown]
  · rfl

/-- The load stores the attribute. -/
theorem runColumn_emitFetch {attnum : Nat} {fetch : List DeformInstr} (h : emitFetch attnum att = some fetch)
    (s : DeformState) : runColumn t fetch s = (.fall, s.store attnum ⟨t.fetchAtt true att s.off, false⟩) := by
  unfold emitFetch at h
  by_cases hbyval : att.attbyval = true
  · have hwidth : movWidth att.attlen = some att.attlen.toNat := if_pos (attlen_mem_of_byval hbyval)
    rw [if_pos hbyval, hwidth, Option.map_some, Option.some.injEq] at h
    subst h
    have hlen : att.attlen = (att.attlen.toNat : Int) := by
      have hmem := attlen_mem_of_byval hbyval
      simp only [List.mem_cons, List.not_mem_nil, or_false] at hmem
      omega
    simp only [runColumn, execDeformInstr, fetchAtt_of_byval hbyval hlen]
  · rw [if_neg hbyval, Option.some.injEq] at h
    subst h
    simp only [runColumn, execDeformInstr, fetchAtt_of_not_byval (Bool.eq_false_iff.2 hbyval)]

/-- The step over a column leaves the offset after it. -/
theorem runColumn_emitAdvance {next : AlignState} {s : DeformState} (hnext : Knows next (t.attAddlengthPointer att s.off)) :
    runColumn t (emitAdvance att next) s = (.fall, { s with off := t.attAddlengthPointer att s.off }) := by
  unfold emitAdvance
  split
  · rename_i hpos
    split
    · have hknown := hnext.exact rfl
      rw [Option.some.injEq] at hknown
      simp only [runColumn, execDeformInstr, hknown]
    · simp only [runColumn, execDeformInstr, attAddlengthPointer, if_pos hpos]
  · rename_i hpos
    split
    · rename_i hlen
      simp only [runColumn, execDeformInstr, attAddlengthPointer, if_neg hpos, if_pos hlen]
    · rename_i hlen
      simp only [runColumn, execDeformInstr, attAddlengthPointer, if_neg hpos, if_neg hlen, Nat.add_assoc]

/-! ## The checks before a column -/

variable {gcn : Int} {k : Nat} {s : DeformState}

/-- The offset at which a column is entered: the first column resets it. -/
def entryOff (k : Nat) (s : DeformState) : DeformState := { s with off := if k = 0 then 0 else s.off }

/-- The first column resets the offset. -/
theorem runColumn_reset (k : Nat) (s : DeformState) :
    runColumn t (if k = 0 then [.resetOff] else []) s = (.fall, entryOff k s) := by
  by_cases hk : k = 0
  · simp only [hk, if_true, runColumn, execDeformInstr, entryOff]
  · simp only [if_neg hk, runColumn, entryOff]

/-- The availability check lets a stored column through. -/
theorem runColumn_avail (hk : k < t.natts) (s : DeformState) :
    runColumn t (if gcn < k then [.availCheck k] else []) s = (.fall, s) := by
  by_cases hg : gcn < k
  · rw [if_pos hg, runColumn, execDeformInstr, if_neg (Nat.not_le_of_lt hk)]
    rfl
  · rw [if_neg hg]
    rfl

/-- A column that the tuple does not store leaves the code. -/
theorem runColumn_absent (hgcn : gcn < k) (hk : t.natts ≤ k) (rest : List DeformInstr) :
    runColumn t (emitChecks gcn k att ++ rest) s = (.out, entryOff k s) := by
  have hout : execDeformInstr t (entryOff k s) (.availCheck k) = (.out, entryOff k s) := by
    rw [execDeformInstr, if_pos hk]
  rw [emitChecks, List.append_assoc, List.append_assoc, runColumn_append (runColumn_reset k s), if_pos hgcn,
    List.singleton_append, runColumn_cons_of_ne (by rw [hout]; exact DeformFlow.noConfusion), hout]

/-- A stored null is stored, and its column left. -/
theorem runColumn_null (hk : k < t.natts) (hnull : t.attIsnull k = true) (hatt : att.attnotnull = false)
    (rest : List DeformInstr) :
    runColumn t (emitChecks gcn k att ++ rest) s = (.nextColumn, (entryOff k s).store k ⟨0, true⟩) := by
  have hnext : execDeformInstr t (entryOff k s) (.nullCheck k) = (.nextColumn, (entryOff k s).store k ⟨0, true⟩) := by
    rw [execDeformInstr, if_pos hnull]
  rw [emitChecks, List.append_assoc, List.append_assoc, runColumn_append (runColumn_reset k s),
    runColumn_append (runColumn_avail hk _), hatt, if_neg Bool.false_ne_true, List.singleton_append,
    runColumn_cons_of_ne (by rw [hnext]; exact DeformFlow.noConfusion), hnext]

/-- The checks before a stored value fall through. -/
theorem runColumn_present (hk : k < t.natts) (hnull : t.attIsnull k = false) :
    runColumn t (emitChecks gcn k att) s = (.fall, entryOff k s) := by
  rw [emitChecks, List.append_assoc, runColumn_append (runColumn_reset k s), runColumn_append (runColumn_avail hk _)]
  by_cases hatt : att.attnotnull = true
  · rw [if_pos hatt]
    rfl
  · rw [if_neg hatt, runColumn, execDeformInstr, if_neg (Bool.eq_false_iff.1 hnull)]
    rfl

/-! ## A column and a run -/

/-- Where a column is entered, the first one at any offset. -/
def EntersAt (t : HeapTuple) (desc : TupleDesc) (k : Nat) (s : DeformState) : Prop := k = 0 ∨ s.off = t.offAfter desc k

theorem entryOff_of_entersAt (h : EntersAt t desc k s) : entryOff k s = { s with off := t.offAfter desc k } := by
  rcases h with rfl | h
  · rfl
  · by_cases hk : k = 0
    · subst hk
      rfl
    · rw [entryOff, if_neg hk, h]

/-- A stored column: it is stored, and the offset is the one after it. -/
theorem runColumn_stored {c : List DeformInstr} (hconf : t.Conforms desc) (hemit : emitColumn gcn k (desc.att k) st = some c)
    (hst : Knows st (t.offAfter desc k)) (hk : k < t.natts) (hs : EntersAt t desc k s) :
    ∃ flow, flow ≠ .out ∧ runColumn t c s = (flow, ⟨t.offAfter desc (k + 1), Function.update s.values k (t.storedValue true desc k),
      Function.update s.isnull k (t.attIsnull k)⟩) := by
  unfold emitColumn at hemit
  obtain ⟨fetch, hfetch, rfl⟩ := Option.map_eq_some_iff.1 hemit
  by_cases hnull : t.attIsnull k = true
  · have hatt : (desc.att k).attnotnull = false :=
      Bool.eq_false_iff.2 fun h => Bool.eq_false_iff.1 (hconf.notnull k hk h) hnull
    refine ⟨.nextColumn, DeformFlow.noConfusion, ?_⟩
    rw [List.append_assoc, List.append_assoc, runColumn_null hk hnull hatt, entryOff_of_entersAt hs, offAfter, if_pos hnull,
      storedValue, if_pos hnull, hnull]
    rfl
  · have hnull' := Bool.eq_false_iff.2 hnull
    have hnext := knows_nextState (known_alignedState t (desc.att k) hst)
    refine ⟨.fall, DeformFlow.noConfusion, ?_⟩
    rw [List.append_assoc, List.append_assoc, runColumn_append (runColumn_present hk hnull'),
      runColumn_append (runColumn_emitAlign hst _ (by rw [entryOff_of_entersAt hs])),
      runColumn_append (runColumn_emitFetch hfetch _), runColumn_emitAdvance (by exact hnext), offAfter, if_neg hnull,
      storedValue, if_neg hnull, hnull']
    rfl

/-- What is known after a stored column, null or not, holds of the offset after it. -/
theorem knows_next (hconf : t.Conforms desc) (hst : Knows st (t.offAfter desc k)) (hk : k < t.natts) :
    Knows (nextState (desc.att k) (alignedState (desc.att k) st)) (t.offAfter desc (k + 1)) := by
  by_cases hnull : t.attIsnull k = true
  · have hatt : (desc.att k).attnotnull = false :=
      Bool.eq_false_iff.2 fun h => Bool.eq_false_iff.1 (hconf.notnull k hk h) hnull
    rw [nextState_of_nullable hatt]
    exact knows_nothing _
  · rw [offAfter, if_neg hnull]
    exact knows_nextState (known_alignedState t (desc.att k) hst)

end DeformAux
end PgJitter
