import PgJitter.Lemmas.DeformDispatch
import PgJitter.Theorems.Deform

/-!
# The loop-based deform

Which of the bodies deform a tuple as PostgreSQL does, and when. The helper for sparse tables always does. All emitted bodies load a
byte with its sign, also where the platform's `char` has none. Those that do not store every null flag themselves clear the flags in
bulk after the missing attributes were set, and so lose a missing null; the dispatch loop moreover aligns every varlena to 4, and
takes batches that do not stop at the last stored column.
-/

namespace PgJitter

open Layout HeapTuple DeformAux DeformLoopAux DeformDispatchAux

variable {t : HeapTuple} {charIsSigned : Bool} {desc : TupleDesc} {natts : Nat} {slot : TupleTableSlot}

/-! ## The arrays at the start and at the end -/

/-- The offset a deform starts with. -/
def startOff (slot : TupleTableSlot) : Nat := if slot.nvalid = 0 then 0 else slot.off

/-- The arrays a body starts on: those of the slot, with the missing attributes. -/
def startState (t : HeapTuple) (desc : TupleDesc) (natts : Nat) (slot : TupleTableSlot) : DeformState :=
  ⟨startOff slot, (slotGetmissingattrs desc slot t.natts natts).values, (slotGetmissingattrs desc slot t.natts natts).isnull⟩

/-- The slot at the end. -/
def endSlot (natts : Nat) (s : DeformState) : TupleTableSlot := ⟨natts, s.off, s.values, s.isnull, true⟩

/-- Before a column that is stored, a deform starts at its offset. -/
theorem startOff_eq (hslot : slot.Consistent t desc) (h : slot.nvalid ≤ t.natts) : startOff slot = t.offAfter desc slot.nvalid := by
  unfold startOff
  split
  · rename_i h0
    rw [h0]
    rfl
  · rename_i h0
    rcases hslot with h' | h'
    · exact absurd h' h0
    · rw [h', Nat.min_eq_left h]

/-- After the last stored column, it starts at its end. -/
theorem startOff_of_gt (hslot : slot.Consistent t desc) (h : t.natts < slot.nvalid) : startOff slot = t.offAfter desc t.natts := by
  rcases hslot with h' | h'
  · omega
  · rw [startOff, if_neg (by omega), h', Nat.min_eq_right (Nat.le_of_lt h)]

/-- A body that deforms the stored columns is right. -/
theorem deformed_of_filled (hslot : slot.Consistent t desc) (hle : slot.nvalid ≤ natts) {s : DeformState}
    (h : slot.nvalid ≤ min natts t.natts →
      s = filled charIsSigned t desc slot.nvalid (min natts t.natts) (startState t desc natts slot))
    (h' : min natts t.natts < slot.nvalid → s = startState t desc natts slot) :
    Deformed charIsSigned t desc natts slot (endSlot natts s) := by
  rcases Nat.lt_or_ge (min natts t.natts) slot.nvalid with hgt | hge
  · rw [h' hgt]
    refine ⟨fun k hk hk' => ?_, rfl, ?_⟩
    · rw [← columnValue_of_filled hk hk', fill_of_le _ _ (Nat.le_of_lt hgt), fill_of_le _ _ (Nat.le_of_lt hgt)]
      rfl
    · have hlt : t.natts < slot.nvalid := by omega
      rw [show min natts t.natts = t.natts by omega]
      exact startOff_of_gt hslot hlt
  · rw [h hge]
    exact ⟨fun k hk hk' => columnValue_of_filled hk hk', rfl, rfl⟩

/-- The null flag of a column that the tuple does not store. -/
theorem missing_isnull {k : Nat} (h : t.natts ≤ k) : (t.columnValue charIsSigned desc k).isnull = (desc.missing k).isNone := by
  rw [columnValue, if_neg (Nat.not_lt_of_le h)]

/-- A body that clears the null flags in bulk is right only when no null is missing. -/
theorem noMissingNull_of_clear {s : DeformState} (hright : Deformed charIsSigned t desc natts slot (endSlot natts s))
    (hclear : ∀ k, t.natts ≤ k → slot.nvalid ≤ k → k < natts → s.isnull k = false) : NoMissingNull t desc natts slot.nvalid := by
  intro k hk hstored hk'
  have h := congrArg NullableDatum.isnull (hright.columns k hk hk')
  rw [missing_isnull hstored] at h
  have hfalse : (desc.missing k).isNone = false := h.symm.trans (hclear k hstored hk hk')
  rwa [Option.isNone_eq_false_iff] at hfalse

/-- When no null is missing, to clear the null flags does nothing to the missing attributes, so a body that does so and fills the
stored columns is right. -/
theorem deformed_of_clear (hmiss : NoMissingNull t desc natts slot.nvalid) {s : DeformState}
    (hoff : s.off = t.offAfter desc (min natts t.natts))
    (hvalues : s.values = fill (t.storedValue charIsSigned desc) (startState t desc natts slot).values slot.nvalid (min natts t.natts))
    (hisnull : ∀ k, slot.nvalid ≤ k → k < min natts t.natts → s.isnull k = t.attIsnull k)
    (hclear : ∀ k, t.natts ≤ k → slot.nvalid ≤ k → k < natts → s.isnull k = false) :
    Deformed charIsSigned t desc natts slot (endSlot natts s) := by
  refine ⟨fun k hk hk' => ?_, rfl, hoff⟩
  rw [← columnValue_of_filled hk hk', TupleTableSlot.column, endSlot]
  dsimp only
  rw [hvalues]
  refine congrArg (NullableDatum.mk _) ?_
  rcases Nat.lt_or_ge k t.natts with h | h
  · rw [hisnull k hk (Nat.lt_min.2 ⟨hk', h⟩), fill_of_mem _ _ hk (Nat.lt_min.2 ⟨hk', h⟩)]
  · rw [hclear k h hk hk', fill_of_ge _ _ (Nat.le_trans (Nat.min_le_right _ _) h)]
    dsimp only [slotGetmissingattrs]
    rw [fill_of_mem _ _ h hk']
    exact (Option.isNone_eq_false_iff.2 (hmiss k hk h hk')).symm

/-- A body that is right where a `char` has a sign, when a condition holds that it also needs elsewhere: elsewhere it is right exactly
when moreover no sign was lost on a byte. -/
theorem deformed_iff {slot' : TupleTableSlot} {cond : Prop} (hright : cond → Deformed true t desc natts slot slot')
    (hcond : Deformed charIsSigned t desc natts slot slot' → cond) :
    Deformed charIsSigned t desc natts slot slot' ↔ cond ∧ t.CharsFit charIsSigned desc natts slot.nvalid := by
  rw [← columnValue_eq_iff]
  constructor
  · intro h
    refine ⟨hcond h, fun k hk hk' => ?_⟩
    rw [← h.columns k hk hk', (hright (hcond h)).columns k hk hk']
  · rintro ⟨h, hchars⟩
    have hsigned := hright h
    exact ⟨fun k hk hk' => (hsigned.columns k hk hk').trans (hchars k hk hk').symm, hsigned.nvalid, hsigned.off⟩

/-! ## The bodies -/

/-- The tight loop, on stored columns that are not null, is right exactly when no null is missing and no sign was lost on a byte. -/
theorem uniformLoop_right_iff (hslot : slot.Consistent t desc) (hle : slot.nvalid ≤ natts) {w : Nat} (hw : 0 < w)
    (huni : UniformOn desc w 0 natts) (hnull : ∀ k, k < min t.natts natts → t.attIsnull k = false) (vu : VectorUnit) :
    Deformed charIsSigned t desc natts slot
        (endSlot natts (uniformLoop t vu w natts slot.nvalid (startState t desc natts slot))) ↔
      NoMissingNull t desc natts slot.nvalid ∧ t.CharsFit charIsSigned desc natts slot.nvalid := by
  have hrun := uniformLoop_eq vu huni hw (fun k _ hk => hnull k hk) (s := startState t desc natts slot)
    (fun h => startOff_eq hslot h) hle
  rw [hrun]
  refine deformed_iff (fun h => ?_) fun h => noMissingNull_of_clear h fun k _ hk hk' => fill_of_mem (fun _ => false) _ hk hk'
  refine deformed_of_clear h ?_ (by rw [Nat.min_comm]) (fun k hk hk' => ?_)
    fun k _ hk hk' => fill_of_mem (fun _ => false) _ hk hk'
  · dsimp only
    split
    · rw [Nat.min_comm]
    · rename_i hgt
      rw [show min natts t.natts = t.natts by omega]
      exact startOff_of_gt hslot (Nat.not_le.1 hgt)
  · rw [hnull k (by omega)]
    exact fill_of_mem (fun _ => false) _ hk (by omega)

/-- A loop of right steps is right. -/
theorem forColumns_right (hslot : slot.Consistent t desc) (hle : slot.nvalid ≤ natts) {step : Nat → DeformState → DeformState}
    (hstep : ∀ k, k < min t.natts natts → StepRight charIsSigned t desc step k) :
    Deformed charIsSigned t desc natts slot (endSlot natts
      (forColumns step slot.nvalid (min t.natts natts - slot.nvalid) (startState t desc natts slot))) := by
  rw [Nat.min_comm t.natts natts] at hstep ⊢
  refine deformed_of_filled hslot hle (fun h => ?_) fun h => ?_
  · rw [forColumns_eq (startOff_eq hslot (by omega)) fun k _ hk => hstep k (by omega), Nat.add_sub_cancel' h]
  · rw [Nat.sub_eq_zero_of_le (Nat.le_of_lt h), forColumns]

/-- To fetch the missing attributes again does nothing. -/
theorem slotGetmissingattrs_twice (desc : TupleDesc) (slot : TupleTableSlot) (i j : Nat) :
    slotGetmissingattrs desc (slotGetmissingattrs desc slot i j) i j = slotGetmissingattrs desc slot i j := by
  simp only [slotGetmissingattrs, fill_overwrite]

/-- For every tuple, descriptor, slot and number of columns, from any column and any offset, with either sign of the platform's `char`, the
helper for sparse tables leaves the slot that a visit of the columns one by one leaves: the same values, null flags and offset. -/
theorem deform_sparse_dispatch_eq (t : HeapTuple) (charIsSigned : Bool) (desc : TupleDesc) (slot : TupleTableSlot) (natts : Nat) :
    deformSparseDispatch t charIsSigned desc slot natts = deformByColumn t charIsSigned desc slot natts := by
  unfold deformSparseDispatch deformByColumn
  dsimp only
  rw [sparse_columns_eq]

/-- The helper for sparse tables is right. -/
theorem deformSparseDispatch_right (hslot : slot.Consistent t desc) (hle : slot.nvalid ≤ natts) :
    Deformed charIsSigned t desc natts slot
      (deformSparseDispatch t charIsSigned desc (slotGetmissingattrs desc slot t.natts natts) natts) := by
  have hmiss : (if t.natts < natts then slotGetmissingattrs desc (slotGetmissingattrs desc slot t.natts natts) t.natts natts
      else slotGetmissingattrs desc slot t.natts natts) = slotGetmissingattrs desc slot t.natts natts := by
    rw [slotGetmissingattrs_twice, ite_self]
  have hcols := forColumns_right hslot hle fun k (_ : k < min t.natts natts) =>
    @visitColumn_right t charIsSigned desc k
  rw [Nat.min_comm t.natts natts, ← sparse_columns_eq] at hcols
  unfold deformSparseDispatch
  dsimp only
  rw [hmiss]
  exact hcols

/-- What the dispatch loop needs: no null is missing, every varlena is where an alignment to 4 puts it, and no batch goes beyond the
stored columns. -/
structure BatchesFit (t : HeapTuple) (desc : TupleDesc) (natts nvalid : Nat) : Prop where
  missing : NoMissingNull t desc natts nvalid
  aligned : ∀ k, nvalid ≤ k → k < min t.natts natts → VarlenaFourAligned t desc k
  batches : nvalid < min t.natts natts → batchesEnd desc natts (min t.natts natts) nvalid = min t.natts natts

/-- The dispatch loop is right exactly when that holds and no sign was lost on a byte. -/
theorem dispatchLoop_right_iff (hconf : t.Conforms desc) (hslot : slot.Consistent t desc) (hle : slot.nvalid ≤ natts)
    (vu : VectorUnit) :
    Deformed charIsSigned t desc natts slot (endSlot natts (dispatchLoop t desc vu natts (min t.natts natts)
      (loopHasnulls t desc natts) slot.nvalid { startState t desc natts slot with
        isnull := fill (fun _ => false) (startState t desc natts slot).isnull slot.nvalid natts })) ↔
      BatchesFit t desc natts slot.nvalid ∧ t.CharsFit charIsSigned desc natts slot.nvalid := by
  generalize hs : ({ startState t desc natts slot with
    isnull := fill (fun _ => false) (startState t desc natts slot).isnull slot.nvalid natts } : DeformState) = s
  have hclear : ∀ k, slot.nvalid ≤ k → k < natts → s.isnull k = false := by
    intro k hk hk'
    rw [← hs]
    exact fill_of_mem (fun _ => false) _ hk hk'
  have hvalues : s.values = (startState t desc natts slot).values := by rw [← hs]
  have hsoff : s.off = startOff slot := by rw [← hs]; rfl
  have hend : ∀ k, t.natts ≤ k → slot.nvalid ≤ k → k < natts → (dispatchLoop t desc vu natts (min t.natts natts)
      (loopHasnulls t desc natts) slot.nvalid s).isnull k = false :=
    fun k h hk hk' => dispatchLoop_isnull vu natts _ (by omega) (hclear k hk hk')
  rcases Nat.lt_or_ge (min t.natts natts) slot.nvalid with hgt | hge
  · -- no column is left
    rw [dispatchLoop_of_ge vu natts _ (Nat.le_of_lt hgt)] at hend ⊢
    refine deformed_iff (fun h => ?_) fun h => ⟨noMissingNull_of_clear h hend, fun k hk hk' => by omega, fun h' => by omega⟩
    refine deformed_of_clear h.missing ?_ ?_ (fun k hk hk' => by omega) hend
    · rw [hsoff, startOff_of_gt hslot (by omega), show min natts t.natts = t.natts by omega]
    · rw [hvalues, fill_of_le _ _ (by omega)]
  · have hoff : s.off = t.offAfter desc slot.nvalid := hsoff.trans (startOff_eq hslot (by omega))
    refine deformed_iff ?_ fun h => ?_
    · rintro ⟨hmiss, halign, hbatch⟩
      have hbatch' : batchesEnd desc natts (min t.natts natts) slot.nvalid = min t.natts natts := by
        rcases Nat.lt_or_eq_of_le hge with h | h
        · exact hbatch h
        · rw [h, batchesEnd_of_ge (Nat.le_refl _)]
      rw [dispatchLoop_eq hconf vu rfl hge hoff hclear halign hbatch'] at hend ⊢
      refine deformed_of_clear hmiss ?_ ?_ (fun k hk hk' => ?_) hend
      · rw [Nat.min_comm]
        rfl
      · rw [Nat.min_comm, ← hvalues]
        rfl
      · exact fill_of_mem _ _ hk (by omega)
    · have hparts := holds_of_dispatchLoop hconf vu rfl hge hoff hclear ?_ ?_
      · exact ⟨noMissingNull_of_clear h hend, hparts.1, fun _ => hparts.2⟩
      · intro k hk hk' hbyval
        have hcol := congrArg NullableDatum.value (h.columns k hk (by omega))
        rw [columnValue, if_pos (by omega)] at hcol
        exact hcol.trans (storedValue_of_not_byval hbyval charIsSigned)
      · exact h.off.trans (by rw [Nat.min_comm])

/-! ## The code -/

/-- What a body needs of the nulls, the varlenas and the batches. -/
def BodyFits (t : HeapTuple) (desc : TupleDesc) (natts nvalid : Nat) : DeformPath → Prop
  | .sparse => True
  | .descriptors => True
  | .fast _ => NoMissingNull t desc natts nvalid
  | .semiFast _ =>
    t.hasnulls = false ∨ simdNullbitmapAllNotnull t.tBits natts = true → NoMissingNull t desc natts nvalid
  | .dispatch => BatchesFit t desc natts nvalid

/-- Whether the helper for sparse tables is called for a tuple. -/
def callsSparseDispatch (t : HeapTuple) (natts : Nat) (genBuf : Bool) : DeformPath → Bool
  | .sparse => true
  | .semiFast _ => t.hasnulls && !simdNullbitmapAllNotnull t.tBits natts && !genBuf && decide (64 ≤ natts)
  | _ => false

/-- When the code for a descriptor deforms a tuple right, from the slots with the columns before `nvalid`. -/
def DeformLoopHolds (charIsSigned : Bool) (t : HeapTuple) (desc : TupleDesc) (natts : Nat) (genBuf : Bool) (nvalid : Nat) : Prop :=
  BodyFits t desc natts nvalid (deformPath desc natts genBuf) ∧
    (callsSparseDispatch t natts genBuf (deformPath desc natts genBuf) = false → t.CharsFit charIsSigned desc natts nvalid)

/-- The columns that a body is for. -/
def PathFits (desc : TupleDesc) (natts : Nat) : DeformPath → Prop
  | .fast w => 0 < w ∧ UniformOn desc w 0 natts ∧ allNotnull desc natts = true
  | .semiFast w => 0 < w ∧ UniformOn desc w 0 natts
  | _ => True

/-- A body is chosen for the columns that it is for. -/
theorem deformPath_fits (desc : TupleDesc) (natts : Nat) (genBuf : Bool) :
    PathFits desc natts (deformPath desc natts genBuf) := by
  have huniform : allFixedByval desc natts && uniformAttlen desc natts && decide (0 < (desc.att 0).attlen) →
      0 < (desc.att 0).attlen.toNat ∧ UniformOn desc (desc.att 0).attlen.toNat 0 natts := by
    intro h
    rw [Bool.and_eq_true, Bool.and_eq_true, decide_eq_true_eq, allFixedByval, uniformAttlen, List.all_eq_true,
      List.all_eq_true] at h
    refine ⟨by omega, fun k _ hk => ?_⟩
    have hbyval := h.1.1 k (List.mem_range.2 hk)
    have hlen := h.1.2 k (List.mem_range.2 hk)
    rw [Bool.and_eq_true] at hbyval
    rw [beq_iff_eq] at hlen
    exact ⟨hbyval.1, by omega⟩
  unfold deformPath
  dsimp only
  split
  · trivial
  · split
    · rename_i h
      rw [Bool.and_eq_true] at h
      exact ⟨(huniform h.1).1, (huniform h.1).2, h.2⟩
    · split
      · rename_i h
        exact huniform h
      · split
        · trivial
        · trivial

/-- The code that is compiled. -/
theorem pgJitterCompileDeformLoop_eq_some {ops : TupleTableSlotOps} {genBuf : Bool} {code : DeformLoopCode}
    (h : pgJitterCompileDeformLoop desc ops natts genBuf = some code) :
    code = ⟨natts, decide (guaranteedColumnNumber desc natts < (natts : Int) - 1), genBuf, deformPath desc natts genBuf⟩ ∧
      natts ≤ desc.natts := by
  unfold pgJitterCompileDeformLoop at h
  split at h
  · split at h
    · cases h
    · exact ⟨(Option.some.inj h).symm, by omega⟩
  · cases h

/-- The loop-based deform of a tuple of the relation, from a consistent slot, is right exactly when the condition of its body
holds. -/
theorem loop_deform_right_iff (charIsSigned : Bool) (hconf : t.Conforms desc) {ops : TupleTableSlotOps} {genBuf : Bool}
    {code : DeformLoopCode} (hcode : pgJitterCompileDeformLoop desc ops natts genBuf = some code) (vu : VectorUnit)
    (slot : TupleTableSlot) (hslot : slot.Consistent t desc) (hle : slot.nvalid ≤ natts) :
    Deformed charIsSigned t desc natts slot (code.run t charIsSigned desc vu slot) ↔
      DeformLoopHolds charIsSigned t desc natts genBuf slot.nvalid := by
  obtain ⟨rfl, hnatts⟩ := pgJitterCompileDeformLoop_eq_some hcode
  have huni := deformPath_fits desc natts genBuf
  have hstart : (⟨if (slotGetmissingattrs desc slot t.natts natts).nvalid = 0 then 0 else
      (slotGetmissingattrs desc slot t.natts natts).off, (slotGetmissingattrs desc slot t.natts natts).values,
      (slotGetmissingattrs desc slot t.natts natts).isnull⟩ : DeformState) = startState t desc natts slot := rfl
  unfold DeformLoopCode.run DeformLoopHolds
  rw [missing_of_lt desc (missingCheck_of_lt hconf hnatts)]
  dsimp only
  rw [hstart]
  unfold runDeformPath
  dsimp only
  cases hpath : deformPath desc natts genBuf with
  | sparse => exact iff_of_true (deformSparseDispatch_right hslot hle) ⟨trivial, fun h => Bool.noConfusion h⟩
  | fast w =>
    rw [hpath] at huni
    obtain ⟨hw, huni, hall⟩ := huni
    have hcall : callsSparseDispatch t natts genBuf (.fast w) = false := rfl
    rw [forall_prop_of_true hcall]
    refine uniformLoop_right_iff hslot hle hw huni (fun k hk => ?_) vu
    exact hconf.notnull k (by omega) (List.all_eq_true.1 hall k (List.mem_range.2 (by omega)))
  | semiFast w =>
    rw [hpath] at huni
    obtain ⟨hw, huni⟩ := huni
    by_cases hplain : (!t.hasnulls || simdNullbitmapAllNotnull t.tBits natts) = true
    · have hplain' : t.hasnulls = false ∨ simdNullbitmapAllNotnull t.tBits natts = true := by
        rwa [Bool.or_eq_true, Bool.not_eq_true'] at hplain
      have hcall : callsSparseDispatch t natts genBuf (.semiFast w) = false := by
        rcases hplain' with h | h
        · simp [callsSparseDispatch, h]
        · simp [callsSparseDispatch, h]
      dsimp only
      rw [if_pos hplain, forall_prop_of_true hcall, BodyFits, forall_prop_of_true hplain']
      refine uniformLoop_right_iff hslot hle hw huni (fun k hk => ?_) vu
      rcases hplain' with h | h
      · rw [attIsnull_eq, h, Bool.false_and]
      · exact attIsnull_of_allNotnull h (by omega)
    · have hplain' : ¬ (t.hasnulls = false ∨ simdNullbitmapAllNotnull t.tBits natts = true) := by
        rwa [Bool.or_eq_true, Bool.not_eq_true'] at hplain
      obtain ⟨hnulls, hsome⟩ := not_or.1 hplain'
      rw [Bool.not_eq_false] at hnulls
      rw [Bool.not_eq_true] at hsome
      have hfits : BodyFits t desc natts slot.nvalid (.semiFast w) := fun h => absurd h hplain'
      have hcall : callsSparseDispatch t natts genBuf (.semiFast w) = (!genBuf && decide (64 ≤ natts)) := by
        rw [callsSparseDispatch, hnulls, hsome, Bool.not_false, Bool.true_and, Bool.true_and]
      dsimp only
      rw [if_neg hplain, hcall]
      by_cases hsparse : (!genBuf && decide (64 ≤ natts)) = true
      · rw [if_pos hsparse]
        exact iff_of_true (deformSparseDispatch_right hslot hle) ⟨hfits, fun h => absurd (hsparse.symm.trans h) (by decide)⟩
      · rw [if_neg hsparse, forall_prop_of_true (Bool.eq_false_iff.2 hsparse)]
        exact deformed_iff (fun _ => forColumns_right hslot hle fun k hk => uniformNullStep_right huni (by omega) hnulls) fun _ => hfits
  | descriptors =>
    have hcall : callsSparseDispatch t natts genBuf .descriptors = false := rfl
    rw [forall_prop_of_true hcall]
    exact deformed_iff (fun _ => forColumns_right hslot hle fun k hk => descriptorStep_right hconf (by omega) (by omega))
      fun _ => trivial
  | dispatch =>
    have hcall : callsSparseDispatch t natts genBuf .dispatch = false := rfl
    rw [forall_prop_of_true hcall]
    exact dispatchLoop_right_iff hconf hslot hle vu

namespace DeformLoopWitness

/-- An `int4` column that may be null. -/
def int4 : CompactAttribute := ⟨4, true, 4, false, false, false, typeValid_int4⟩

/-- A relation of 64 such columns; the last was added without a default. -/
def relation : TupleDesc := ⟨64, fun _ => int4, fun _ => none⟩

/-- A tuple stored before that, all zeros. -/
def tuple : HeapTuple := ⟨63, false, fun _ => 0, [], 4096⟩

/-- A slot with no column yet. -/
def emptySlot : TupleTableSlot := ⟨0, 0, fun _ => 0, fun _ => false, false⟩

/-- A vector unit of four lanes. -/
def fourLanes : VectorUnit := ⟨fun _ => 4, fun _ => by decide⟩

theorem tuple_conforms : tuple.Conforms relation := ⟨fun _ _ _ => rfl, fun _ h => absurd h Bool.false_ne_true⟩

/-- With a tuple that has all columns the code of the relation is right. -/
def wholeTuple : HeapTuple := ⟨64, false, fun _ => 0, [], 4096⟩

theorem whole_tuple_deformed : ∃ code, pgJitterCompileDeformLoop relation .heapTuple 64 false = some code ∧
    Deformed false wholeTuple relation 64 emptySlot (code.run wholeTuple false relation fourLanes emptySlot) := by
  have hconf : wholeTuple.Conforms relation := ⟨fun _ _ _ => rfl, fun _ h => absurd h Bool.false_ne_true⟩
  have hcode : pgJitterCompileDeformLoop relation .heapTuple 64 false =
      some ⟨64, decide (guaranteedColumnNumber relation 64 < (64 : Nat) - 1), false, deformPath relation 64 false⟩ := rfl
  have h := loop_deform_right_iff false hconf hcode fourLanes emptySlot (Or.inl rfl) (Nat.zero_le 64)
  refine ⟨_, rfl, h.2 ?_⟩
  have hpath : deformPath relation 64 false = .semiFast 4 := by decide
  rw [DeformLoopHolds, hpath]
  refine ⟨fun _ k _ hk hk' => absurd hk' (Nat.not_lt_of_le hk), fun _ k _ _ _ _ _ hlen => ?_⟩
  exact absurd (show (4 : Int) = 1 from hlen) (by decide)

/-- The dispatcher chooses the loop for this relation, and of a tuple stored before the last column was added the loop makes the
last column, a missing null, the number 0. -/
theorem missing_null_is_lost :
    deformDispatchUsesLoop ⟨200, 100⟩ relation 64 = true ∧ tuple.Conforms relation ∧ emptySlot.Consistent tuple relation ∧
      ((pgJitterCompileDeformLoop relation .heapTuple 64 false).map fun code =>
        (code.run tuple true relation fourLanes emptySlot).isnull 63) = some false ∧
      (tuple.columnValue true relation 63).isnull = true := by
  exact ⟨by decide, tuple_conforms, Or.inl rfl, by decide, by decide⟩

end DeformLoopWitness

end PgJitter
