import PgJitter.Lemmas.Deform

/-!
# Unrolled deforms

The code of `pg_jitter_compile_deform` and that of `sljit_emit_deform_inline` deform a tuple as PostgreSQL does, wherever they
are entered, but that they load every byte with its sign, also where the platform's `char` has none.
-/

namespace PgJitter

open Layout HeapTuple DeformAux

variable {t : HeapTuple} {charIsSigned : Bool} {desc : TupleDesc}

/-! ## Runs of columns -/

/-- Columns that the tuple does not store change nothing, from a later column than the first. -/
theorem runColumns_absent {gcn : Int} {n k : Nat} {st : AlignState} {cs : List (List DeformInstr)} {s : DeformState}
    (hemit : emitColumns desc gcn k n st = some cs) (hgcn : gcn < k) (hk : t.natts ≤ k) (hpos : 0 < k) :
    runColumns t cs s = s := by
  cases n with
  | zero =>
    cases hemit
    rfl
  | succ n =>
    simp only [emitColumns, Option.bind_eq_bind, Option.bind_eq_some_iff, Option.some.injEq] at hemit
    obtain ⟨c, hc, cs', -, rfl⟩ := hemit
    obtain ⟨fetch, -, rfl⟩ := Option.map_eq_some_iff.1 hc
    rw [runColumns, List.append_assoc, List.append_assoc, runColumn_absent hgcn hk, entryOff,
      if_neg (Nat.ne_of_gt hpos)]

/-- A run of columns from a stored one on fills the columns up to the last stored one. -/
theorem runColumns_eq {gcn : Int} (hconf : t.Conforms desc) (hgcn : gcn < t.natts) {n k : Nat} {st : AlignState}
    {cs : List (List DeformInstr)} {s : DeformState} (hemit : emitColumns desc gcn k n st = some cs)
    (hst : Knows st (t.offAfter desc k)) (hk : k ≤ t.natts) (hs : EntersAt t desc k s) (hn : 0 < n) :
    runColumns t cs s = ⟨t.offAfter desc (min (k + n) t.natts),
      fill (t.storedValue true desc) s.values k (min (k + n) t.natts),
      fill t.attIsnull s.isnull k (min (k + n) t.natts)⟩ := by
  induction n generalizing k st cs s with
  | zero => exact absurd hn (Nat.lt_irrefl 0)
  | succ n ih =>
    simp only [emitColumns, Option.bind_eq_bind, Option.bind_eq_some_iff, Option.some.injEq] at hemit
    obtain ⟨c, hc, cs', hcs, rfl⟩ := hemit
    rcases Nat.lt_or_ge k t.natts with hlt | hge
    · obtain ⟨flow, hflow, hrun⟩ := runColumn_stored hconf hc hst hlt hs
      have hgo : runColumns t (c :: cs') s = runColumns t cs' ⟨t.offAfter desc (k + 1),
          Function.update s.values k (t.storedValue true desc k), Function.update s.isnull k (t.attIsnull k)⟩ := by
        rw [runColumns, hrun]
        cases flow with
        | out => exact absurd rfl hflow
        | fall => rfl
        | nextColumn => rfl
      rw [hgo]
      rcases Nat.eq_zero_or_pos n with rfl | hn'
      · cases hcs
        rw [runColumns, Nat.min_eq_left (Nat.le_of_lt_succ (by omega)), fill_succ, fill_succ]
      · have hlim : k < min (k + (n + 1)) t.natts := by omega
        rw [ih hcs (knows_next hconf hst hlt) hlt (Or.inr rfl) hn', Nat.add_assoc, Nat.add_comm 1 n, fill_update _ _ hlim,
          fill_update _ _ hlim]
    · have heq : k = t.natts := Nat.le_antisymm hk hge
      obtain ⟨fetch, -, rfl⟩ := Option.map_eq_some_iff.1 hc
      rw [runColumns, List.append_assoc, List.append_assoc, runColumn_absent (heq ▸ hgcn) hge, entryOff_of_entersAt hs,
        Nat.min_eq_right (by omega), ← heq, fill_self, fill_self]

/-- The code from a later column on is the code emitted from there, with what is known there. -/
theorem emitColumns_drop {gcn : Int} (hconf : t.Conforms desc) (m : Nat) {n k : Nat} {st : AlignState}
    {cs : List (List DeformInstr)} (hemit : emitColumns desc gcn k (m + n) st = some cs)
    (hst : k ≤ t.natts → Knows st (t.offAfter desc k)) :
    ∃ st', emitColumns desc gcn (k + m) n st' = some (cs.drop m) ∧
      (k + m ≤ t.natts → Knows st' (t.offAfter desc (k + m))) := by
  induction m generalizing k st cs with
  | zero =>
    rw [Nat.zero_add] at hemit
    exact ⟨st, hemit, hst⟩
  | succ m ih =>
    rw [Nat.succ_add] at hemit
    simp only [emitColumns, Option.bind_eq_bind, Option.bind_eq_some_iff, Option.some.injEq] at hemit
    obtain ⟨c, -, cs', hcs, rfl⟩ := hemit
    obtain ⟨st', hemit', hst'⟩ := ih hcs fun hle => knows_next hconf (hst (Nat.le_of_lt hle)) hle
    rw [Nat.add_assoc, Nat.add_comm 1 m] at hemit' hst'
    exact ⟨st', hemit', hst'⟩

/-! ## Columns that every tuple has -/

/-- The last guaranteed column is in every tuple. -/
theorem guaranteedColumnNumber_lt (hconf : t.Conforms desc) {natts : Nat} (hnatts : natts ≤ desc.natts) :
    guaranteedColumnNumber desc natts < t.natts := by
  unfold guaranteedColumnNumber
  induction natts with
  | zero =>
    have h : (-1 : Int) < t.natts := by omega
    exact h
  | succ n ih =>
    rw [List.range_succ, List.foldl_append, List.foldl_cons, List.foldl_nil]
    split
    · rename_i hatt
      simp only [Bool.and_eq_true, Bool.not_eq_true'] at hatt
      exact_mod_cast hconf.guaranteed n hatt.1.1 hatt.1.2 hatt.2 hnatts
    · exact ih (Nat.le_of_succ_le hnatts)

/-! ## Runs of a deform -/

/-- The arrays before the columns are run: the missing attributes are in, when the check for them is made where they can be
missing. -/
theorem missing_of_lt (desc : TupleDesc) {check : Bool} {natts : Nat} (hcheck : t.natts < natts → check = true)
    (slot : TupleTableSlot) :
    (if check && decide (t.natts < natts) then slotGetmissingattrs desc slot t.natts natts else slot) =
      slotGetmissingattrs desc slot t.natts natts := by
  rcases Nat.lt_or_ge t.natts natts with h | h
  · rw [hcheck h, Bool.true_and, decide_eq_true h, if_pos rfl]
  · rw [decide_eq_false (Nat.not_lt_of_le h), Bool.and_false, if_neg Bool.false_ne_true]
    simp only [slotGetmissingattrs, fill_of_le _ _ h]

/-- The check for missing attributes is made where they can be missing. -/
theorem missingCheck_of_lt (hconf : t.Conforms desc) {natts : Nat} (hnatts : natts ≤ desc.natts) (h : t.natts < natts) :
    decide (guaranteedColumnNumber desc natts < (natts : Int) - 1) = true := by
  have hgcn := guaranteedColumnNumber_lt hconf hnatts
  exact decide_eq_true (by omega)

/-- A column of a slot whose missing attributes were set and whose stored columns were filled after that. -/
theorem columnValue_of_filled {slot : TupleTableSlot} {natts k : Nat} (hk : slot.nvalid ≤ k) (hk' : k < natts) :
    (⟨fill (t.storedValue charIsSigned desc) (slotGetmissingattrs desc slot t.natts natts).values slot.nvalid (min natts t.natts) k,
      fill t.attIsnull (slotGetmissingattrs desc slot t.natts natts).isnull slot.nvalid (min natts t.natts) k⟩ :
      NullableDatum) = t.columnValue charIsSigned desc k := by
  unfold columnValue
  rcases Nat.lt_or_ge k t.natts with h | h
  · rw [if_pos h, fill_of_mem _ _ hk (Nat.lt_min.2 ⟨hk', h⟩), fill_of_mem _ _ hk (Nat.lt_min.2 ⟨hk', h⟩)]
  · have hge : min natts t.natts ≤ k := Nat.le_trans (Nat.min_le_right _ _) h
    simp only [if_neg (Nat.not_lt_of_le h), fill_of_ge _ _ hge, slotGetmissingattrs, fill_of_mem _ _ h hk']

/-- A run of the columns from any entry fills the columns from there up to the last stored one. -/
theorem runColumns_drop_eq {gcn : Int} (hconf : t.Conforms desc) (hgcn : gcn < t.natts) {natts : Nat}
    {cs : List (List DeformInstr)} (hcs : emitColumns desc gcn 0 natts ⟨some 0, true⟩ = some cs) (hpos : 0 < natts)
    {nvalid : Nat} (hle : nvalid ≤ natts) {s : DeformState}
    (hs : nvalid = 0 ∨ s.off = t.offAfter desc (min nvalid t.natts)) :
    runColumns t (cs.drop nvalid) s = ⟨t.offAfter desc (min natts t.natts),
      fill (t.storedValue true desc) s.values nvalid (min natts t.natts), fill t.attIsnull s.isnull nvalid (min natts t.natts)⟩ := by
  obtain ⟨n, rfl⟩ := Nat.exists_eq_add_of_le hle
  obtain ⟨st, hdrop, hst⟩ := emitColumns_drop hconf nvalid hcs (fun _ => knows_exact true 0)
  rw [Nat.zero_add] at hdrop hst
  rcases Nat.lt_or_ge t.natts nvalid with hlt | hge
  · -- every column that the tuple stores is in the slot already
    have hoff : s.off = t.offAfter desc t.natts := by
      rcases hs with h | h
      · omega
      · rw [h, Nat.min_eq_right (Nat.le_of_lt hlt)]
    have hlim : min (nvalid + n) t.natts = t.natts := Nat.min_eq_right (by omega)
    rw [runColumns_absent hdrop (by omega) (Nat.le_of_lt hlt) (by omega), hlim, fill_of_le _ _ (Nat.le_of_lt hlt),
      fill_of_le _ _ (Nat.le_of_lt hlt), ← hoff]
  · have hentry : EntersAt t desc nvalid s := by
      rcases hs with h | h
      · exact Or.inl h
      · rw [Nat.min_eq_left hge] at h
        exact Or.inr h
    rcases Nat.eq_zero_or_pos n with rfl | hn
    · have hoff : s.off = t.offAfter desc nvalid := by
        rcases hentry with h | h
        · omega
        · exact h
      have hnil : cs.drop nvalid = [] := (Option.some.inj hdrop).symm
      rw [Nat.add_zero, Nat.min_eq_left hge, fill_self, fill_self, ← hoff, hnil, runColumns]
    · exact runColumns_eq hconf hgcn hdrop (hst hge) hge hentry hn

/-- An emitted deform is right from every slot that has at most the columns asked for, where a `char` has a sign. -/
theorem emitDeform_deformed (hconf : t.Conforms desc) {natts : Nat} (hnatts : natts ≤ desc.natts) {code : DeformCode}
    (hemit : emitDeform desc natts = some code) {slot : TupleTableSlot} (hslot : slot.Consistent t desc)
    (hle : slot.nvalid ≤ natts) (hpos : 0 < natts) :
    Deformed true t desc natts slot (code.run desc t slot) := by
  unfold emitDeform at hemit
  obtain ⟨cs, hcs, rfl⟩ := Option.map_eq_some_iff.1 hemit
  have hgcn := guaranteedColumnNumber_lt hconf hnatts
  unfold DeformCode.run
  rw [missing_of_lt desc (missingCheck_of_lt hconf hnatts)]
  dsimp only
  rw [runColumns_drop_eq hconf hgcn hcs hpos (by exact hle) (by exact hslot)]
  exact ⟨fun k hk hk' => columnValue_of_filled hk hk', rfl, rfl⟩

/-- What the two compilers emit. -/
theorem pgJitterCompileDeform_eq_some {ops : TupleTableSlotOps} {natts : Nat} {code : DeformCode}
    (h : pgJitterCompileDeform desc ops natts = some code) :
    emitDeform desc natts = some code ∧ 0 < natts ∧ natts ≤ desc.natts := by
  unfold pgJitterCompileDeform at h
  split at h
  · split at h
    · cases h
    · exact ⟨h, by omega, by omega⟩
  · cases h

/-- Where the inlined deforming is emitted, it is the code of the function. -/
theorem sljitEmitDeformInline_eq_some {limits : DeformLimits} {ops : TupleTableSlotOps} {natts : Nat} {code : DeformCode}
    (h : sljitEmitDeformInline limits desc ops natts = some code) : pgJitterCompileDeform desc ops natts = some code := by
  unfold sljitEmitDeformInline at h
  unfold pgJitterCompileDeform
  split at h
  · rename_i hops
    rw [if_pos hops]
    split at h
    · cases h
    · rename_i hnatts
      rw [if_neg hnatts]
      -- the other refusals
      iterate 4 (split at h; · cases h)
      exact h
  · cases h

/-! ## The alignments that are left out -/

/-- What the compiler knows where a column starts. -/
def alignStateAt (desc : TupleDesc) : Nat → AlignState
  | 0 => ⟨some 0, true⟩
  | k + 1 => nextState (desc.att k) (alignedState (desc.att k) (alignStateAt desc k))

/-- The running offset when a deform entered at `tts_nvalid` reaches a column, which is reset at the first. -/
def reachedOff (code : DeformCode) (t : HeapTuple) (slot : TupleTableSlot) (k : Nat) : Nat :=
  if k = 0 then 0 else (runColumns t ((code.columns.take k).drop slot.nvalid) ⟨slot.off, slot.values, slot.isnull⟩).off

/-- The code of the first columns. -/
theorem emitColumns_take {gcn : Int} {n k j : Nat} {st : AlignState} {cs : List (List DeformInstr)}
    (hemit : emitColumns desc gcn j n st = some cs) (hk : k ≤ n) : emitColumns desc gcn j k st = some (cs.take k) := by
  induction n generalizing k j st cs with
  | zero =>
    cases hemit
    rw [Nat.le_zero.1 hk]
    rfl
  | succ n ih =>
    simp only [emitColumns, Option.bind_eq_bind, Option.bind_eq_some_iff, Option.some.injEq] at hemit
    obtain ⟨c, hc, cs', hcs, rfl⟩ := hemit
    cases k with
    | zero => rfl
    | succ k => rw [emitColumns, hc, ih hcs (Nat.le_of_succ_le_succ hk), List.take_succ_cons]; rfl

/-- What is known where a stored column starts holds of the offset there. -/
theorem knows_alignStateAt (hconf : t.Conforms desc) {k : Nat} (hk : k ≤ t.natts) :
    Knows (alignStateAt desc k) (t.offAfter desc k) := by
  induction k with
  | zero => exact knows_exact true 0
  | succ k ih => exact knows_next hconf (ih (Nat.le_of_succ_le hk)) hk

/-- The running offset at a stored column is the offset after the columns before it. -/
theorem reachedOff_eq (hconf : t.Conforms desc) {natts : Nat} (hnatts : natts ≤ desc.natts) {code : DeformCode}
    (hemit : emitDeform desc natts = some code) {slot : TupleTableSlot} (hslot : slot.Consistent t desc) {k : Nat}
    (hle : slot.nvalid ≤ k) (hk : k < natts) (hk' : k < t.natts) : reachedOff code t slot k = t.offAfter desc k := by
  unfold emitDeform at hemit
  obtain ⟨cs, hcs, rfl⟩ := Option.map_eq_some_iff.1 hemit
  unfold reachedOff
  split
  · rename_i h0
    subst h0
    rfl
  · rename_i h0
    rw [runColumns_drop_eq hconf (guaranteedColumnNumber_lt hconf hnatts) (emitColumns_take hcs (Nat.le_of_lt hk))
      (Nat.pos_of_ne_zero h0) hle (by exact hslot), Nat.min_eq_left (Nat.le_of_lt hk')]

/-! ## Both deforms -/

/-- What is right about a deform: the columns from `tts_nvalid` on are what they hold, and the slot is left consistent; and on
every path that reaches a stored column where the alignment is left out, the running offset is aligned already. -/
structure DeformRight (charIsSigned : Bool) (code : DeformCode) (t : HeapTuple) (desc : TupleDesc) (natts : Nat)
    (slot slot' : TupleTableSlot) : Prop where
  columns : ∀ k, slot.nvalid ≤ k → k < natts → slot'.column k = t.columnValue charIsSigned desc k
  consistent : slot.nvalid ≤ natts → slot'.nvalid = natts ∧ slot'.Consistent t desc
  aligned : ∀ k, slot.nvalid ≤ k → k < natts → k < t.natts → needsAlign (desc.att k) (alignStateAt desc k).known = false →
    (desc.att k).attalignby ∣ reachedOff code t slot k

/-- What is right where a `char` has a sign is right elsewhere exactly when no sign was lost on a byte. -/
theorem deformRight_iff {code : DeformCode} {natts : Nat} {slot slot' : TupleTableSlot}
    (h : DeformRight true code t desc natts slot slot') :
    DeformRight charIsSigned code t desc natts slot slot' ↔ t.CharsFit charIsSigned desc natts slot.nvalid := by
  rw [← columnValue_eq_iff]
  constructor
  · intro h' k hk hk'
    rw [← h'.columns k hk hk', h.columns k hk hk']
  · intro hchars
    exact ⟨fun k hk hk' => (h.columns k hk hk').trans (hchars k hk hk').symm, h.consistent, h.aligned⟩

/-- A deform that is run, or skipped when the slot has the columns, is right where a `char` has a sign. -/
theorem emitDeform_right (hconf : t.Conforms desc) {natts : Nat} (hnatts : natts ≤ desc.natts) (hpos : 0 < natts)
    {code : DeformCode} (hemit : emitDeform desc natts = some code) {slot slot' : TupleTableSlot}
    (hslot : slot.Consistent t desc) (hrun : slot.nvalid < natts → slot' = code.run desc t slot)
    (hskip : natts = slot.nvalid → slot' = code.run desc t slot ∨ slot' = slot) :
    DeformRight true code t desc natts slot slot' := by
  refine ⟨fun k hk hk' => ?_, fun hle => ?_, fun k hk hk' hstored hneeds => ?_⟩
  · have hlt := Nat.lt_of_le_of_lt hk hk'
    rw [hrun hlt]
    exact (emitDeform_deformed hconf hnatts hemit hslot (Nat.le_of_lt hlt) hpos).columns k hk hk'
  · have hdone := emitDeform_deformed hconf hnatts hemit hslot hle hpos
    have hcode : slot' = code.run desc t slot → slot'.nvalid = natts ∧ slot'.Consistent t desc := by
      rintro rfl
      refine ⟨hdone.nvalid, Or.inr ?_⟩
      rw [hdone.nvalid]
      exact hdone.off
    rcases Nat.lt_or_eq_of_le hle with hlt | heq
    · exact hcode (hrun hlt)
    · rcases hskip heq.symm with h | h
      · exact hcode h
      · rw [h]
        exact ⟨heq, hslot⟩
  · rw [reachedOff_eq hconf hnatts hemit hslot hk hk' hstored]
    exact dvd_of_needsAlign (knows_alignStateAt hconf (Nat.le_of_lt hstored)) hneeds

/-- The unrolled deform, and the inline deform of a FETCHSOME step, of a tuple of the relation from a consistent slot are right
exactly when the platform's `char` has a sign, or no stored `char` that they set has a byte that a sign changes. -/
theorem unrolled_and_inline_deform_right_iff (charIsSigned : Bool) (hconf : t.Conforms desc) (ops : TupleTableSlotOps) (natts : Nat)
    (slot : TupleTableSlot) (hslot : slot.Consistent t desc) :
    (∀ code, pgJitterCompileDeform desc ops natts = some code →
      (DeformRight charIsSigned code t desc natts slot (code.run desc t slot) ↔ t.CharsFit charIsSigned desc natts slot.nvalid)) ∧
    ∀ limits code, sljitEmitDeformInline limits desc ops natts = some code →
      (DeformRight charIsSigned code t desc natts slot (code.run desc t slot) ↔ t.CharsFit charIsSigned desc natts slot.nvalid) ∧
        (DeformRight charIsSigned code t desc natts slot (fetchsomeInline code desc t natts slot) ↔
          t.CharsFit charIsSigned desc natts slot.nvalid) := by
  refine ⟨fun code hcode => deformRight_iff ?_, fun limits code hcode => ⟨deformRight_iff ?_, deformRight_iff ?_⟩⟩
  · obtain ⟨hemit, hpos, hnatts⟩ := pgJitterCompileDeform_eq_some hcode
    exact emitDeform_right hconf hnatts hpos hemit hslot (fun _ => rfl) fun _ => Or.inl rfl
  · obtain ⟨hemit, hpos, hnatts⟩ := pgJitterCompileDeform_eq_some (sljitEmitDeformInline_eq_some hcode)
    exact emitDeform_right hconf hnatts hpos hemit hslot (fun _ => rfl) fun _ => Or.inl rfl
  · obtain ⟨hemit, hpos, hnatts⟩ := pgJitterCompileDeform_eq_some (sljitEmitDeformInline_eq_some hcode)
    refine emitDeform_right hconf hnatts hpos hemit hslot (fun hlt => ?_) fun heq => Or.inr ?_
    · exact if_neg (Nat.not_le_of_lt hlt)
    · exact if_pos (Nat.le_of_eq heq)

namespace DeformWitness

/-- An `int4` column that is NOT NULL. -/
def int4NotNull : CompactAttribute := ⟨4, true, 4, true, false, false, typeValid_int4⟩

/-- A `"char"` column that is NOT NULL. -/
def char : CompactAttribute := ⟨1, true, 1, true, false, false, by decide⟩

/-- A `text` column. -/
def text : CompactAttribute := ⟨-1, false, 4, false, false, false, by decide⟩

/-- An `int8` column with a missing value. -/
def int8Missing : CompactAttribute := ⟨8, true, 8, false, true, false, typeValid_int8⟩

/-- The four of them; the `int8` column was added with the default 7. -/
def relation : TupleDesc where
  natts := 4
  att k := match k with
    | 0 => int4NotNull
    | 1 => char
    | 2 => text
    | _ => int8Missing
  missing k := if k = 3 then some 7 else none

/-- A tuple stored before that: the number 1, the letter B and a text of one byte with a short header. -/
def tuple : HeapTuple := ⟨3, false, fun _ => 0, [1, 0, 0, 0, 66, 5, 65], 4096⟩

/-- A slot in which the first column is deformed. -/
def slot : TupleTableSlot := ⟨1, 4, fun _ => 1, fun _ => false, true⟩

theorem tuple_conforms : tuple.Conforms relation := by
  refine ⟨fun k _ _ => rfl, fun k hnotnull _ _ _ => ?_⟩
  rcases k with _ | _ | _ | k
  · decide
  · decide
  · exact absurd hnotnull Bool.false_ne_true
  · exact absurd hnotnull Bool.false_ne_true

/-- The byte of the letter does not look negative. -/
theorem tuple_charsFit : tuple.CharsFit false relation 4 1 := by
  intro k hk hk' _ _ hbyval _
  have hlt : k < 3 := hk'
  have hcases : k = 1 ∨ k = 2 := by omega
  rcases hcases with rfl | rfl
  · decide
  · exact absurd hbyval (by decide)

/-- Where a `char` has no sign both compilers deform the last three columns of the tuple. -/
theorem deform_last_three :
    (∃ code, pgJitterCompileDeform relation .heapTuple 4 = some code ∧
      DeformRight false code tuple relation 4 slot (code.run relation tuple slot)) ∧
    ∃ code, sljitEmitDeformInline ⟨100, 100⟩ relation .heapTuple 4 = some code ∧
      DeformRight false code tuple relation 4 slot (fetchsomeInline code relation tuple 4 slot) := by
  have h := unrolled_and_inline_deform_right_iff false tuple_conforms .heapTuple 4 slot (Or.inr (by decide))
  exact ⟨⟨_, rfl, (h.1 _ rfl).2 tuple_charsFit⟩, ⟨_, rfl, (h.2 ⟨100, 100⟩ _ rfl).2.2 tuple_charsFit⟩⟩

/-- The columns after that: the first is as it was, then the letter, a pointer behind it, and the missing value. -/
example : (List.range 4).map (((emitDeform relation 4).map fun code => code.run relation tuple slot).getD slot).column =
    [⟨1, false⟩, ⟨66, false⟩, ⟨4101, false⟩, ⟨7, false⟩] := by decide

/-- A relation of a `"char"` column. -/
def charRelation : TupleDesc := ⟨1, fun _ => char, fun _ => none⟩

/-- A tuple with the byte 0x80. -/
def highChar : HeapTuple := ⟨1, false, fun _ => 0, [0x80], 4096⟩

/-- A slot with no column yet. -/
def noColumn : TupleTableSlot := ⟨0, 0, fun _ => 0, fun _ => false, false⟩

/-- Where a `char` has no sign, `fetch_att` gives 0x80 for that tuple, and both compilers emit a load that gives a negative number. -/
theorem high_char_gets_a_sign :
    highChar.Conforms charRelation ∧ noColumn.Consistent highChar charRelation ∧
      highChar.columnValue false charRelation 0 = ⟨0x80, false⟩ ∧
      (pgJitterCompileDeform charRelation .heapTuple 1).map (fun code => (code.run charRelation highChar noColumn).column 0) =
        some ⟨0xFFFFFFFFFFFFFF80, false⟩ ∧
      (sljitEmitDeformInline ⟨100, 100⟩ charRelation .heapTuple 1).map
          (fun code => (fetchsomeInline code charRelation highChar 1 noColumn).column 0) =
        some ⟨0xFFFFFFFFFFFFFF80, false⟩ :=
  ⟨⟨fun _ _ _ => rfl, fun _ _ _ _ h => h⟩, Or.inl rfl, by decide, by decide, by decide⟩

end DeformWitness

end PgJitter
