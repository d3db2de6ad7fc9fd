import PgJitter.Lemmas.DeformLoop

/-!
# Helpers for `Theorems/DeformLoop.lean`: the dispatch loop

An iteration of the dispatch loop either deforms the columns it takes, or puts a varlena at the wrong place, or takes a batch
that goes beyond the stored columns. The last two are never made good.
-/

namespace PgJitter
namespace DeformDispatchAux

open Layout HeapTuple DeformAux DeformLoopAux

variable {t : HeapTuple} {desc : TupleDesc}

/-! ## Batches -/

/-- The columns of a batch have one dispatch byte, and none may be null. -/
def BatchOk (desc : TupleDesc) (natts : Nat) (bc : Nat → Nat) : Prop :=
  ∀ j, bc j ≠ 0 → j + bc j ≤ natts ∧
    ∀ m, m < bc j → dispatchByte desc (j + m) = dispatchByte desc j ∧ (dispatchByte desc j).nullable = false

/-- What the scan for batches has found when it has come to `i`: the columns from the start of the run to `i` are alike. -/
structure ScanOk (desc : TupleDesc) (natts i : Nat) (b : BatchScan) : Prop where
  start : b.runStart ≤ i
  run : ∀ m, b.runStart ≤ m → m ≤ i → m < natts → dispatchByte desc m = dispatchByte desc b.runStart
  counts : BatchOk desc natts b.batchCount

/-- The counts of a run that ends before `i`. -/
theorem batchOk_runCounts {natts i : Nat} {b : BatchScan} (h : ScanOk desc natts i b) (hi : i < natts)
    (hnull : (dispatchByte desc b.runStart).nullable = false) :
    BatchOk desc natts (runCounts b.runStart (i + 1 - b.runStart) b.batchCount) := by
  intro j hj
  have hlen : b.runStart + (i + 1 - b.runStart) = i + 1 := by have := h.start; omega
  rw [runCounts, hlen] at hj ⊢
  by_cases hmem : b.runStart ≤ j ∧ j < i + 1
  · rw [fill_of_mem _ _ hmem.1 hmem.2] at hj ⊢
    by_cases hleft : 4 ≤ i + 1 - j
    · rw [if_pos hleft]
      have hle := Nat.min_le_left (i + 1 - j) 255
      have hfirst := h.run j hmem.1 (by omega) (by omega)
      refine ⟨by omega, fun m hm => ⟨?_, by rw [hfirst, hnull]⟩⟩
      rw [hfirst, h.run (j + m) (by omega) (by omega) (by omega)]
    · rw [if_neg hleft] at hj ⊢
      exact h.counts j hj
  · have hout : fill (fun j => if 4 ≤ i + 1 - j then min (i + 1 - j) 255 else b.batchCount j) b.batchCount b.runStart (i + 1) j =
        b.batchCount j := if_neg hmem
    rw [hout] at hj ⊢
    exact h.counts j hj

/-- A step of the scan. -/
theorem scanOk_step {natts i : Nat} {b : BatchScan} (h : ScanOk desc natts i b) (hi : i < natts) :
    ScanOk desc natts (i + 1) (batchScanStep desc natts b (i + 1)) := by
  have hnew : ∀ m, i + 1 ≤ m → m ≤ i + 1 → m < natts → dispatchByte desc m = dispatchByte desc (i + 1) :=
    fun m hm hm' _ => by rw [Nat.le_antisymm hm' hm]
  unfold batchScanStep
  dsimp only
  split
  · rename_i hcont
    refine ⟨Nat.le_succ_of_le h.start, fun m hm hm' hm'' => ?_, h.counts⟩
    rcases Nat.lt_or_ge i m with hlt | hge
    · rw [Nat.le_antisymm hm' hlt]
      exact hcont.2.1
    · exact h.run m hm hge hm''
  · split
    · rename_i hint4
      exact ⟨Nat.le_refl _, hnew, batchOk_runCounts h hi hint4.2.2⟩
    · split
      · rename_i hint8
        exact ⟨Nat.le_refl _, hnew, batchOk_runCounts h hi hint8.2.2⟩
      · exact ⟨Nat.le_refl _, hnew, h.counts⟩

/-- The scan. -/
theorem batchOk_batchScan (desc : TupleDesc) (natts : Nat) : BatchOk desc natts (batchScan desc natts).batchCount := by
  have hscan : ∀ n, n ≤ natts →
      ScanOk desc natts n ((List.range n).foldl (fun b i => batchScanStep desc natts b (i + 1)) ⟨0, fun _ => 0, false, false⟩) := by
    intro n
    induction n with
    | zero =>
      refine fun _ => ⟨Nat.le_refl 0, fun m _ hm _ => by rw [Nat.le_zero.1 hm]; rfl, fun j hj => absurd rfl hj⟩
    | succ n ih =>
      intro hn
      rw [List.range_succ, List.foldl_append, List.foldl_cons, List.foldl_nil]
      exact scanOk_step (ih (Nat.le_of_succ_le hn)) hn
  exact (hscan natts (Nat.le_refl natts)).counts

/-- A batch is of columns like the first one, none of which may be null. -/
theorem batchAt_spec {natts j : Nat} (h : batchAt desc natts j ≠ 0) :
    j + batchAt desc natts j ≤ natts ∧
      ∀ m, m < batchAt desc natts j → handlerOf (desc.att (j + m)) = handlerOf (desc.att j) ∧ (desc.att (j + m)).attnotnull = true := by
  have hbc : batchAt desc natts j = (batchScan desc natts).batchCount j := by
    unfold batchAt at h ⊢
    split
    · rename_i heq
      rw [heq] at h
      dsimp only at h
      split at h
      · rename_i hhas
        rw [if_pos hhas]
      · exact absurd rfl h
    · rename_i heq
      rw [heq] at h
      dsimp only at h
      split at h
      · rename_i hhas
        rw [if_pos hhas]
      · exact absurd rfl h
    · rename_i h4 h8
      split at h
      · rename_i heq
        exact absurd heq h4
      · rename_i heq
        exact absurd heq h8
      · exact absurd rfl h
  rw [hbc] at h ⊢
  obtain ⟨hle, hrun⟩ := batchOk_batchScan desc natts j h
  refine ⟨hle, fun m hm => ?_⟩
  obtain ⟨hbyte, hnull⟩ := hrun m hm
  refine ⟨congrArg DispatchByte.handler hbyte, ?_⟩
  have hnull' : (dispatchByte desc (j + m)).nullable = false := by rw [hbyte, hnull]
  simpa [dispatchByte] using hnull'

/-- Only the two kinds of numbers are taken in batches. -/
theorem batchAt_of_handler {natts j : Nat} (h4 : handlerOf (desc.att j) ≠ .int4) (h8 : handlerOf (desc.att j) ≠ .int8) :
    batchAt desc natts j = 0 := by
  unfold batchAt
  split
  · rename_i h
    exact absurd h h4
  · rename_i h
    exact absurd h h8
  · rfl

/-- A column that may be null starts no batch. -/
theorem batchAt_of_null (hconf : t.Conforms desc) {natts j : Nat} (hj : j < t.natts) (h : t.attIsnull j = true) :
    batchAt desc natts j = 0 := by
  by_contra hne
  have hnotnull := ((batchAt_spec hne).2 0 (Nat.pos_of_ne_zero hne)).2
  exact Bool.eq_false_iff.1 (hconf.notnull j hj hnotnull) h

/-! ## Where batches end -/

theorem batchesEnd_of_ge {natts limit j : Nat} (h : limit ≤ j) : batchesEnd desc natts limit j = j := by
  rw [batchesEnd, if_pos h]

theorem batchesEnd_of_lt {natts limit j : Nat} (h : j < limit) :
    batchesEnd desc natts limit j = batchesEnd desc natts limit (j + max 1 (batchAt desc natts j)) := by
  rw [batchesEnd, if_neg (Nat.not_le_of_lt h)]

/-- Columns that start no batch are taken one by one. -/
theorem batchesEnd_of_no_batch {natts limit j n : Nat} (hn : j + n ≤ limit)
    (h : ∀ k, j ≤ k → k < j + n → batchAt desc natts k = 0) :
    batchesEnd desc natts limit j = batchesEnd desc natts limit (j + n) := by
  induction n with
  | zero => rfl
  | succ n ih =>
    rw [ih (by omega) fun k hk hk' => h k hk (by omega), batchesEnd_of_lt (by omega), h (j + n) (Nat.le_add_right j n) (by omega)]
    rfl

/-! ## What an iteration does -/

/-- What an iteration at column `j` does to the arrays `s` in which the columns before are deformed: it deforms the columns it
takes; or its column is a varlena at the wrong place; or it takes columns beyond the limit. -/
inductive StepOutcome (t : HeapTuple) (desc : TupleDesc) (natts limit j : Nat) (s : DeformState) : Nat × DeformState → Prop where
  | right (n : Nat) : 0 < n → j + n ≤ limit → (∀ k, j ≤ k → k < j + n → VarlenaFourAligned t desc k) →
      batchesEnd desc natts limit j = batchesEnd desc natts limit (j + n) →
      StepOutcome t desc natts limit j s (n, filled true t desc j (j + n) s)
  | misaligned (s' : DeformState) : s'.values j ≠ t.storedValue true desc j → ¬ VarlenaFourAligned t desc j →
      StepOutcome t desc natts limit j s (1, s')
  | overrun (n : Nat) (s' : DeformState) : limit < j + n → s'.off ≠ t.offAfter desc limit →
      batchesEnd desc natts limit j ≠ limit → StepOutcome t desc natts limit j s (n, s')

variable {natts limit j : Nat} {s : DeformState}

/-- A column that is no varlena. -/
theorem varlenaFourAligned_of_ne {k : Nat} (h : (desc.att k).attlen ≠ -1) : VarlenaFourAligned t desc k :=
  fun _ h' => absurd h' h

/-- A null column. -/
theorem varlenaFourAligned_of_null {k : Nat} (h : t.attIsnull k = true) : VarlenaFourAligned t desc k :=
  fun h' => absurd (h.symm.trans h') (by decide)

/-- A column that an alignment to 4 misplaces is a varlena. -/
theorem not_byval_of_misaligned {k : Nat} (h : ¬ VarlenaFourAligned t desc k) : (desc.att k).attbyval = false := by
  have hlen : (desc.att k).attlen = -1 := by
    by_contra hne
    exact h (varlenaFourAligned_of_ne hne)
  rcases (desc.att k).valid with ⟨_, hmem, _⟩ | ⟨hbyval, _⟩
  · simp only [List.mem_cons, List.not_mem_nil, or_false] at hmem
    omega
  · exact hbyval

/-- Null flags that are clear already. -/
theorem fill_isnull_of_clear {n : Nat} (hnull : ∀ k, j ≤ k → k < j + n → t.attIsnull k = false)
    (hclear : ∀ k, j ≤ k → k < j + n → s.isnull k = false) : fill t.attIsnull s.isnull j (j + n) = s.isnull := by
  funext k
  by_cases hk : j ≤ k ∧ k < j + n
  · rw [fill_of_mem _ _ hk.1 hk.2, hnull k hk.1 hk.2, hclear k hk.1 hk.2]
  · exact if_neg hk

/-- A handler that stores the value of its column. -/
theorem putColumn_eq {off off' : Nat} (hnull : t.attIsnull j = false) (hclear : s.isnull j = false)
    (hoff : off = t.attAlignPointer (desc.att j) (t.offAfter desc j)) {value : Datum}
    (hvalue : value = t.fetchAtt true (desc.att j) off) (hnext : off' = t.attAddlengthPointer (desc.att j) off) :
    putColumn j off' value s = (1, filled true t desc j (j + 1) s) := by
  rw [← store_value_eq (s := s) hnull hoff hvalue hnext, putColumn, DeformState.store, ← hclear, Function.update_eq_self]

/-- The outcome of such a handler, when its column starts no batch. -/
theorem outcome_putColumn (off : Nat) {off' : Nat} (hlt : j < limit) (hnull : t.attIsnull j = false) (hclear : s.isnull j = false)
    (hbatch : batchAt desc natts j = 0) (halign : VarlenaFourAligned t desc j)
    (hoff : off = t.attAlignPointer (desc.att j) (t.offAfter desc j)) {value : Datum}
    (hvalue : value = t.fetchAtt true (desc.att j) off) (hnext : off' = t.attAddlengthPointer (desc.att j) off) :
    StepOutcome t desc natts limit j s (putColumn j off' value s) := by
  rw [putColumn_eq hnull hclear hoff hvalue hnext]
  refine .right 1 Nat.one_pos hlt (fun k hk hk' => ?_) ?_
  · rw [Nat.le_antisymm (Nat.le_of_lt_succ hk') hk]
    exact halign
  · exact batchesEnd_of_no_batch hlt fun k hk hk' => by rw [Nat.le_antisymm (Nat.le_of_lt_succ hk') hk]; exact hbatch

/-- The kind of attribute that a handler is for. -/
theorem handlerOf_spec (att : CompactAttribute) :
    match handlerOf att with
    | .bool => att.attbyval = true ∧ att.attlen = (1 : Nat)
    | .int2 => att.attbyval = true ∧ att.attlen = (2 : Nat)
    | .int4 => att.attbyval = true ∧ att.attlen = (4 : Nat)
    | .int8 => att.attbyval = true ∧ att.attlen = (8 : Nat)
    | .varlena => att.attbyval = false ∧ att.attlen = -1
    | .cstring => att.attbyval = false ∧ att.attlen = -2 ∧ att.attalignby = 1
    | .generic => att.attbyval = false ∧ 0 < att.attlen := by
  have hvalid := att.valid
  simp only [TypeValid, List.mem_cons, List.not_mem_nil, or_false] at hvalid
  unfold handlerOf
  by_cases hbyval : att.attbyval = true
  · rw [if_pos hbyval]
    split_ifs
    · exact ⟨hbyval, by omega⟩
    · exact ⟨hbyval, by omega⟩
    · exact ⟨hbyval, by omega⟩
    · exact ⟨hbyval, by omega⟩
    · have hlen := attlen_mem_of_byval hbyval
      simp only [List.mem_cons, List.not_mem_nil, or_false] at hlen
      omega
  · rw [if_neg hbyval]
    have hbyval' := Bool.eq_false_iff.2 hbyval
    simp only [hbyval', Bool.false_eq_true, false_and, true_and, false_or] at hvalid
    split_ifs
    · exact ⟨hbyval', by omega⟩
    · exact ⟨hbyval', by omega, by omega⟩
    · exact ⟨hbyval', by omega⟩

/-- The columns of a batch are numbers of one length. -/
theorem uniformOn_batch (desc : TupleDesc) (natts : Nat) {w : Nat}
    (hw : ∀ att : CompactAttribute, handlerOf att = handlerOf (desc.att j) → att.attbyval = true ∧ att.attlen = (w : Int))
    {n : Nat} (hn : n ≤ batchAt desc natts j) (hbatch : batchAt desc natts j ≠ 0) : UniformOn desc w j (j + n) := by
  intro k hk hk'
  obtain ⟨m, rfl⟩ := Nat.exists_eq_add_of_le hk
  exact hw _ ((batchAt_spec hbatch).2 m (by omega)).1

/-- The outcome of a batch. -/
theorem outcome_batch (hconf : t.Conforms desc) {w : Nat} (hw0 : 0 < w)
    (hw : ∀ att : CompactAttribute, handlerOf att = handlerOf (desc.att j) → att.attbyval = true ∧ att.attlen = (w : Int))
    (hbatch : batchAt desc natts j ≠ 0) (hlim : limit = min t.natts natts) (hlt : j < limit) (hs : s.off = t.offAfter desc j)
    (hclear : ∀ k, j ≤ k → k < natts → s.isnull k = false) {isnull : Nat → Bool} (hisnull : isnull = s.isnull) :
    StepOutcome t desc natts limit j s (batchAt desc natts j, ⟨alignUp w s.off + w * batchAt desc natts j,
      fill (row t w (alignUp w s.off) j) s.values j (j + batchAt desc natts j), isnull⟩) := by
  have hpos := Nat.pos_of_ne_zero hbatch
  have hnull : ∀ n, n ≤ batchAt desc natts j → j + n ≤ limit → ∀ k, j ≤ k → k < j + n → t.attIsnull k = false := by
    intro n hn hle k hk hk'
    obtain ⟨m, rfl⟩ := Nat.exists_eq_add_of_le hk
    exact hconf.notnull _ (by omega) ((batchAt_spec hbatch).2 m (by omega)).2
  have hend : batchesEnd desc natts limit j = batchesEnd desc natts limit (j + batchAt desc natts j) := by
    rw [batchesEnd_of_lt hlt, Nat.max_eq_right hpos]
  rcases Nat.lt_or_ge limit (j + batchAt desc natts j) with hover | hle
  · refine .overrun _ _ hover ?_ ?_
    · have hoff := offAfter_row (t := t) (uniformOn_batch desc natts (n := limit - j) hw (by omega) hbatch)
        (hnull (limit - j) (by omega) (by omega)) (m := limit - j) (by omega) (Nat.le_refl _)
      rw [Nat.add_sub_cancel' (Nat.le_of_lt hlt)] at hoff
      have hmul : w * (limit - j) < w * batchAt desc natts j := (Nat.mul_lt_mul_left hw0).2 (by omega)
      rw [hoff, ← hs]
      exact Nat.ne_of_gt (Nat.add_lt_add_left hmul _)
    · rw [hend, batchesEnd_of_ge (Nat.le_of_lt hover)]
      exact Nat.ne_of_gt hover
  · have huni := uniformOn_batch desc natts hw (Nat.le_refl (batchAt desc natts j)) hbatch
    have hclean : isnull = fill (fun _ => false) s.isnull j (j + batchAt desc natts j) := by
      rw [hisnull, fill_congr s.isnull fun k hk hk' => (hnull _ (Nat.le_refl _) hle k hk hk').symm]
      exact (fill_isnull_of_clear (hnull _ (Nat.le_refl _) hle) fun k hk hk' => hclear k hk (by omega)).symm
    rw [filled_row huni (hnull _ (Nat.le_refl _) hle) hpos hs hclean]
    refine .right _ hpos hle (fun k hk hk' => varlenaFourAligned_of_ne ?_) hend
    have hlen := (huni k hk hk').2
    omega

/-- The null flags that a batch clears are clear. -/
theorem clearBatch_eq (all : Bool) (hclear : ∀ k, j ≤ k → k < natts → s.isnull k = false) {n : Nat} (hn : j + n ≤ natts) :
    clearBatch all j n s.isnull = s.isnull := by
  unfold clearBatch
  split
  · rfl
  · funext k
    by_cases hk : j ≤ k ∧ k < j + n
    · rw [fill_of_mem _ _ hk.1 hk.2, hclear k hk.1 (by omega)]
    · exact if_neg hk

/-- Two places less than a word apart are not the same place. -/
theorem pointer_ne {a b : Nat} (h : a < b) (h' : b < a + 2 ^ 64) : t.pointer a ≠ t.pointer b := by
  intro heq
  have hofNat : BitVec.ofNat 64 a = BitVec.ofNat 64 b := BitVec.add_right_inj _ |>.1 heq
  have hmod := congrArg BitVec.toNat hofNat
  rw [BitVec.toNat_ofNat, BitVec.toNat_ofNat] at hmod
  omega

/-- The outcome of the varlena handler. -/
theorem outcome_varlena (hlt : j < limit) (hnull : t.attIsnull j = false) (hlen : (desc.att j).attlen = -1)
    (hbyval : (desc.att j).attbyval = false) (hs : s.off = t.offAfter desc j) (hclear : s.isnull j = false)
    (hbatch : batchAt desc natts j = 0) : StepOutcome t desc natts limit j s (varlenaHandler t j s) := by
  have hfetch : ∀ off, t.pointer off = t.fetchAtt true (desc.att j) off := fun off => by
    rw [fetchAtt_of_not_byval hbyval]
  have hnext : ∀ off, off + t.varsizeAny off = t.attAddlengthPointer (desc.att j) off := fun off => by
    rw [attAddlengthPointer, hlen, if_neg (by decide), if_pos rfl]
  unfold varlenaHandler
  dsimp only
  rw [hs]
  by_cases hbyte : t.byte (t.offAfter desc j) = 0
  · rw [if_neg (not_not_intro hbyte)]
    by_cases halign : alignUp 4 (t.offAfter desc j) = alignUp (desc.att j).attalignby (t.offAfter desc j)
    · refine outcome_putColumn _ hlt hnull hclear hbatch (fun _ _ _ => halign) ?_ (hfetch _) (hnext _)
      rw [attAlignPointer, if_neg fun h => h.2 hbyte, halign]
    · refine .misaligned _ ?_ fun h => halign (h hnull hlen hbyte)
      dsimp only
      rw [Function.update_self, storedValue_of_not_null hnull, ← hfetch, attAlignPointer, if_neg fun h => h.2 hbyte]
      have h8 : (desc.att j).attalignby = 8 := by
        rcases (desc.att j).valid with ⟨h, _⟩ | ⟨_, ⟨h, _⟩ | ⟨_, h⟩ | ⟨h, _⟩⟩
        · exact absurd (h.symm.trans hbyval) (by decide)
        · omega
        · rcases List.mem_cons.1 h with h | h
          · exact absurd (by rw [h]) halign
          · exact List.mem_singleton.1 h
        · omega
      rw [h8] at halign ⊢
      have hle4 := le_alignUp (a := 4) (by decide) (t.offAfter desc j)
      have hlt4 := alignUp_lt (a := 4) (by decide) (t.offAfter desc j)
      have hle8 := le_alignUp (a := 8) (by decide) (t.offAfter desc j)
      have hlt8 := alignUp_lt (a := 8) (by decide) (t.offAfter desc j)
      rcases Nat.lt_or_gt_of_ne halign with h | h
      · exact pointer_ne h (by omega)
      · exact (pointer_ne h (by omega)).symm
  · rw [if_pos hbyte]
    refine outcome_putColumn _ hlt hnull hclear hbatch (fun _ _ h => absurd h hbyte) ?_ (hfetch _) (hnext _)
    rw [attAlignPointer, if_pos ⟨hlen, hbyte⟩]

/-- The outcome of a handler of numbers: a batch, or one number. -/
theorem outcome_number (hconf : t.Conforms desc) {w : Nat} (hw0 : 0 < w)
    (hw : ∀ att : CompactAttribute, handlerOf att = handlerOf (desc.att j) → att.attbyval = true ∧ att.attlen = (w : Int))
    (hlim : limit = min t.natts natts) (hlt : j < limit) (hnull : t.attIsnull j = false) (hs : s.off = t.offAfter desc j)
    (hclear : ∀ k, j ≤ k → k < natts → s.isnull k = false) {values : Nat → Datum}
    (hvalues : values = fill (row t w (alignUp w s.off) j) s.values j (j + batchAt desc natts j)) :
    StepOutcome t desc natts limit j s
      (if batchAt desc natts j = 0 then putColumn j (alignUp w s.off + w) (t.load (alignUp w s.off) w) s
      else (batchAt desc natts j, ⟨alignUp w s.off + w * batchAt desc natts j, values,
        clearBatch (allNotnull desc natts) j (batchAt desc natts j) s.isnull⟩)) := by
  obtain ⟨hbyval, hlen⟩ := hw _ rfl
  split
  · rename_i hbatch
    refine outcome_putColumn _ hlt hnull (hclear j (Nat.le_refl j) (by omega)) hbatch (varlenaFourAligned_of_ne (by omega)) ?_
      (fetchAtt_of_byval hbyval hlen _).symm (attAddlengthPointer_of_byval hbyval hlen _).symm
    rw [attAlignPointer_of_byval hbyval hlen, hs]
  · rename_i hbatch
    rw [clearBatch_eq _ hclear (batchAt_spec hbatch).1, hvalues]
    exact outcome_batch hconf hw0 hw hbatch hlim hlt hs hclear rfl

/-- The outcome of a handler. -/
theorem outcome_runHandler (hconf : t.Conforms desc) (vu : VectorUnit) (hlim : limit = min t.natts natts) (hlt : j < limit)
    (hnull : t.attIsnull j = false) (hs : s.off = t.offAfter desc j) (hclear : ∀ k, j ≤ k → k < natts → s.isnull k = false) :
    StepOutcome t desc natts limit j s (runHandler t desc vu natts j s) := by
  have hclear' : s.isnull j = false := hclear j (Nat.le_refl j) (by omega)
  have hspec := handlerOf_spec (desc.att j)
  have hkind : ∀ h, handlerOf (desc.att j) = h → h ≠ .int4 → h ≠ .int8 → batchAt desc natts j = 0 :=
    fun h hh h4 h8 => batchAt_of_handler (hh ▸ h4) (hh ▸ h8)
  unfold runHandler
  rw [show (dispatchByte desc j).handler = handlerOf (desc.att j) from rfl]
  cases hh : handlerOf (desc.att j) with
  | bool =>
    rw [hh] at hspec
    refine outcome_putColumn _ hlt hnull hclear' (hkind _ hh (by decide) (by decide)) (varlenaFourAligned_of_ne (by omega)) ?_
      (fetchAtt_of_byval hspec.1 hspec.2 _).symm (attAddlengthPointer_of_byval hspec.1 hspec.2 _).symm
    rw [attAlignPointer_of_byval hspec.1 hspec.2, alignUp_one, hs]
  | int2 =>
    rw [hh] at hspec
    refine outcome_putColumn _ hlt hnull hclear' (hkind _ hh (by decide) (by decide)) (varlenaFourAligned_of_ne (by omega)) ?_
      (fetchAtt_of_byval hspec.1 hspec.2 _).symm (attAddlengthPointer_of_byval hspec.1 hspec.2 _).symm
    rw [attAlignPointer_of_byval hspec.1 hspec.2, hs]
  | int4 =>
    have hw : ∀ att : CompactAttribute, handlerOf att = handlerOf (desc.att j) →
        att.attbyval = true ∧ att.attlen = ((4 : Nat) : Int) := by
      intro att hatt
      have h := handlerOf_spec att
      rw [hatt, hh] at h
      exact h
    exact outcome_number hconf (by decide) hw hlim hlt hnull hs hclear (int4ToDatumBatch_eq vu _ _ _ _)
  | int8 =>
    have hw : ∀ att : CompactAttribute, handlerOf att = handlerOf (desc.att j) →
        att.attbyval = true ∧ att.attlen = ((8 : Nat) : Int) := by
      intro att hatt
      have h := handlerOf_spec att
      rw [hatt, hh] at h
      exact h
    exact outcome_number hconf (by decide) hw hlim hlt hnull hs hclear rfl
  | varlena =>
    rw [hh] at hspec
    exact outcome_varlena hlt hnull hspec.2 hspec.1 hs hclear' (hkind _ hh (by decide) (by decide))
  | cstring =>
    rw [hh] at hspec
    refine outcome_putColumn s.off hlt hnull hclear' (hkind _ hh (by decide) (by decide)) (varlenaFourAligned_of_ne (by omega)) ?_ ?_ ?_
    · rw [attAlignPointer_of_ne (by omega), hspec.2.2, alignUp_one, hs]
    · rw [fetchAtt_of_not_byval hspec.1]
    · rw [attAddlengthPointer, hspec.2.1, if_neg (by decide), if_neg (by decide), Nat.add_assoc]
  | generic =>
    rw [hh] at hspec
    unfold genericHandler
    dsimp only
    refine outcome_putColumn _ hlt hnull hclear' (hkind _ hh (by decide) (by decide)) (varlenaFourAligned_of_ne (by omega)) ?_
      (descriptor_value_eq _ _) ?_
    · rw [attAlignPointer_of_ne (by omega), hs]
      split
      · rename_i halign
        rw [Nat.le_antisymm halign (attalignby_pos _), alignUp_one]
      · rfl
    · rw [attAddlengthPointer, if_pos hspec.2]

/-! ## Null columns -/

/-- The flag that the loop tests: there is a bitmap, and not all of its bits are set. -/
def loopHasnulls (t : HeapTuple) (desc : TupleDesc) (natts : Nat) : Bool :=
  t.hasnulls && (allNotnull desc natts || !simdNullbitmapAllNotnull t.tBits natts)

/-- The test of the loop for a null column. -/
theorem loop_null_iff (hconf : t.Conforms desc) {k : Nat} (hk : k < t.natts) (hk' : k < natts) :
    (!allNotnull desc natts && loopHasnulls t desc natts && !bitSet t k) = t.attIsnull k := by
  by_cases hall : allNotnull desc natts = true
  · have hatt : (desc.att k).attnotnull = true := List.all_eq_true.1 hall k (List.mem_range.2 hk')
    rw [hall, Bool.not_true, Bool.false_and, Bool.false_and, hconf.notnull k hk hatt]
  · rw [loopHasnulls, Bool.eq_false_iff.2 hall, Bool.not_false, Bool.true_and, Bool.false_or]
    by_cases hsimd : simdNullbitmapAllNotnull t.tBits natts = true
    · rw [hsimd, Bool.not_true, Bool.and_false, Bool.false_and, attIsnull_of_allNotnull hsimd hk']
    · rw [Bool.eq_false_iff.2 hsimd, Bool.not_false, Bool.and_true, attIsnull_eq]

/-- The outcome of columns that are null. -/
theorem outcome_null (hconf : t.Conforms desc) {n : Nat} (hn : 0 < n) (hlim : limit = min t.natts natts)
    (hle : j + n ≤ limit) (hnull : ∀ k, j ≤ k → k < j + n → t.attIsnull k = true) {s' : DeformState}
    (heq : s' = filled true t desc j (j + n) s) : StepOutcome t desc natts limit j s (n, s') := by
  subst heq
  refine .right n hn hle (fun k hk hk' => varlenaFourAligned_of_null (hnull k hk hk')) ?_
  exact batchesEnd_of_no_batch hle fun k hk hk' => batchAt_of_null hconf (by omega) (hnull k hk hk')

/-- The outcome of an iteration. -/
theorem outcome_dispatchStep (hconf : t.Conforms desc) (vu : VectorUnit) (hlim : limit = min t.natts natts) (hlt : j < limit)
    (hs : s.off = t.offAfter desc j) (hclear : ∀ k, j ≤ k → k < natts → s.isnull k = false) :
    StepOutcome t desc natts limit j s (dispatchStep t desc vu natts limit (loopHasnulls t desc natts) j s) := by
  unfold dispatchStep
  dsimp only
  split
  · -- eight null columns
    rename_i hgroup
    simp only [Bool.and_eq_true, decide_eq_true_eq, beq_iff_eq] at hgroup
    obtain ⟨⟨⟨⟨⟨hall, _⟩, hmod⟩, hnulls⟩, hle⟩, hbyte⟩ := hgroup
    have hnull : ∀ k, j ≤ k → k < j + 8 → t.attIsnull k = true := by
      intro k hk hk'
      have hzero : (0 : BitVec 8).getLsbD (k % 8) = false := BitVec.getLsbD_zero
      have hk8 : k / 8 = j / 8 := by omega
      rw [← loop_null_iff hconf (show k < t.natts by omega) (show k < natts by omega), hall, hnulls, bitSet, hk8,
        hbyte, hzero]
      rfl
    refine outcome_null hconf (by decide) hlim hle hnull ?_
    rw [← filled_of_null true t desc (i := j) (j := j + 8) (by omega) hnull
      (s := ⟨s.off, fill (fun _ => 0) s.values j (j + 8), fill (fun _ => true) s.isnull j (j + 8)⟩) hs
      (fun k hk hk' => fill_of_mem (fun _ => 0) s.values hk hk') fun k hk hk' => fill_of_mem (fun _ => true) s.isnull hk hk']
    simp only [filled, fill_overwrite]
  · rw [loop_null_iff hconf (by omega) (by omega)]
    split
    · rename_i hnull
      refine outcome_null hconf Nat.one_pos hlim hlt (fun k hk hk' => ?_) (store_null_eq hnull hs)
      rw [Nat.le_antisymm (Nat.le_of_lt_succ hk') hk]
      exact hnull
    · rename_i hnull
      exact outcome_runHandler hconf vu hlim hlt (Bool.eq_false_iff.2 hnull) hs hclear

/-! ## What an iteration leaves alone -/

/-- A handler writes no column before its own, and sets no null flag. -/
theorem runHandler_frame (vu : VectorUnit) (natts j : Nat) (s : DeformState) :
    (∀ k, k < j → (runHandler t desc vu natts j s).2.values k = s.values k ∧
      (runHandler t desc vu natts j s).2.isnull k = s.isnull k) ∧
    ∀ k, s.isnull k = false → (runHandler t desc vu natts j s).2.isnull k = false := by
  have hput : ∀ off value, (∀ k, k < j → (putColumn j off value s).2.values k = s.values k ∧
      (putColumn j off value s).2.isnull k = s.isnull k) ∧ ∀ k, s.isnull k = false → (putColumn j off value s).2.isnull k = false :=
    fun off value => ⟨fun k hk => ⟨Function.update_of_ne (Nat.ne_of_lt hk) _ _, rfl⟩, fun k hk => hk⟩
  have hclear : ∀ all n, (∀ k, k < j → clearBatch all j n s.isnull k = s.isnull k) ∧
      ∀ k, s.isnull k = false → clearBatch all j n s.isnull k = false := by
    intro all n
    unfold clearBatch
    split
    · exact ⟨fun k _ => rfl, fun k hk => hk⟩
    · refine ⟨fun k hk => fill_of_lt _ _ hk, fun k hk => ?_⟩
      unfold fill
      split
      · rfl
      · exact hk
  unfold runHandler
  cases (dispatchByte desc j).handler with
  | bool | int2 | cstring =>
    dsimp only
    exact hput _ _
  | varlena =>
    dsimp only [varlenaHandler]
    exact hput _ _
  | generic =>
    dsimp only [genericHandler]
    exact hput _ _
  | int4 =>
    dsimp only [int4Handler]
    split
    · exact hput _ _
    · refine ⟨fun k hk => ⟨?_, (hclear _ _).1 k hk⟩, (hclear _ _).2⟩
      dsimp only
      rw [int4ToDatumBatch_eq, fill_of_lt _ _ hk]
  | int8 =>
    dsimp only [int8Handler]
    split
    · exact hput _ _
    · refine ⟨fun k hk => ⟨?_, (hclear _ _).1 k hk⟩, (hclear _ _).2⟩
      dsimp only
      rw [fill_of_lt _ _ hk]

/-- An iteration writes no column before its own, and sets no null flag from the limit on, nor after the columns it takes. -/
theorem dispatchStep_frame (t : HeapTuple) (desc : TupleDesc) (vu : VectorUnit) (natts : Nat) (hasnulls : Bool) (hlt : j < limit)
    (s : DeformState) :
    (∀ k, k < j → (dispatchStep t desc vu natts limit hasnulls j s).2.values k = s.values k ∧
      (dispatchStep t desc vu natts limit hasnulls j s).2.isnull k = s.isnull k) ∧
    ∀ k, j + (dispatchStep t desc vu natts limit hasnulls j s).1 ≤ k ∨ limit ≤ k → s.isnull k = false →
      (dispatchStep t desc vu natts limit hasnulls j s).2.isnull k = false := by
  unfold dispatchStep
  dsimp only
  split
  · rename_i hgroup
    simp only [Bool.and_eq_true, decide_eq_true_eq] at hgroup
    refine ⟨fun k hk => ⟨fill_of_lt (fun _ => 0) s.values hk, fill_of_lt (fun _ => true) s.isnull hk⟩, fun k hk hclear => ?_⟩
    exact (fill_of_ge (fun _ => true) s.isnull (by omega)).trans hclear
  · split
    · refine ⟨fun k hk => ⟨Function.update_of_ne (Nat.ne_of_lt hk) _ _, Function.update_of_ne (Nat.ne_of_lt hk) _ _⟩,
        fun k hk hclear => ?_⟩
      exact (Function.update_of_ne (by omega) _ _).trans hclear
    · exact ⟨(runHandler_frame vu natts j s).1, fun k _ => (runHandler_frame vu natts j s).2 k⟩

theorem dispatchLoop_of_ge (vu : VectorUnit) (natts : Nat) (hasnulls : Bool) (h : limit ≤ j) (s : DeformState) :
    dispatchLoop t desc vu natts limit hasnulls j s = s := by
  rw [dispatchLoop, dif_pos h]

theorem dispatchLoop_of_lt (vu : VectorUnit) (natts : Nat) (hasnulls : Bool) (h : j < limit) (s : DeformState) :
    dispatchLoop t desc vu natts limit hasnulls j s = dispatchLoop t desc vu natts limit hasnulls
      (j + (dispatchStep t desc vu natts limit hasnulls j s).1) (dispatchStep t desc vu natts limit hasnulls j s).2 := by
  rw [dispatchLoop, dif_neg (Nat.not_le_of_lt h)]

/-- The loop writes no column before the one it starts at. -/
theorem dispatchLoop_frame (vu : VectorUnit) (natts : Nat) (hasnulls : Bool) {k : Nat} (hk : k < j) (s : DeformState) :
    (dispatchLoop t desc vu natts limit hasnulls j s).values k = s.values k ∧
      (dispatchLoop t desc vu natts limit hasnulls j s).isnull k = s.isnull k := by
  induction j, s using dispatchLoop.induct t desc vu natts limit hasnulls with
  | case1 j s h =>
    rw [dispatchLoop_of_ge vu natts hasnulls h]
    exact ⟨rfl, rfl⟩
  | case2 j s h hpos ih =>
    obtain ⟨hvalues, hisnull⟩ := (dispatchStep_frame t desc vu natts hasnulls (Nat.not_le.1 h) s).1 k hk
    obtain ⟨ihv, ihn⟩ := ih (Nat.lt_add_right _ hk)
    rw [dispatchLoop_of_lt vu natts hasnulls (Nat.not_le.1 h)]
    exact ⟨ihv.trans hvalues, ihn.trans hisnull⟩

/-- The loop sets no null flag from the limit on. -/
theorem dispatchLoop_isnull (vu : VectorUnit) (natts : Nat) (hasnulls : Bool) {k : Nat} (hk : limit ≤ k) {s : DeformState}
    (hclear : s.isnull k = false) : (dispatchLoop t desc vu natts limit hasnulls j s).isnull k = false := by
  induction j, s using dispatchLoop.induct t desc vu natts limit hasnulls with
  | case1 j s h =>
    rw [dispatchLoop_of_ge vu natts hasnulls h]
    exact hclear
  | case2 j s h hpos ih =>
    rw [dispatchLoop_of_lt vu natts hasnulls (Nat.not_le.1 h)]
    exact ih ((dispatchStep_frame t desc vu natts hasnulls (Nat.not_le.1 h) s).2 k (Or.inr hk) hclear)

/-! ## Runs of the loop -/

/-- Where all varlenas are aligned to 4 and the batches end at the limit, the loop deforms the columns up to the limit. -/
theorem dispatchLoop_eq (hconf : t.Conforms desc) (vu : VectorUnit) (hlim : limit = min t.natts natts) (hle : j ≤ limit)
    (hs : s.off = t.offAfter desc j) (hclear : ∀ k, j ≤ k → k < natts → s.isnull k = false)
    (halign : ∀ k, j ≤ k → k < limit → VarlenaFourAligned t desc k) (hend : batchesEnd desc natts limit j = limit) :
    dispatchLoop t desc vu natts limit (loopHasnulls t desc natts) j s = filled true t desc j limit s := by
  induction hm : limit - j using Nat.strong_induction_on generalizing j s with
  | _ m ih =>
    rcases Nat.lt_or_eq_of_le hle with hlt | rfl
    · have hout := outcome_dispatchStep hconf vu hlim hlt hs hclear
      rw [dispatchLoop_of_lt vu natts _ hlt]
      generalize dispatchStep t desc vu natts limit (loopHasnulls t desc natts) j s = r at hout
      cases hout with
      | right n hn hle' _ hstep =>
        rw [ih (limit - (j + n)) (by omega) hle' rfl
          (fun k hk hk' => (fill_of_ge _ _ hk).trans (hclear k (by omega) hk')) (fun k hk hk' => halign k (by omega) hk')
          (hstep ▸ hend) rfl, filled_filled (Nat.le_add_right j n) hle']
      | misaligned s' _ hnot => exact absurd (halign j (Nat.le_refl j) hlt) hnot
      | overrun n s' _ _ hne => exact absurd hend hne
    · rw [dispatchLoop_of_ge vu natts _ (Nat.le_refl _), filled_self hs]

/-- Where the loop gets the pointers and the offset right, all varlenas were aligned to 4, and the batches ended at the limit. -/
theorem holds_of_dispatchLoop (hconf : t.Conforms desc) (vu : VectorUnit) (hlim : limit = min t.natts natts) (hle : j ≤ limit)
    (hs : s.off = t.offAfter desc j) (hclear : ∀ k, j ≤ k → k < natts → s.isnull k = false)
    (hvalues : ∀ k, j ≤ k → k < limit → (desc.att k).attbyval = false →
      (dispatchLoop t desc vu natts limit (loopHasnulls t desc natts) j s).values k = t.storedValue true desc k)
    (hoff : (dispatchLoop t desc vu natts limit (loopHasnulls t desc natts) j s).off = t.offAfter desc limit) :
    (∀ k, j ≤ k → k < limit → VarlenaFourAligned t desc k) ∧ batchesEnd desc natts limit j = limit := by
  induction hm : limit - j using Nat.strong_induction_on generalizing j s with
  | _ m ih =>
    rcases Nat.lt_or_eq_of_le hle with hlt | rfl
    · have hout := outcome_dispatchStep hconf vu hlim hlt hs hclear
      rw [dispatchLoop_of_lt vu natts _ hlt] at hvalues hoff
      generalize dispatchStep t desc vu natts limit (loopHasnulls t desc natts) j s = r at hout hvalues hoff
      cases hout with
      | right n hn hle' halign hstep =>
        obtain ⟨hrest, hend⟩ := ih (limit - (j + n)) (by omega) hle' rfl
          (fun k hk hk' => (fill_of_ge _ _ hk).trans (hclear k (by omega) hk')) (fun k hk hk' => hvalues k (by omega) hk') hoff rfl
        refine ⟨fun k hk hk' => ?_, hstep.trans hend⟩
        rcases Nat.lt_or_ge k (j + n) with h | h
        · exact halign k hk h
        · exact hrest k h hk'
      | misaligned s' hwrong halign =>
        have hfirst := hvalues j (Nat.le_refl j) hlt (not_byval_of_misaligned halign)
        exact absurd ((dispatchLoop_frame vu natts _ (Nat.lt_succ_self j) s').1.symm.trans hfirst) hwrong
      | overrun n s' hover hwrong _ =>
        rw [dispatchLoop_of_ge vu natts _ (Nat.le_of_lt hover)] at hoff
        exact absurd hoff hwrong
    · exact ⟨fun k hk hk' => absurd hk (Nat.not_le_of_lt hk'), batchesEnd_of_ge (Nat.le_refl _)⟩

end DeformDispatchAux
end PgJitter
