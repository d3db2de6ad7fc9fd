import PgJitter.Relocate

/-!
# The scan for address sequences

The masks of the scan read back as fields of the instruction words, and from there what the loop does to a word list: every
sequence it takes for a call is rebuilt for the worker's address, everything else is kept.
-/

namespace PgJitter

namespace RelocateAux

/-! ## Fields of a word -/

/-- Every word is an opcode, an immediate and a register. -/
theorem exists_moveWide (w : Insn) : ∃ op imm rd, w = moveWide op imm rd :=
  ⟨w.extractLsb' 21 11, w.extractLsb' 5 16, w.extractLsb' 0 5, by
    unfold moveWide
    rw [BitVec.extractLsb'_append_extractLsb'_eq_extractLsb' (by rfl),
      BitVec.extractLsb'_append_extractLsb'_eq_extractLsb' (by rfl)]
    simp⟩

/-- Every word is a branch opcode, a register and a low field. -/
theorem exists_branchReg (w : Insn) : ∃ op rn low, w = branchReg op rn low :=
  ⟨w.extractLsb' 10 22, w.extractLsb' 5 5, w.extractLsb' 0 5, by
    unfold branchReg
    rw [BitVec.extractLsb'_append_extractLsb'_eq_extractLsb' (by rfl),
      BitVec.extractLsb'_append_extractLsb'_eq_extractLsb' (by rfl)]
    simp⟩

/-- The fields of a wide move are its own. -/
theorem moveWide_inj {op op' : BitVec 11} {imm imm' : BitVec 16} {rd rd' : BitVec 5} :
    moveWide op imm rd = moveWide op' imm' rd' ↔ op = op' ∧ imm = imm' ∧ rd = rd' := by
  constructor
  · intro h
    unfold moveWide at h
    have h1 := congrArg (BitVec.extractLsb' 0 5) h
    have h2 := congrArg (BitVec.extractLsb' 5 27) h
    rw [BitVec.extractLsb'_append_eq_right, BitVec.extractLsb'_append_eq_right] at h1
    rw [BitVec.extractLsb'_append_eq_left, BitVec.extractLsb'_append_eq_left] at h2
    have h3 := congrArg (BitVec.extractLsb' 0 16) h2
    have h4 := congrArg (BitVec.extractLsb' 16 11) h2
    rw [BitVec.extractLsb'_append_eq_right, BitVec.extractLsb'_append_eq_right] at h3
    rw [BitVec.extractLsb'_append_eq_left, BitVec.extractLsb'_append_eq_left] at h4
    exact ⟨h4, h3, h1⟩
  · rintro ⟨rfl, rfl, rfl⟩
    rfl

/-- The fields of a branch word are its own. -/
theorem branchReg_inj {op op' : BitVec 22} {rn rn' low low' : BitVec 5} :
    branchReg op rn low = branchReg op' rn' low' ↔ op = op' ∧ rn = rn' ∧ low = low' := by
  constructor
  · intro h
    unfold branchReg at h
    have h1 := congrArg (BitVec.extractLsb' 0 5) h
    have h2 := congrArg (BitVec.extractLsb' 5 27) h
    rw [BitVec.extractLsb'_append_eq_right, BitVec.extractLsb'_append_eq_right] at h1
    rw [BitVec.extractLsb'_append_eq_left, BitVec.extractLsb'_append_eq_left] at h2
    have h3 := congrArg (BitVec.extractLsb' 0 5) h2
    have h4 := congrArg (BitVec.extractLsb' 5 22) h2
    rw [BitVec.extractLsb'_append_eq_right, BitVec.extractLsb'_append_eq_right] at h3
    rw [BitVec.extractLsb'_append_eq_left, BitVec.extractLsb'_append_eq_left] at h4
    exact ⟨h4, h3, h1⟩
  · rintro ⟨rfl, rfl, rfl⟩
    rfl

theorem moveWide_and (op op' : BitVec 11) (imm imm' : BitVec 16) (rd rd' : BitVec 5) :
    moveWide op imm rd &&& moveWide op' imm' rd' = moveWide (op &&& op') (imm &&& imm') (rd &&& rd') := by
  unfold moveWide
  rw [BitVec.and_append, BitVec.and_append]

theorem moveWide_or (op op' : BitVec 11) (imm imm' : BitVec 16) (rd rd' : BitVec 5) :
    moveWide op imm rd ||| moveWide op' imm' rd' = moveWide (op ||| op') (imm ||| imm') (rd ||| rd') := by
  unfold moveWide
  rw [BitVec.or_append, BitVec.or_append]

theorem branchReg_and (op op' : BitVec 22) (rn rn' low low' : BitVec 5) :
    branchReg op rn low &&& branchReg op' rn' low' = branchReg (op &&& op') (rn &&& rn') (low &&& low') := by
  unfold branchReg
  rw [BitVec.and_append, BitVec.and_append]

theorem branchReg_or (op op' : BitVec 22) (rn rn' low low' : BitVec 5) :
    branchReg op rn low ||| branchReg op' rn' low' = branchReg (op ||| op') (rn ||| rn') (low ||| low') := by
  unfold branchReg
  rw [BitVec.or_append, BitVec.or_append]

/-- `w0 & 0x1F` is the register field. -/
theorem movzRd_moveWide (op : BitVec 11) (imm : BitVec 16) (rd : BitVec 5) :
    movzRd (moveWide op imm rd) = moveWide 0#11 0#16 rd := by
  have h : (0x1F#32 : Insn) = moveWide 0#11 0#16 0x1F#5 := by decide
  have ho : rd &&& 0x1F#5 = rd := by revert rd; decide
  rw [movzRd, h, moveWide_and, ho, BitVec.and_zero, BitVec.and_zero]

/-- The test for MOVZ. -/
theorem movz_test (w : Insn) : w &&& 0xFFE00000#32 = 0xD2800000#32 ↔ ∃ imm rd, w = movz imm rd := by
  obtain ⟨op, imm, rd, rfl⟩ := exists_moveWide w
  have hm : (0xFFE00000#32 : Insn) = moveWide 0x7FF#11 0#16 0#5 := by decide
  have hv : (0xD2800000#32 : Insn) = moveWide (0b110100101#9 ++ 0#2) 0#16 0#5 := by decide
  have ho : op &&& 0x7FF#11 = op := by revert op; decide
  rw [hm, hv, moveWide_and, moveWide_inj, ho, BitVec.and_zero, BitVec.and_zero]
  constructor
  · rintro ⟨rfl, -, -⟩
    exact ⟨imm, rd, rfl⟩
  · rintro ⟨imm', rd', h⟩
    exact ⟨(moveWide_inj.1 h).1, rfl, rfl⟩

/-- `0xFFE0001F` clears the immediate. -/
theorem moveWide_and_mask (op : BitVec 11) (imm : BitVec 16) (rd : BitVec 5) :
    moveWide op imm rd &&& 0xFFE0001F#32 = moveWide op 0#16 rd := by
  have hm : (0xFFE0001F#32 : Insn) = moveWide 0x7FF#11 0#16 0x1F#5 := by decide
  have ho : op &&& 0x7FF#11 = op := BitVec.and_allOnes
  have hr : rd &&& 0x1F#5 = rd := BitVec.and_allOnes
  rw [hm, moveWide_and, ho, hr, BitVec.and_zero]

/-- The test for a MOVK into the register of the MOVZ, for each of the three opcodes. -/
theorem movk_test (w : Insn) (hw : BitVec 2) (rd : BitVec 5) (code : Insn)
    (hcode : code = moveWide (0b111100101#9 ++ hw) 0#16 0#5) :
    w &&& 0xFFE0001F#32 = (code ||| moveWide 0#11 0#16 rd) ↔ ∃ imm, w = movk hw imm rd := by
  obtain ⟨op, imm, rd', rfl⟩ := exists_moveWide w
  rw [moveWide_and_mask, hcode, moveWide_or, moveWide_inj, BitVec.or_zero, BitVec.or_zero, BitVec.zero_or]
  constructor
  · rintro ⟨rfl, -, rfl⟩
    exact ⟨imm, rfl⟩
  · rintro ⟨imm', h⟩
    have h' := moveWide_inj.1 h
    exact ⟨h'.1, rfl, h'.2.2⟩

/-- The code's test for BLR or BR looks for the register in the low field and lets any register through in the other. -/
theorem isCallWord_iff (rd : BitVec 5) (w : Insn) :
    isCallWord (moveWide 0#11 0#16 rd) w = true ↔ ∃ rn, w = branchReg blrOp rn rd ∨ w = branchReg brOp rn rd := by
  obtain ⟨op, rn, low, rfl⟩ := exists_branchReg w
  have hm : (0xFFFFFC1F#32 : Insn) = branchReg 0x3FFFFF#22 0#5 0x1F#5 := by decide
  have h1 : (0xD63F0000#32 : Insn) = branchReg blrOp 0#5 0#5 := by decide
  have h2 : (0xD61F0000#32 : Insn) = branchReg brOp 0#5 0#5 := by decide
  have hr : moveWide 0#11 0#16 rd = branchReg 0#22 0#5 rd := by revert rd; decide
  have ho : op &&& 0x3FFFFF#22 = op := BitVec.and_allOnes
  have hl : low &&& 0x1F#5 = low := BitVec.and_allOnes
  unfold isCallWord
  rw [hm, h1, h2, hr, branchReg_and, branchReg_or, branchReg_or, ho, hl, BitVec.and_zero, BitVec.or_zero, BitVec.or_zero,
    BitVec.or_zero, BitVec.zero_or, Bool.or_eq_true, beq_iff_eq, beq_iff_eq, branchReg_inj, branchReg_inj]
  constructor
  · rintro (⟨rfl, -, rfl⟩ | ⟨rfl, -, rfl⟩)
    · exact ⟨rn, Or.inl rfl⟩
    · exact ⟨rn, Or.inr rfl⟩
  · rintro ⟨rn', h | h⟩
    · exact Or.inl ⟨(branchReg_inj.1 h).1, rfl, (branchReg_inj.1 h).2.2⟩
    · exact Or.inr ⟨(branchReg_inj.1 h).1, rfl, (branchReg_inj.1 h).2.2⟩

/-! ## The constant a sequence builds -/

/-- The bits of a wide move, field by field. -/
theorem getLsbD_moveWide (op : BitVec 11) (imm : BitVec 16) (rd : BitVec 5) (i : Nat) :
    (moveWide op imm rd).getLsbD i =
      if i < 5 then rd.getLsbD i else if i < 21 then imm.getLsbD (i - 5) else op.getLsbD (i - 21) := by
  unfold moveWide
  rw [BitVec.getLsbD_append, BitVec.getLsbD_append]
  by_cases h5 : i < 5
  · simp [h5]
  · by_cases h21 : i < 21
    · simp [h5, h21, show i - 5 < 16 by omega]
    · simp [h5, h21, show ¬ i - 5 < 16 by omega, show i - 5 - 16 = i - 21 by omega]

theorem imm16_moveWide (op : BitVec 11) (imm : BitVec 16) (rd : BitVec 5) :
    imm16 (moveWide op imm rd) = imm.setWidth 64 := by
  have hm : (0xFFFF#32) = (BitVec.allOnes 16).setWidth 32 := by decide
  apply BitVec.eq_of_getLsbD_eq
  intro i hi
  unfold imm16
  rw [hm, BitVec.getLsbD_setWidth, BitVec.getLsbD_and, BitVec.getLsbD_ushiftRight, getLsbD_moveWide,
    BitVec.getLsbD_setWidth, BitVec.getLsbD_setWidth, BitVec.getLsbD_allOnes]
  by_cases h : i < 16
  · simp [h, hi, show ¬ 5 + i < 5 by omega, show 5 + i < 21 by omega, show i < 32 by omega]
  · simp [h, BitVec.getLsbD_of_ge imm i (by omega)]

/-- Patching replaces the immediate and nothing else. -/
theorem patchImm16_moveWide (op : BitVec 11) (imm : BitVec 16) (rd : BitVec 5) (newAddr : BitVec 64) (shift : Nat) :
    patchImm16 (moveWide op imm rd) newAddr shift = moveWide op (newAddr.extractLsb' shift 16) rd := by
  have hm : (0xFFFF#64) = (BitVec.allOnes 16).setWidth 64 := by decide
  apply BitVec.eq_of_getLsbD_eq
  intro i hi
  unfold patchImm16
  rw [moveWide_and_mask, hm]
  simp only [BitVec.getLsbD_setWidth, BitVec.getLsbD_or, BitVec.getLsbD_and, BitVec.getLsbD_shiftLeft,
    BitVec.getLsbD_ushiftRight, getLsbD_moveWide, BitVec.getLsbD_allOnes, BitVec.getLsbD_extractLsb']
  by_cases h5 : i < 5
  · simp [hi, h5, show i < 64 by omega]
  · by_cases h21 : i < 21
    · simp [hi, h5, h21, show i < 64 by omega, show i - 5 < 16 by omega, show i - 5 < 64 by omega]
    · simp [hi, h5, h21, show i < 64 by omega, show ¬ i - 5 < 16 by omega]

/-- The four halfwords of a constant, shifted into place. -/
theorem or_halfwords (c : BitVec 64) :
    (halfword c 0).setWidth 64 ||| (halfword c 1).setWidth 64 <<< 16 ||| (halfword c 2).setWidth 64 <<< 32 |||
      (halfword c 3).setWidth 64 <<< 48 = c := by
  apply BitVec.eq_of_getLsbD_eq
  intro i hi
  simp only [halfword, BitVec.getLsbD_setWidth, BitVec.getLsbD_or, BitVec.getLsbD_shiftLeft, BitVec.getLsbD_extractLsb']
  by_cases h16 : i < 16
  · simp [h16, hi, show i < 32 by omega, show i < 48 by omega]
  by_cases h32 : i < 32
  · simp [h16, h32, hi, show i < 48 by omega, show i - 16 < 16 by omega, show i - 16 < 64 by omega,
      show 16 + (i - 16) = i by omega]
  by_cases h48 : i < 48
  · simp [h16, h32, h48, hi, show ¬ i - 16 < 16 by omega, show i - 32 < 16 by omega, show i - 32 < 64 by omega,
      show 32 + (i - 32) = i by omega]
  · simp [h16, h32, h48, hi, show ¬ i - 16 < 16 by omega, show ¬ i - 32 < 16 by omega, show i - 48 < 16 by omega,
      show i - 48 < 64 by omega, show 48 + (i - 48) = i by omega]

/-- Any four halfwords are those of a constant. -/
theorem exists_halfwords (a b c d : BitVec 16) :
    ∃ v : BitVec 64, halfword v 0 = a ∧ halfword v 1 = b ∧ halfword v 2 = c ∧ halfword v 3 = d := by
  refine ⟨d ++ c ++ b ++ a, ?_, ?_, ?_, ?_⟩
  · exact BitVec.extractLsb'_append_eq_right
  · unfold halfword
    rw [BitVec.extractLsb'_append_eq_of_le (by decide)]
    exact BitVec.extractLsb'_append_eq_right
  · unfold halfword
    rw [BitVec.extractLsb'_append_eq_of_le (by decide), BitVec.extractLsb'_append_eq_of_le (by decide)]
    exact BitVec.extractLsb'_append_eq_right
  · unfold halfword
    rw [BitVec.extractLsb'_append_eq_of_le (by decide), BitVec.extractLsb'_append_eq_of_le (by decide)]
    exact BitVec.extractLsb'_append_eq_left

/-! ## The sequence test -/

/-- The four tests accept exactly the sequences that build a constant. -/
theorem isConstSequence_iff (w0 w1 w2 w3 : Insn) :
    isConstSequence w0 w1 w2 w3 = true ↔ ∃ d c, [w0, w1, w2, w3] = buildConst d c := by
  unfold isConstSequence
  simp only [Bool.and_eq_true, beq_iff_eq]
  constructor
  · rintro ⟨⟨⟨h0, h1⟩, h2⟩, h3⟩
    obtain ⟨i0, d, rfl⟩ := (movz_test w0).1 h0
    rw [movz, movzRd_moveWide] at h1 h2 h3
    obtain ⟨i1, rfl⟩ := (movk_test w1 1 d _ (by decide)).1 h1
    obtain ⟨i2, rfl⟩ := (movk_test w2 2 d _ (by decide)).1 h2
    obtain ⟨i3, rfl⟩ := (movk_test w3 3 d _ (by decide)).1 h3
    obtain ⟨c, rfl, rfl, rfl, rfl⟩ := exists_halfwords i0 i1 i2 i3
    exact ⟨d, c, rfl⟩
  · rintro ⟨d, c, h⟩
    simp only [buildConst, List.cons.injEq, and_true] at h
    obtain ⟨rfl, rfl, rfl, rfl⟩ := h
    have hrd : movzRd (movz (halfword c 0) d) = moveWide 0#11 0#16 d := movzRd_moveWide _ _ _
    rw [hrd]
    exact ⟨⟨⟨(movz_test _).2 ⟨_, _, rfl⟩, (movk_test _ 1 d _ (by decide)).2 ⟨_, rfl⟩⟩,
      (movk_test _ 2 d _ (by decide)).2 ⟨_, rfl⟩⟩, (movk_test _ 3 d _ (by decide)).2 ⟨_, rfl⟩⟩

/-- Different constants or registers give different sequences. -/
theorem buildConst_inj {d d' : BitVec 5} {c c' : BitVec 64} (h : buildConst d c = buildConst d' c') : d = d' ∧ c = c' := by
  simp only [buildConst, List.cons.injEq, movz, movk, moveWide_inj, and_true, true_and] at h
  obtain ⟨⟨h0, hd⟩, ⟨h1, -⟩, ⟨h2, -⟩, ⟨h3, -⟩⟩ := h
  refine ⟨hd, ?_⟩
  rw [← or_halfwords c, ← or_halfwords c', h0, h1, h2, h3]

/-- The address put together from a sequence is its constant. -/
theorem sequenceAddr_eq {w0 w1 w2 w3 : Insn} {d : BitVec 5} {c : BitVec 64} (h : [w0, w1, w2, w3] = buildConst d c) :
    sequenceAddr w0 w1 w2 w3 = c := by
  simp only [buildConst, List.cons.injEq, and_true] at h
  obtain ⟨rfl, rfl, rfl, rfl⟩ := h
  unfold sequenceAddr movz movk
  rw [imm16_moveWide, imm16_moveWide, imm16_moveWide, imm16_moveWide]
  exact or_halfwords c

/-- The register read off the first word. -/
theorem movzRd_eq {w0 w1 w2 w3 : Insn} {d : BitVec 5} {c : BitVec 64} (h : [w0, w1, w2, w3] = buildConst d c) :
    movzRd w0 = moveWide 0#11 0#16 d := by
  simp only [buildConst, List.cons.injEq, and_true] at h
  rw [h.1]
  exact movzRd_moveWide _ _ _

/-- Patching the four words gives the sequence of the new address. -/
theorem patch_eq {w0 w1 w2 w3 : Insn} {d : BitVec 5} {c : BitVec 64} (h : [w0, w1, w2, w3] = buildConst d c)
    (newAddr : BitVec 64) :
    [patchImm16 w0 newAddr 0, patchImm16 w1 newAddr 16, patchImm16 w2 newAddr 32, patchImm16 w3 newAddr 48] =
      buildConst d newAddr := by
  simp only [buildConst, List.cons.injEq, and_true] at h
  obtain ⟨rfl, rfl, rfl, rfl⟩ := h
  simp only [movz, movk, patchImm16_moveWide, buildConst, halfword]

/-! ## The lookup -/

theorem relocMatchWorkerAddr_eq_some {p leaderAddr delta a : BitVec 64} :
    relocMatchWorkerAddr p leaderAddr delta = some a ↔ p ≠ 0#64 ∧ a = p ∧ p = leaderAddr + delta := by
  have hsub : p - delta = leaderAddr ↔ p = leaderAddr + delta := by
    constructor
    · rintro rfl
      exact (BitVec.sub_add_cancel p delta).symm
    · rintro rfl
      exact BitVec.add_sub_cancel leaderAddr delta
  unfold relocMatchWorkerAddr
  by_cases h0 : p = 0#64
  · simp [h0]
  · by_cases h1 : p - delta = leaderAddr
    · rw [if_neg h0, if_neg (not_not.2 h1), Option.some.injEq]
      exact ⟨fun h => ⟨h0, h.symm, hsub.1 h1⟩, fun h => h.2.1.symm⟩
    · rw [if_neg h0, if_pos h1]
      exact ⟨(nomatch ·), fun h => absurd (hsub.2 h.2.2) h1⟩

/-- A search of one of the two tables. -/
theorem findSome?_match_eq (ps : List (BitVec 64)) (leaderAddr delta : BitVec 64) :
    ps.findSome? (fun p => relocMatchWorkerAddr p leaderAddr delta) =
      if leaderAddr + delta ≠ 0#64 ∧ leaderAddr + delta ∈ ps then some (leaderAddr + delta) else none := by
  induction ps with
  | nil => simp
  | cons p ps ih =>
    rw [List.findSome?_cons]
    cases hm : relocMatchWorkerAddr p leaderAddr delta with
    | some a =>
      obtain ⟨h0, ha, hp⟩ := relocMatchWorkerAddr_eq_some.1 hm
      rw [if_pos ⟨by rwa [← hp], by simp [← hp]⟩, ha, hp]
    | none =>
      rw [ih]
      have hne : leaderAddr + delta ≠ 0#64 → leaderAddr + delta ≠ p := by
        rintro h0 rfl
        rw [relocMatchWorkerAddr_eq_some.2 ⟨h0, rfl, rfl⟩] at hm
        cases hm
      by_cases h0 : leaderAddr + delta = 0#64
      · simp [h0]
      · simp [h0, hne h0]

/-- The lookup finds exactly the leader's addresses of the worker's helpers. -/
theorem relocLookupKnownHelper_eq (table : HelperTable) (leaderAddr delta : BitVec 64) [Decidable (IsHelper table (leaderAddr + delta))] :
    relocLookupKnownHelper table leaderAddr delta =
      if IsHelper table (leaderAddr + delta) then some (leaderAddr + delta) else none := by
  unfold relocLookupKnownHelper IsHelper
  rw [findSome?_match_eq, findSome?_match_eq]
  by_cases h0 : leaderAddr + delta = 0#64
  · simp [h0]
  · by_cases h1 : leaderAddr + delta ∈ table.fixedHelpers
    · simp [h0, h1]
    · simp [h0, h1]

/-! ## Positions in a word list -/

/-- A sequence that the scan takes for a call: its test holds of the next word. -/
def TakenAt (insns : List Insn) (i : Nat) (d : BitVec 5) (c : BitVec 64) : Prop :=
  SeqAt insns i d c ∧ ∃ w, insns[i + 4]? = some w ∧ isCallWord (moveWide 0#11 0#16 d) w = true

theorem seqAt_cons {w : Insn} {t : List Insn} {i : Nat} {d : BitVec 5} {c : BitVec 64} :
    SeqAt (w :: t) (i + 1) d c ↔ SeqAt t i d c := by
  unfold SeqAt
  rw [List.drop_succ_cons]

theorem takenAt_cons {w : Insn} {t : List Insn} {i : Nat} {d : BitVec 5} {c : BitVec 64} :
    TakenAt (w :: t) (i + 1) d c ↔ TakenAt t i d c := by
  unfold TakenAt
  rw [seqAt_cons, show i + 1 + 4 = (i + 4) + 1 by omega, List.getElem?_cons_succ]

/-- A sequence at the front is made of the first four words. -/
theorem seqAt_zero {w0 w1 w2 w3 : Insn} {rest : List Insn} {d : BitVec 5} {c : BitVec 64} :
    SeqAt (w0 :: w1 :: w2 :: w3 :: rest) 0 d c ↔ [w0, w1, w2, w3] = buildConst d c := by
  unfold SeqAt
  constructor
  · rintro ⟨rest', h⟩
    simp only [List.drop_zero, buildConst, List.cons_append, List.nil_append, List.cons.injEq] at h
    simp only [buildConst, List.cons.injEq, and_true]
    exact ⟨h.1, h.2.1, h.2.2.1, h.2.2.2.1⟩
  · intro h
    exact ⟨rest, by rw [← h]; rfl⟩

/-- Four words are needed for a sequence. -/
theorem not_seqAt_of_length {insns : List Insn} {i : Nat} {d : BitVec 5} {c : BitVec 64} (h : insns.length < i + 4) :
    ¬ SeqAt insns i d c := by
  rintro ⟨rest, hr⟩
  have hl := congrArg List.length hr
  simp only [List.length_drop, List.length_append, buildConst, List.length_cons, List.length_nil] at hl
  omega

/-- The first word of a sequence is a MOVZ. -/
theorem seqAt_movz {insns : List Insn} {i : Nat} {d : BitVec 5} {c : BitVec 64} (h : SeqAt insns i d c) :
    insns[i]? = some (movz (halfword c 0) d) := by
  obtain ⟨rest, hr⟩ := h
  have := congrArg (fun l => l[0]?) hr
  simpa [buildConst] using this

/-- The words of a sequence, one by one. -/
theorem seqAt_iff {insns : List Insn} {i : Nat} {d : BitVec 5} {c : BitVec 64} :
    SeqAt insns i d c ↔ ∀ k < 4, insns[i + k]? = (buildConst d c)[k]? := by
  constructor
  · rintro ⟨rest, hr⟩ k hk
    have h := congrArg (fun l => l[k]?) hr
    have hlen : k < (buildConst d c).length := hk
    rw [List.getElem?_drop, List.getElem?_append_left hlen] at h
    exact h
  · intro h
    refine ⟨insns.drop (i + 4), ?_⟩
    apply List.ext_getElem?
    intro k
    by_cases hk : k < 4
    · have hlen : k < (buildConst d c).length := hk
      rw [List.getElem?_drop, List.getElem?_append_left hlen]
      exact h k hk
    · have hlen : (buildConst d c).length ≤ k := Nat.le_of_not_lt hk
      rw [List.getElem?_drop, List.getElem?_append_right hlen, List.getElem?_drop]
      congr 1
      show i + k = i + 4 + (k - 4)
      omega

/-- Sequences do not overlap: a word of one that starts another is its own first word. -/
theorem seqAt_disjoint {insns : List Insn} {i j : Nat} {d d' : BitVec 5} {c c' : BitVec 64} (h : SeqAt insns i d c)
    (h' : SeqAt insns j d' c') (hij : i ≤ j) (hj : j < i + 4) : i = j := by
  obtain ⟨k, rfl⟩ := Nat.exists_eq_add_of_le hij
  have hk : k < 4 := by omega
  have h1 := seqAt_iff.1 h k hk
  rw [seqAt_movz h'] at h1
  rcases k with _ | k
  · rfl
  · exfalso
    have hop : ∀ hw : BitVec 2, (0b110100101#9 ++ 0#2 : BitVec 11) ≠ 0b111100101#9 ++ hw := by decide
    rcases (by omega : k = 0 ∨ k = 1 ∨ k = 2) with rfl | rfl | rfl <;>
      simp only [buildConst, List.getElem?_cons_succ, List.getElem?_cons_zero, Option.some.injEq, movz, movk,
        moveWide_inj] at h1 <;>
      exact hop _ h1.1

/-- The same index has one sequence. -/
theorem seqAt_unique {insns : List Insn} {i : Nat} {d d' : BitVec 5} {c c' : BitVec 64} (h : SeqAt insns i d c)
    (h' : SeqAt insns i d' c') : d = d' ∧ c = c' := by
  apply buildConst_inj
  apply List.ext_getElem?
  intro k
  by_cases hk : k < 4
  · rw [← seqAt_iff.1 h k hk, ← seqAt_iff.1 h' k hk]
  · rw [List.getElem?_eq_none (Nat.le_of_not_lt hk), List.getElem?_eq_none (Nat.le_of_not_lt hk)]

/-- Two constants in one register differ in the immediate fields only. -/
theorem buildConst_bit {d : BitVec 5} {c c' : BitVec 64} {k b : Nat} {w w' : Insn} (h : (buildConst d c)[k]? = some w)
    (h' : (buildConst d c')[k]? = some w') (hb : w'.getLsbD b ≠ w.getLsbD b) : 5 ≤ b ∧ b < 21 := by
  have hop : ∃ op imm imm', w = moveWide op imm d ∧ w' = moveWide op imm' d := by
    rcases k with _ | _ | _ | _ | k
    · exact ⟨_, _, _, (Option.some.inj h).symm, (Option.some.inj h').symm⟩
    · exact ⟨_, _, _, (Option.some.inj h).symm, (Option.some.inj h').symm⟩
    · exact ⟨_, _, _, (Option.some.inj h).symm, (Option.some.inj h').symm⟩
    · exact ⟨_, _, _, (Option.some.inj h).symm, (Option.some.inj h').symm⟩
    · exact nomatch h
  obtain ⟨op, imm, imm', rfl, rfl⟩ := hop
  rw [getLsbD_moveWide, getLsbD_moveWide] at hb
  by_contra hno
  by_cases h5 : b < 5
  · exact hb (by rw [if_pos h5, if_pos h5])
  · have h21 : ¬ b < 21 := by omega
    exact hb (by rw [if_neg h5, if_neg h21, if_neg h5, if_neg h21])

/-! ## The loop -/

/-- A zero word is no call: past the end of the array nothing is taken. -/
theorem isCallWord_zero (rd : BitVec 5) : isCallWord (moveWide 0#11 0#16 rd) 0 = false := by
  rw [Bool.eq_false_iff]
  intro h
  have hz : (0 : Insn) = branchReg 0#22 0#5 0#5 := by decide
  obtain ⟨rn, h | h⟩ := (isCallWord_iff rd 0).1 h
  · rw [hz] at h
    exact absurd (branchReg_inj.1 h).1 (by decide)
  · rw [hz] at h
    exact absurd (branchReg_inj.1 h).1 (by decide)

/-- What the scan has done to a word list. -/
structure Scanned (table : HelperTable) (delta : BitVec 64) (insns : List Insn) (r : RelocScan) : Prop where
  length : r.insns.length = insns.length
  unknown : r.unknownCallTarget = true ↔ ∃ i d c, TakenAt insns i d c ∧ ¬ IsHelper table (c + delta)
  patched : ∀ i d c, TakenAt insns i d c → IsHelper table (c + delta) → SeqAt r.insns i d (c + delta)
  kept : ∀ k, (∀ i d c, TakenAt insns i d c → IsHelper table (c + delta) → k < i ∨ i + 4 ≤ k) →
    r.insns[k]? = insns[k]?

/-- The index moves by one: what stands there was not taken, or was refused. -/
theorem Scanned.keep {table : HelperTable} {delta : BitVec 64} {w : Insn} {t : List Insn} {r : RelocScan} {u : Bool}
    (h : Scanned table delta t r) (hno : ∀ d c, TakenAt (w :: t) 0 d c → ¬ IsHelper table (c + delta))
    (hu : u = true ↔ r.unknownCallTarget = true ∨ ∃ d c, TakenAt (w :: t) 0 d c) :
    Scanned table delta (w :: t) { r.keep w with unknownCallTarget := u } where
  length := congrArg Nat.succ h.length
  unknown := by
    dsimp only
    rw [hu, h.unknown]
    constructor
    · rintro (⟨i, d, c, ht, hn⟩ | ⟨d, c, ht⟩)
      · exact ⟨i + 1, d, c, takenAt_cons.2 ht, hn⟩
      · exact ⟨0, d, c, ht, hno d c ht⟩
    · rintro ⟨i, d, c, ht, hn⟩
      rcases i with _ | i
      · exact Or.inr ⟨d, c, ht⟩
      · exact Or.inl ⟨i, d, c, takenAt_cons.1 ht, hn⟩
  patched := by
    intro i d c ht hk
    rcases i with _ | i
    · exact absurd hk (hno d c ht)
    · exact seqAt_cons.2 (h.patched i d c (takenAt_cons.1 ht) hk)
  kept := by
    intro k hk
    rcases k with _ | k
    · rfl
    · refine h.kept k ?_
      intro i d c ht hh
      have := hk (i + 1) d c (takenAt_cons.2 ht) hh
      omega

/-- In a list that starts with a sequence the others stand behind it. -/
theorem takenAt_append {rest : List Insn} {i : Nat} {d d' : BitVec 5} {c c' : BitVec 64}
    (h : TakenAt (buildConst d c ++ rest) i d' c') :
    (i = 0 ∧ d' = d ∧ c' = c) ∨ ∃ j, i = j + 4 ∧ TakenAt rest j d' c' := by
  have h0 : SeqAt (buildConst d c ++ rest) 0 d c := ⟨rest, rfl⟩
  by_cases hi : i < 4
  · have h1 := seqAt_disjoint h0 h.1 (Nat.zero_le i) (by omega)
    subst h1
    obtain ⟨hd, hc⟩ := seqAt_unique h.1 h0
    exact Or.inl ⟨rfl, hd, hc⟩
  · obtain ⟨j, rfl⟩ := Nat.exists_eq_add_of_le' (Nat.le_of_not_lt hi)
    exact Or.inr ⟨j, rfl, takenAt_cons.1 (takenAt_cons.1 (takenAt_cons.1 (takenAt_cons.1 h)))⟩

/-- A sequence that is patched is left behind whole. -/
theorem Scanned.patch {table : HelperTable} {delta : BitVec 64} {rest : List Insn} {r : RelocScan} {d : BitVec 5}
    {c : BitVec 64} (h : Scanned table delta rest r) (ht : TakenAt (buildConst d c ++ rest) 0 d c)
    (hk : IsHelper table (c + delta)) (n : Nat) :
    Scanned table delta (buildConst d c ++ rest) { r with insns := buildConst d (c + delta) ++ r.insns, patched := n } where
  length := by
    dsimp only
    rw [List.length_append, List.length_append, h.length]
    rfl
  unknown := by
    dsimp only
    rw [h.unknown]
    constructor
    · rintro ⟨i, d', c', ht', hn⟩
      exact ⟨i + 4, d', c', takenAt_cons.2 (takenAt_cons.2 (takenAt_cons.2 (takenAt_cons.2 ht'))), hn⟩
    · rintro ⟨i, d', c', ht', hn⟩
      rcases takenAt_append ht' with ⟨-, -, rfl⟩ | ⟨j, rfl, hj⟩
      · exact absurd hk hn
      · exact ⟨j, d', c', hj, hn⟩
  patched := by
    intro i d' c' ht' hk'
    rcases takenAt_append ht' with ⟨rfl, rfl, rfl⟩ | ⟨j, rfl, hj⟩
    · exact ⟨r.insns, rfl⟩
    · exact seqAt_cons.2 (seqAt_cons.2 (seqAt_cons.2 (seqAt_cons.2 (h.patched j d' c' hj hk'))))
  kept := by
    intro k hkept
    have h4 : 4 ≤ k := by
      have := hkept 0 d c ht hk
      omega
    obtain ⟨j, rfl⟩ := Nat.exists_eq_add_of_le' h4
    refine h.kept j ?_
    intro i d' c' ht' hk'
    have := hkept (i + 4) d' c' (takenAt_cons.2 (takenAt_cons.2 (takenAt_cons.2 (takenAt_cons.2 ht')))) hk'
    omega

/-- The code's test on the next word, for a sequence at the front. -/
theorem takenAt_zero {w0 w1 w2 w3 : Insn} (rest : List Insn) {d : BitVec 5} {c : BitVec 64}
    (h : [w0, w1, w2, w3] = buildConst d c) :
    TakenAt (w0 :: w1 :: w2 :: w3 :: rest) 0 d c ↔ isCallWord (movzRd w0) (rest.headD 0) = true := by
  rw [movzRd_eq h]
  unfold TakenAt
  rw [and_iff_right (seqAt_zero.2 h)]
  cases rest with
  | nil =>
    rw [List.headD_nil, isCallWord_zero]
    simp
  | cons w rest => simp

/-- The whole scan. -/
theorem scanned_relocLoop (table : HelperTable) (delta : BitVec 64) (insns : List Insn) :
    Scanned table delta insns (relocLoop table delta insns) := by
  classical
  fun_induction relocLoop table delta insns with
  | case1 w0 w1 w2 w3 rest hseq hcall hnone r kept ih =>
    obtain ⟨d, c, he⟩ := (isConstSequence_iff w0 w1 w2 w3).1 hseq
    rw [relocLookupKnownHelper_eq, sequenceAddr_eq he, ite_eq_right_iff] at hnone
    refine ih.keep ?_ ?_
    · intro d' c' ht hk
      obtain ⟨rfl, rfl⟩ := buildConst_inj ((seqAt_zero.1 ht.1).symm.trans he)
      exact nomatch hnone hk
    · exact ⟨fun _ => Or.inr ⟨d, c, (takenAt_zero _ he).2 hcall⟩, fun _ => rfl⟩
  | case2 w0 w1 w2 w3 rest hseq hcall newAddr hsome r ih =>
    obtain ⟨d, c, he⟩ := (isConstSequence_iff w0 w1 w2 w3).1 hseq
    rw [relocLookupKnownHelper_eq, sequenceAddr_eq he, Option.ite_none_right_eq_some, Option.some.injEq] at hsome
    obtain ⟨hk, rfl⟩ := hsome
    have hlist : w0 :: w1 :: w2 :: w3 :: rest = buildConst d c ++ rest := by
      rw [← he]
      rfl
    have ht := (takenAt_zero rest he).2 hcall
    have hp := patch_eq he (c + delta)
    rw [hlist] at ht ⊢
    have h := ih.patch ht hk (r.patched + 1)
    rw [← hp] at h
    exact h
  | case3 w0 w1 w2 w3 rest hseq hcall ih =>
    obtain ⟨d, c, he⟩ := (isConstSequence_iff w0 w1 w2 w3).1 hseq
    have hno : ∀ d' c', ¬ TakenAt (w0 :: w1 :: w2 :: w3 :: rest) 0 d' c' := by
      intro d' c' ht
      obtain ⟨rfl, rfl⟩ := buildConst_inj ((seqAt_zero.1 ht.1).symm.trans he)
      exact hcall ((takenAt_zero _ he).1 ht)
    exact ih.keep (fun d' c' ht => absurd ht (hno d' c'))
      ⟨fun h => Or.inl h, fun h => h.elim id fun ⟨d', c', ht⟩ => absurd ht (hno d' c')⟩
  | case4 w0 w1 w2 w3 rest hseq ih =>
    have hno : ∀ d' c', ¬ TakenAt (w0 :: w1 :: w2 :: w3 :: rest) 0 d' c' := by
      intro d' c' ht
      exact hseq ((isConstSequence_iff w0 w1 w2 w3).2 ⟨d', c', seqAt_zero.1 ht.1⟩)
    exact ih.keep (fun d' c' ht => absurd ht (hno d' c'))
      ⟨fun h => Or.inl h, fun h => h.elim id fun ⟨d', c', ht⟩ => absurd ht (hno d' c')⟩
  | case5 insns hshort =>
    have hlen : insns.length < 4 := by
      rcases insns with _ | ⟨w0, _ | ⟨w1, _ | ⟨w2, _ | ⟨w3, rest⟩⟩⟩⟩
      · decide
      · simp
      · simp
      · simp
      · exact absurd rfl (hshort w0 w1 w2 w3 rest)
    have hno : ∀ i d c, ¬ TakenAt insns i d c := by
      intro i d c ht
      exact not_seqAt_of_length (by omega) ht.1
    exact ⟨rfl, ⟨(nomatch ·), fun ⟨i, d, c, ht, _⟩ => absurd ht (hno i d c)⟩,
      fun i d c ht => absurd ht (hno i d c), fun k _ => rfl⟩

/-- A sequence that is not patched is kept. -/
theorem Scanned.seqAt {table : HelperTable} {delta : BitVec 64} {insns : List Insn} {r : RelocScan}
    (h : Scanned table delta insns r) {i : Nat} {d : BitVec 5} {c : BitVec 64} (hs : SeqAt insns i d c)
    (hno : TakenAt insns i d c → ¬ IsHelper table (c + delta)) : SeqAt r.insns i d c := by
  rw [seqAt_iff]
  intro k hk
  rw [← seqAt_iff.1 hs k hk]
  apply h.kept
  intro j d' c' ht hh
  by_contra hnot
  have hij : i = j := by
    rcases Nat.le_total i j with hle | hle
    · exact seqAt_disjoint hs ht.1 hle (by omega)
    · exact (seqAt_disjoint ht.1 hs hle (by omega)).symm
  subst hij
  obtain ⟨rfl, rfl⟩ := seqAt_unique hs ht.1
  exact hno ht hh

end RelocateAux
end PgJitter
