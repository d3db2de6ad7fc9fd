import PgJitter.Win64Unwind

/-!
# Parsing a prologue

What `win64_parse_prologue` makes of the bytes of a prologue, instruction by instruction.
-/

namespace PgJitter
namespace Win64Aux

open ByteMemory FrameUnwind

/-! ## The pushes -/

theorem pushInsn_low : ∀ r : BitVec 4, r < 8#4 → 0x50#8 ≤ 0b01010#5 ++ r.extractLsb' 0 3 ∧ 0b01010#5 ++ r.extractLsb' 0 3 ≤ 0x57#8 ∧
    (0b01010#5 ++ r.extractLsb' 0 3 - 0x50#8).setWidth 4 = r := by decide

theorem pushInsn_high : ∀ r : BitVec 4, ¬ r < 8#4 → 0x50#8 ≤ 0b01010#5 ++ r.extractLsb' 0 3 ∧ 0b01010#5 ++ r.extractLsb' 0 3 ≤ 0x57#8 ∧
    8#4 + (0b01010#5 ++ r.extractLsb' 0 3 - 0x50#8).setWidth 4 = r := by decide

/-- The length of a push. -/
def pushLen (r : BitVec 4) : Nat := if r < 8#4 then 1 else 2

theorem length_push (r : BitVec 4) : (PrologInsn.push r).encode.length = pushLen r := by
  rw [PrologInsn.encode, apply_ite List.length]
  rfl

/-- A push is found. -/
theorem pushInsn_push (r : BitVec 4) (more : List (BitVec 8)) : pushInsn ((PrologInsn.push r).encode ++ more) = some (r, pushLen r) := by
  by_cases hr : r < 8#4
  · obtain ⟨h₁, h₂, h₃⟩ := pushInsn_low r hr
    rw [PrologInsn.encode, if_pos hr, List.singleton_append, pushInsn.eq_def, pushLen, if_pos hr]
    dsimp only
    rw [if_pos ⟨h₁, h₂⟩, h₃]
  · obtain ⟨h₁, h₂, h₃⟩ := pushInsn_high r hr
    rw [PrologInsn.encode, if_neg hr, List.cons_append, List.singleton_append, pushInsn.eq_def, pushLen, if_neg hr]
    dsimp only
    rw [if_neg (by decide), if_pos ⟨rfl, h₁, h₂⟩, h₃]

/-- The pushes of some registers, as the parser keeps them. -/
def pushRecs (pos : Nat) : List (BitVec 4) → List PushRec
  | [] => []
  | r :: rs => ⟨r, pos⟩ :: pushRecs (pos + pushLen r) rs

/-- The length of some pushes. -/
def pushesLen : List (BitVec 4) → Nat
  | [] => 0
  | r :: rs => pushLen r + pushesLen rs

theorem length_encode_pushes (rs : List (BitVec 4)) : (encodeProlog (rs.map .push)).length = pushesLen rs := by
  induction rs with
  | nil => rfl
  | cons r rs ih =>
    rw [List.map_cons, encodeProlog, List.flatMap_cons, List.length_append, length_push]
    exact congrArg (pushLen r + ·) ih

theorem length_pushRecs (pos : Nat) (rs : List (BitVec 4)) : (pushRecs pos rs).length = rs.length := by
  induction rs generalizing pos with
  | nil => rfl
  | cons r rs ih => rw [pushRecs, List.length_cons, ih, List.length_cons]

/-- A push is taken whatever was skipped before. -/
theorem headItem_push (k : Nat) (r : BitVec 4) (more : List (BitVec 8)) :
    headItem k ((PrologInsn.push r).encode ++ more) = some (.push r, pushLen r) := by
  rw [headItem, pushInsn_push]

/-- The loop takes the pushes one after the other. -/
theorem headLoop_pushes (rs : List (BitVec 4)) (turns pos k : Nat) (more : List (BitVec 8)) (pushes : List PushRec) (fp : Nat)
    (freg : BitVec 8) (hroom : pushes.length + rs.length ≤ 16) :
    headLoop (rs.length + turns) ⟨pos, encodeProlog (rs.map .push) ++ more, pushes, fp, freg, k⟩ =
      headLoop turns ⟨pos + pushesLen rs, more, (pushRecs pos rs).reverse ++ pushes, fp, freg, if rs = [] then k else 0⟩ := by
  induction rs generalizing pos k pushes with
  | nil =>
    rw [List.length_nil, Nat.zero_add]
    rfl
  | cons r rs ih =>
    rw [List.length_cons] at hroom
    have hih := ih (pos + pushLen r) 0 (⟨r, pos⟩ :: pushes) (by rw [List.length_cons]; omega)
    rw [ite_self] at hih
    have hbytes : encodeProlog ((r :: rs).map .push) ++ more =
        (PrologInsn.push r).encode ++ (encodeProlog (rs.map .push) ++ more) := by
      rw [List.map_cons, encodeProlog, List.flatMap_cons, List.append_assoc]
      rfl
    have hdrop : ((PrologInsn.push r).encode ++ (encodeProlog (rs.map .push) ++ more)).drop (pushLen r) =
        encodeProlog (rs.map .push) ++ more := by rw [← length_push, List.drop_left]
    rw [List.length_cons, Nat.succ_add, headLoop, hbytes]
    dsimp only
    rw [if_pos (by omega), headItem_push]
    dsimp only [HeadState.step]
    rw [hdrop, hih, pushesLen, pushRecs, List.reverse_cons, List.append_assoc, Nat.add_assoc, if_neg (List.cons_ne_nil r rs)]
    rfl

/-! ## The other instructions -/

theorem headItem_frame (k : Nat) (alt : Bool) (more : List (BitVec 8)) :
    headItem k ((PrologInsn.movRbpRsp alt).encode ++ more) = some (.movRbpRsp, 3) := by
  cases alt <;> rfl

/-- The `LEA` of MIR is skipped. -/
theorem headItem_lea {k : Nat} (hk : k < 8) (t : MirTemp) (more : List (BitVec 8)) :
    headItem k ((PrologInsn.lea t).encode ++ more) = some (.skip, 5) := by
  have hskip : skipInsn ((PrologInsn.lea t).encode ++ more) = some 5 := by
    have hlen : (if 5 ≤ more.length + 5 then some 5 else none) = some 5 := if_pos (Nat.le_add_left 5 more.length)
    cases t <;> exact hlen
  have hpush : pushInsn ((PrologInsn.lea t).encode ++ more) = none := by cases t <;> rfl
  have hmov : isMovRbpRsp ((PrologInsn.lea t).encode ++ more) = false := by cases t <;> rfl
  rw [headItem, hpush, hmov, hskip]
  dsimp only
  rw [if_neg Bool.false_ne_true, if_pos hk]
  rfl

/-- The loop over the pushes ends at the allocation. -/
theorem headItem_sub (k : Nat) (wide : Bool) (n : Nat) (more : List (BitVec 8)) :
    headItem k ((PrologInsn.subRsp wide n).encode ++ more) = none := by
  cases wide <;> exact ite_self _

/-- The length of an allocation. -/
def subLen (wide : Bool) : Nat := if wide then 7 else 4

/-- The scan for the subtraction finds it at once, with its size and its length. -/
theorem subScan_sub {wide : Bool} {n : Nat} (hn : n < if wide then 2 ^ 31 else 2 ^ 7) (more : List (BitVec 8)) :
    subScan 0 ((PrologInsn.subRsp wide n).encode ++ more) = some (n, subLen wide) := by
  cases wide with
  | false =>
    have hnat : (BitVec.ofNat 8 n).toNat = n := by
      rw [BitVec.toNat_ofNat, Nat.mod_eq_of_lt]
      simp only [Bool.false_eq_true, if_false] at hn
      omega
    exact congrArg (fun n => some (n, 4)) hnat
  | true =>
    have hnat : leNat (leBytes 4 n) = n := leNat_leBytes (by simp only [if_true] at hn; omega)
    exact congrArg (fun n => some (n, 7)) hnat

theorem rbpSave_encode (disp : Option (BitVec 8)) (t : MirTemp) (more : List (BitVec 8)) :
    rbpSave ((PrologInsn.saveRbp disp).encode ++ ((PrologInsn.movRbp t).encode ++ more)) =
      some ((disp.getD 0#8).toNat, (PrologInsn.saveRbp disp).encode.length) := by
  cases disp <;> cases t <;> rfl

/-- The frame setup of MIR is found. -/
theorem mirSetup_encode {n : Nat} (hn : 0 < n) (disp : Option (BitVec 8)) (t : MirTemp) (more : List (BitVec 8)) :
    mirSetup n ((PrologInsn.saveRbp disp).encode ++ ((PrologInsn.movRbp t).encode ++ more)) =
      some ((disp.getD 0#8).toNat, (PrologInsn.saveRbp disp).encode.length, (PrologInsn.saveRbp disp).encode.length + 3) := by
  have hlen : 7 ≤ ((PrologInsn.saveRbp disp).encode ++ ((PrologInsn.movRbp t).encode ++ more)).length := by
    cases disp <;> cases t <;> simp [PrologInsn.encode]
  have hmov : ((PrologInsn.movRbp t).encode ++ more).take 3 = [0x49#8, 0x8B#8, 0xEA#8] ∨
      ((PrologInsn.movRbp t).encode ++ more).take 3 = [0x48#8, 0x8B#8, 0xE8#8] := by
    cases t
    · exact Or.inl rfl
    · exact Or.inr rfl
  rw [mirSetup, if_pos ⟨hn, hlen⟩, rbpSave_encode]
  dsimp only
  rw [List.drop_left, if_pos hmov]

theorem saveInsn_bytes : ∀ r : BitVec 4,
    (0b01001#5 ++ r.extractLsb' 3 1 ++ 0b00#2 = 0x4C#8 ∨ 0b01001#5 ++ r.extractLsb' 3 1 ++ 0b00#2 = 0x48#8) ∧
    (0b01#2 ++ r.extractLsb' 0 3 ++ 0b101#3) &&& 0xC7#8 = 0x45#8 ∧
    (if 0b01001#5 ++ r.extractLsb' 3 1 ++ 0b00#2 = 0x4C#8 then 8#4 else 0#4) +
      (((0b01#2 ++ r.extractLsb' 0 3 ++ 0b101#3) >>> 3) &&& 7#8).setWidth 4 = r := by decide

/-- A save below the frame pointer is found. -/
theorem saveInsn_save (disp : BitVec 8) (r : BitVec 4) (more : List (BitVec 8)) :
    saveInsn ((PrologInsn.save disp r).encode ++ more) = some (disp, r) := by
  obtain ⟨h₁, h₂, h₃⟩ := saveInsn_bytes r
  exact (if_pos ⟨h₁, rfl, h₂⟩).trans (congrArg (fun r => some (disp, r)) h₃)

/-- A save below the frame pointer is no frame setup of MIR. -/
theorem mirSetup_save (n : Nat) (disp : BitVec 8) (r : BitVec 4) (more : List (BitVec 8)) :
    mirSetup n ((PrologInsn.save disp r).encode ++ more) = none := by
  have hmod : ∀ r : BitVec 4, 0b01#2 ++ r.extractLsb' 0 3 ++ 0b101#3 ≠ 0x6C#8 ∧ 0b01#2 ++ r.extractLsb' 0 3 ++ 0b101#3 ≠ 0x2C#8 := by
    decide
  have hrbp : rbpSave ((PrologInsn.save disp r).encode ++ more) = none := by
    cases more with
    | nil => rfl
    | cons b more => exact (if_neg fun h => (hmod r).1 h.2.2.1).trans (if_neg fun h => (hmod r).2 h.2.2.1)
  rw [mirSetup, hrbp]
  exact ite_self _

/-! ## The saves -/

/-- The saves that are recorded, as the parser keeps them: those at or above the stack pointer by its reckoning. -/
def saveRecs (size pos : Nat) : List (BitVec 8 × BitVec 4) → List SaveRec
  | [] => []
  | (disp, r) :: ss =>
    if 0 ≤ (size : ℤ) - 8 + disp.toInt then ⟨r, ((size : ℤ) - 8 + disp.toInt).toNat, pos + 4⟩ :: saveRecs size (pos + 4) ss
    else saveRecs size (pos + 4) ss

theorem length_encode_saves (ss : List (BitVec 8 × BitVec 4)) :
    (encodeProlog (ss.map fun s => .save s.1 s.2)).length = 4 * ss.length := by
  induction ss with
  | nil => rfl
  | cons s ss ih =>
    rw [List.map_cons, encodeProlog, List.flatMap_cons, List.length_append, List.length_cons, Nat.mul_succ, Nat.add_comm]
    exact congrArg (· + 4) ih

/-- The loop takes the saves one after the other. -/
theorem savesLoop_saves {size : Nat} (hsize : size < 2 ^ 31) {ss : List (BitVec 8 × BitVec 4)} (turns : Nat) {pos : Nat}
    (more : List (BitVec 8)) {recs : List SaveRec} (hroom : recs.length + ss.length ≤ 8) (hpos : pos + 4 * ss.length < 256) :
    savesLoop size (ss.length + turns) pos (encodeProlog (ss.map fun s => .save s.1 s.2) ++ more) recs =
      savesLoop size turns (pos + 4 * ss.length) more ((saveRecs size pos ss).reverse ++ recs) := by
  induction ss generalizing pos recs with
  | nil =>
    rw [List.length_nil, Nat.zero_add]
    rfl
  | cons s ss ih =>
    obtain ⟨disp, r⟩ := s
    rw [List.length_cons] at hroom hpos
    have hbytes : encodeProlog (((disp, r) :: ss).map fun s => .save s.1 s.2) ++ more =
        (PrologInsn.save disp r).encode ++ (encodeProlog (ss.map fun s => .save s.1 s.2) ++ more) := by
      rw [List.map_cons, encodeProlog, List.flatMap_cons, List.append_assoc]
      rfl
    have hdrop : ((PrologInsn.save disp r).encode ++ (encodeProlog (ss.map fun s => .save s.1 s.2) ++ more)).drop 4 =
        encodeProlog (ss.map fun s => .save s.1 s.2) ++ more := rfl
    have hnat : (BitVec.ofNat 32 size).toInt = size := by
      rw [BitVec.toInt_eq_toNat_of_lt, BitVec.toNat_ofNat, Nat.mod_eq_of_lt (by omega)]
      rw [BitVec.toNat_ofNat, Nat.mod_eq_of_lt (by omega)]
      omega
    have hend : pos + 4 + 4 * ss.length = pos + 4 * (ss.length + 1) := by omega
    rw [List.length_cons, Nat.succ_add, savesLoop, if_pos (by omega), hbytes, saveInsn_save]
    dsimp only
    rw [hdrop, hnat, Nat.mod_eq_of_lt (by omega : pos + 4 < 256), saveRecs]
    split
    · rw [ih (by rw [List.length_cons]; omega) (by omega), hend, List.reverse_cons, List.append_assoc]
      rfl
    · rw [ih (by omega) (by omega), hend]

/-! ## How long a prologue gets -/

/-- There are sixteen registers. -/
theorem length_le_of_nodup {rs : List (BitVec 4)} (h : rs.Nodup) : rs.length ≤ 16 := by
  have hnat : (rs.map BitVec.toNat).Nodup := h.map fun _ _ => BitVec.eq_of_toNat_eq
  have hsub : rs.map BitVec.toNat ⊆ List.range 16 := by
    intro n hn
    obtain ⟨r, _, rfl⟩ := List.mem_map.1 hn
    exact List.mem_range.2 r.isLt
  have hle := (hnat.subperm hsub).length_le
  rwa [List.length_map, List.length_range] at hle

theorem fst_saveCells (p : PrologShape) : p.saveCells.map Prod.fst = p.saves.map Prod.snd := by
  rw [PrologShape.saveCells, List.map_map]
  rfl

theorem length_saveCells (p : PrologShape) : p.saveCells.length = p.saves.length := List.length_map _

variable (p : Prologue)

/-- No more than fifteen registers are saved. -/
theorem length_saved : p.allPushes.length + p.localCells.length ≤ 15 := by
  have hnodup : (rsp :: p.saved).Nodup := List.nodup_cons.2 ⟨p.rsp_not_saved, p.saved_nodup⟩
  have hle := length_le_of_nodup hnodup
  rw [List.length_cons, PrologShape.saved, List.length_append, List.length_map] at hle
  omega

/-- No more than eight registers are saved in the allocation. -/
theorem length_localCells : p.localCells.length ≤ 8 := by
  have hsub : p.localCells.map Prod.fst ⊆ nonvolatile := by
    intro r hr
    rw [PrologShape.localCells, List.map_append, List.mem_append, fst_saveCells] at hr
    rcases hr with hr | hr
    · cases hmir : p.mir with
      | none => simp [PrologShape.rbpCell, hmir] at hr
      | some m =>
        simp only [PrologShape.rbpCell, hmir, List.map_cons, List.map_nil, List.mem_singleton] at hr
        rw [hr]
        decide
    · obtain ⟨s, hs, rfl⟩ := List.mem_map.1 hr
      exact p.saves_nonvolatile s hs
  have hle := (p.saved_nodup.of_append_right.subperm hsub).length_le
  rwa [List.length_map] at hle

/-- A push is at most two bytes long. -/
theorem pushesLen_le (rs : List (BitVec 4)) : pushesLen rs ≤ 2 * rs.length := by
  induction rs with
  | nil => exact Nat.le_refl 0
  | cons r rs ih =>
    have hlen : pushLen r ≤ 2 := by
      unfold pushLen
      split <;> decide
    rw [pushesLen, List.length_cons]
    omega

/-- A push is at least one byte long. -/
theorem length_le_pushesLen (rs : List (BitVec 4)) : rs.length ≤ pushesLen rs := by
  induction rs with
  | nil => exact Nat.le_refl 0
  | cons r rs ih =>
    have hlen : 1 ≤ pushLen r := by
      unfold pushLen
      split <;> decide
    rw [pushesLen, List.length_cons]
    omega

/-! ## Where the instructions stand -/

/-- The length of the `ENDBR64`. -/
def startPos : Nat := if p.endbr then 4 else 0

/-- The end of the `MOV RBP, RSP`, where it stands. -/
def framePos : Nat := startPos p + pushesLen p.pushes + 3

/-- The end of the pushes. -/
def headPos : Nat := if p.frame.isSome then framePos p + pushesLen p.latePushes else startPos p + pushesLen p.pushes

/-- The end of the allocation. -/
def allocPos : Nat := headPos p + (if p.mir.isSome then 5 else 0) + (p.alloc.map fun a => subLen a.1).getD 0

/-- The end of the save of `RBP` in the frame setup of MIR. -/
def rbpPos : Nat := allocPos p + (p.mir.map fun m => (PrologInsn.saveRbp m.2).encode.length).getD 0

/-- The end of the frame setup of MIR, if it is there. -/
def mirPos : Nat := if p.mir.isSome then rbpPos p + 3 else allocPos p

/-- The pushes that are kept. -/
def allRecs : List PushRec := pushRecs (startPos p) p.pushes ++ pushRecs (framePos p) p.latePushes

/-- The save of `RBP` that is kept. -/
def rbpRec : List SaveRec := (p.mir.map fun m => [⟨rbp, (m.2.getD 0#8).toNat, rbpPos p⟩]).getD []

/-- What is known of a prologue when its codes are built. -/
def parsed : ParsedPrologue where
  pushes := (allRecs p).reverse
  saves := (saveRecs p.size (mirPos p) p.saves).reverse ++ rbpRec p
  allocSize := p.size
  allocOffset := if p.alloc.isSome then allocPos p else 0
  setFpregOffset := if p.mir.isSome then mirPos p else if p.frame.isSome then framePos p else 0
  prologSize := p.bytes.length
  frameReg := if p.setsFrame then 5#8 else 0#8
  frameOffset := if p.mir.isSome then BitVec.ofNat 8 ((p.size - 8) / 16) else 0#8

theorem encode_append (is js : List PrologInsn) : encodeProlog (is ++ js) = encodeProlog is ++ encodeProlog js := List.flatMap_append

theorem encode_cons (i : PrologInsn) (is : List PrologInsn) : encodeProlog (i :: is) = i.encode ++ encodeProlog is := List.flatMap_cons

theorem encode_nil : encodeProlog [] = [] := rfl

/-- How many instructions the loop over the pushes takes at least. -/
def headCount : Nat := p.pushes.length + if p.frame.isSome then 1 + p.latePushes.length else 0

/-- The frame pointer that the loop over the pushes leaves. -/
def headFrame : Nat × BitVec 8 := if p.frame.isSome then (framePos p, 5#8) else (0, 0#8)

theorem startPos_le : startPos p ≤ 4 := by
  unfold startPos
  split <;> omega

theorem length_pushes : p.pushes.length + p.latePushes.length ≤ 15 := by
  have hle := length_saved p
  rw [PrologShape.allPushes, List.length_append] at hle
  omega

theorem headPos_le : headPos p ≤ 37 := by
  have h₁ := startPos_le p
  have h₂ := pushesLen_le p.pushes
  have h₃ := pushesLen_le p.latePushes
  have h₄ := length_pushes p
  unfold headPos framePos
  split <;> omega

theorem latePushes_of_none (hf : p.frame = none) : p.latePushes = [] := by rw [PrologShape.latePushes, hf]; rfl

/-- The loop over the pushes comes to the end of the pushes. -/
theorem headLoop_head (turns : Nat) (more : List (BitVec 8)) :
    headLoop (headCount p + turns) ⟨startPos p, encodeProlog p.headInsns ++ more, [], 0, 0#8, 0⟩ =
      headLoop turns ⟨headPos p, more, (allRecs p).reverse, (headFrame p).1, (headFrame p).2, p.headSkips⟩ := by
  have hlen := length_pushes p
  have hpos := headPos_le p
  cases hf : p.frame with
  | none =>
    have hlate := latePushes_of_none p hf
    have hskips : p.headSkips = 0 := by rw [PrologShape.headSkips, hf]; rfl
    have hrun := headLoop_pushes p.pushes turns (startPos p) 0 more [] 0 0#8 (by rw [List.length_nil]; omega)
    rw [ite_self] at hrun
    simp only [headCount, PrologShape.headInsns, headPos, headFrame, allRecs, hf, hlate, hskips, Option.isSome_none, Bool.false_eq_true,
      if_false, List.append_nil, Nat.add_zero, pushRecs]
    rw [hrun, List.append_nil]
  | some f =>
    obtain ⟨alt, late⟩ := f
    have hlate : p.latePushes = late := by rw [PrologShape.latePushes, hf]; rfl
    rw [hlate] at hlen
    have hmid : framePos p ≤ headPos p := by
      rw [headPos, hf, Option.isSome_some, if_pos rfl]
      exact Nat.le_add_right _ _
    have hskips : p.headSkips = if late = [] then 1 else 0 := by
      rw [PrologShape.headSkips, hf]
      simp only [Option.map_some, Option.some.injEq]
    have hrun := headLoop_pushes p.pushes (1 + late.length + turns) (startPos p) 0
      ((PrologInsn.movRbpRsp alt).encode ++ (encodeProlog (late.map .push) ++ more)) [] 0 0#8 (by rw [List.length_nil]; omega)
    have hrun' := headLoop_pushes late turns (framePos p) 1 more (pushRecs (startPos p) p.pushes).reverse (framePos p) 5#8
      (by rw [List.length_reverse, length_pushRecs]; omega)
    rw [ite_self] at hrun
    have hbytes : encodeProlog p.headInsns ++ more = encodeProlog (p.pushes.map .push) ++
        ((PrologInsn.movRbpRsp alt).encode ++ (encodeProlog (late.map .push) ++ more)) := by
      rw [PrologShape.headInsns, hf]
      simp only [encode_append, encode_cons, List.append_assoc]
    have hturns : headCount p + turns = p.pushes.length + (1 + late.length + turns) := by
      rw [headCount, hf, hlate, Option.isSome_some, if_pos rfl, Nat.add_assoc]
    rw [hbytes, hturns, hrun, Nat.add_assoc 1, Nat.add_comm 1, headLoop, if_pos]
    · dsimp only
      rw [headItem_frame]
      dsimp only [HeadState.step]
      have hframe : startPos p + pushesLen p.pushes + 3 = framePos p := rfl
      have hdrop : ((PrologInsn.movRbpRsp alt).encode ++ (encodeProlog (late.map .push) ++ more)).drop 3 =
          encodeProlog (late.map .push) ++ more := by cases alt <;> rfl
      rw [hdrop, hframe, Nat.mod_eq_of_lt (by omega), List.append_nil, hrun', headPos, hf, hlate, allRecs, hlate, headFrame, hf, hskips,
        List.reverse_append]
      rfl
    · dsimp only
      rw [List.append_nil, List.length_reverse, length_pushRecs]
      omega

theorem startPos_eq : (encodeProlog (if p.endbr then [.endbr64] else [])).length = startPos p := by
  unfold startPos
  cases p.endbr <;> rfl

/-- The head ends where its instructions do. -/
theorem length_headInsns : startPos p + (encodeProlog p.headInsns).length = headPos p := by
  rw [PrologShape.headInsns, encode_append, List.length_append, length_encode_pushes, headPos, framePos]
  cases hf : p.frame with
  | none => rfl
  | some f =>
    obtain ⟨alt, late⟩ := f
    have hlate : p.latePushes = late := by rw [PrologShape.latePushes, hf]; rfl
    have hmov : (PrologInsn.movRbpRsp alt).encode.length = 3 := by cases alt <;> rfl
    dsimp only
    rw [encode_cons, List.length_append, hmov, length_encode_pushes, hlate, Option.isSome_some, if_pos rfl]
    omega

theorem length_sub (wide : Bool) (n : Nat) : (PrologInsn.subRsp wide n).encode.length = subLen wide := by
  cases wide with
  | false => rfl
  | true => rfl

/-- The frame setup ends where its instructions do. -/
theorem length_frameInsns : headPos p + (encodeProlog p.frameInsns).length = mirPos p := by
  have hlea : ∀ t : MirTemp, (PrologInsn.lea t).encode.length = 5 := fun t => by cases t <;> rfl
  have hmov : ∀ t : MirTemp, (PrologInsn.movRbp t).encode.length = 3 := fun t => by cases t <;> rfl
  rw [PrologShape.frameInsns, mirPos, rbpPos, allocPos]
  cases hmir : p.mir with
  | none =>
    cases halloc : p.alloc with
    | none => rfl
    | some a =>
      simp only [encode_append, encode_cons, encode_nil, List.length_append, length_sub, List.length_nil, Option.isSome_none, if_false,
        Bool.false_eq_true, Option.map_some, Option.getD_some]
      omega
  | some m =>
    cases halloc : p.alloc with
    | none =>
      simp only [encode_append, encode_cons, encode_nil, List.length_append, hlea, hmov, List.length_nil, Option.isSome_some, if_true,
        Option.map_some, Option.getD_some, Option.map_none, Option.getD_none]
      omega
    | some a =>
      simp only [encode_append, encode_cons, encode_nil, List.length_append, hlea, hmov, length_sub, List.length_nil, Option.isSome_some,
        if_true, Option.map_some, Option.getD_some]
      omega

theorem bytes_eq : p.bytes = encodeProlog (if p.endbr then [.endbr64] else []) ++
    (encodeProlog p.headInsns ++ (encodeProlog p.frameInsns ++ encodeProlog p.saveInsns)) := by
  rw [PrologShape.bytes, PrologShape.insns, encode_append, encode_append, encode_append]

theorem length_bytes : p.bytes.length = mirPos p + 4 * p.saves.length := by
  rw [bytes_eq, List.length_append, List.length_append, List.length_append, startPos_eq, PrologShape.saveInsns, length_encode_saves,
    ← length_frameInsns, ← length_headInsns]
  omega

/-- No prologue comes near the end of the bytes that are looked at. -/
theorem length_bytes_lt : p.bytes.length < 128 := by
  have h₁ := headPos_le p
  have h₂ := length_localCells p
  have h₃ : p.saves.length ≤ p.localCells.length := by
    rw [PrologShape.localCells, List.length_append, length_saveCells]
    exact Nat.le_add_left _ _
  have h₄ : ∀ wide, subLen wide ≤ 7 := by decide
  have h₅ : ∀ disp, (PrologInsn.saveRbp disp).encode.length ≤ 5 := fun disp => by cases disp <;> simp [PrologInsn.encode]
  have h₆ : (p.alloc.map fun a => subLen a.1).getD 0 ≤ 7 := by
    cases p.alloc with
    | none => exact Nat.zero_le 7
    | some a => exact h₄ a.1
  have h₇ : (p.mir.map fun m => (PrologInsn.saveRbp m.2).encode.length).getD 0 ≤ 5 := by
    cases p.mir with
    | none => exact Nat.zero_le 5
    | some m => exact h₅ m.2
  rw [length_bytes, mirPos, rbpPos, allocPos]
  split <;> omega

/-- With no allocation there is nothing in it. -/
theorem localCells_of_zero (h : p.size = 0) : p.localCells = [] := by
  rw [List.eq_nil_iff_forall_not_mem]
  intro c hc
  have hin := p.cells_inside c hc
  rw [h] at hin
  omega

/-- Without an allocation there is no frame setup after it. -/
theorem mir_of_zero (h : p.size = 0) : p.mir = none := by
  have hcells := localCells_of_zero p h
  rw [PrologShape.localCells, List.append_eq_nil_iff, PrologShape.rbpCell] at hcells
  cases hmir : p.mir with
  | none => rfl
  | some m =>
    rw [hmir] at hcells
    exact absurd hcells.1 (List.cons_ne_nil _ _)

theorem saves_of_zero (h : p.size = 0) : p.saves = [] := by
  have hcells := localCells_of_zero p h
  rw [PrologShape.localCells, List.append_eq_nil_iff] at hcells
  rw [← List.length_eq_zero_iff, ← length_saveCells, hcells.2]
  rfl

/-- The `RBP` that MIR saves takes its place in the allocation. -/
theorem size_of_mir {t : MirTemp} {disp : Option (BitVec 8)} (hmir : p.mir = some (t, disp)) : 8 ≤ p.size := by
  have hmem : (rbp, p.rspPos + (disp.getD 0#8).toInt) ∈ p.localCells := by
    rw [PrologShape.localCells, PrologShape.rbpCell, hmir]
    exact List.mem_cons_self
  have hin := p.cells_inside _ hmem
  dsimp only at hin
  omega

/-- The size of an allocation fits into a signed immediate. -/
theorem size_lt : p.size < 2 ^ 31 := by
  cases halloc : p.alloc with
  | none =>
    rw [PrologShape.size, halloc]
    decide
  | some a =>
    obtain ⟨wide, n⟩ := a
    have hfits := p.size_fits wide n halloc
    rw [PrologShape.size, halloc, Option.map_some, Option.getD_some]
    dsimp only
    split at hfits <;> omega

/-! ## The parser -/

/-- An instruction that is not an `ENDBR64` does not look like one. -/
theorem take_encode_ne {i : PrologInsn} (hi : i ≠ .endbr64) (more : List (BitVec 8)) :
    (i.encode ++ more).take 4 ≠ [0xF3#8, 0x0F#8, 0x1E#8, 0xFA#8] := by
  have hfirst : ∀ (b : BitVec 8) (bs : List (BitVec 8)), b ≠ 0xF3#8 → (b :: bs).take 4 ≠ [0xF3#8, 0x0F#8, 0x1E#8, 0xFA#8] :=
    fun b bs hb h => hb (List.cons.inj h).1
  have hpush : ∀ r : BitVec 4, 0b01010#5 ++ r.extractLsb' 0 3 ≠ 0xF3#8 := by decide
  have hsave : ∀ r : BitVec 4, 0b01001#5 ++ r.extractLsb' 3 1 ++ 0b00#2 ≠ 0xF3#8 := by decide
  cases i with
  | endbr64 => exact absurd rfl hi
  | push r =>
    rw [PrologInsn.encode]
    split
    · exact hfirst _ _ (hpush r)
    · exact hfirst _ _ (by decide)
  | movRbpRsp alt => cases alt <;> exact hfirst _ _ (by decide)
  | subRsp wide n => cases wide <;> exact hfirst _ _ (by decide)
  | lea t => cases t <;> exact hfirst _ _ (by decide)
  | saveRbp disp => cases disp <;> exact hfirst _ _ (by decide)
  | movRbp t => cases t <;> exact hfirst _ _ (by decide)
  | save disp r => exact hfirst _ _ (hsave r)

/-- An `ENDBR64` only starts a prologue. -/
theorem endbr_not_mem : PrologInsn.endbr64 ∉ p.headInsns ++ (p.frameInsns ++ p.saveInsns) := by
  intro h
  simp only [List.mem_append, PrologShape.headInsns, PrologShape.frameInsns, PrologShape.saveInsns, List.mem_map] at h
  rcases h with (⟨_, _, h⟩ | h) | ((h | h) | h) | ⟨_, _, h⟩
  · exact PrologInsn.noConfusion h
  · cases hf : p.frame with
    | none => simp [hf] at h
    | some f => simp [hf] at h
  · cases hm : p.mir with
    | none => simp [hm] at h
    | some m => simp [hm] at h
  · cases ha : p.alloc with
    | none => simp [ha] at h
    | some a => simp [ha] at h
  · cases hm : p.mir with
    | none => simp [hm] at h
    | some m => simp [hm] at h
  · exact PrologInsn.noConfusion h

/-- What the parser starts from. -/
theorem start_eq (h : p.insns ≠ []) (body : List (BitVec 8)) :
    (if (p.bytes ++ body).take 4 = [0xF3#8, 0x0F#8, 0x1E#8, 0xFA#8] then 4 else 0) = startPos p ∧
      (p.bytes ++ body).drop (startPos p) =
        encodeProlog p.headInsns ++ (encodeProlog p.frameInsns ++ (encodeProlog p.saveInsns ++ body)) := by
  rw [bytes_eq, startPos]
  cases he : p.endbr with
  | true => exact ⟨if_pos rfl, by simp only [List.append_assoc]; rfl⟩
  | false =>
    refine ⟨if_neg ?_, by simp only [List.append_assoc]; rfl⟩
    have hinsns : p.insns = p.headInsns ++ (p.frameInsns ++ p.saveInsns) := by
      rw [PrologShape.insns, he]
      rfl
    have hnot := endbr_not_mem p
    rw [if_neg Bool.false_ne_true, encode_nil, List.nil_append, ← encode_append, ← encode_append]
    cases hcase : p.headInsns ++ (p.frameInsns ++ p.saveInsns) with
    | nil => exact absurd (hinsns.trans hcase) h
    | cons i is =>
      rw [hcase] at hnot
      rw [encode_cons, List.append_assoc]
      exact take_encode_ne (fun hi => hnot (hi ▸ List.mem_cons_self)) _

/-- The loop over the pushes stays where it finds nothing. -/
theorem headLoop_ends {turns pos k : Nat} {more : List (BitVec 8)} {recs : List PushRec} {fp : Nat} {freg : BitVec 8}
    (h : headItem k more = none) : headLoop turns ⟨pos, more, recs, fp, freg, k⟩ = ⟨pos, more, recs, fp, freg, k⟩ := by
  cases turns with
  | zero => rfl
  | succ turns =>
    rw [headLoop]
    dsimp only
    rw [h]
    exact ite_self _

/-- The loop steps over the `LEA` of MIR and ends at the allocation. -/
theorem headLoop_lea {turns pos k : Nat} (hk : k < 8) (t : MirTemp) (wide : Bool) (n : Nat) (more : List (BitVec 8)) {recs : List PushRec}
    (hroom : recs.length < 16) (fp : Nat) (freg : BitVec 8) :
    headLoop (turns + 1) ⟨pos, (PrologInsn.lea t).encode ++ ((PrologInsn.subRsp wide n).encode ++ more), recs, fp, freg, k⟩ =
      ⟨pos + 5, (PrologInsn.subRsp wide n).encode ++ more, recs, fp, freg, k + 1⟩ := by
  have hdrop : ((PrologInsn.lea t).encode ++ ((PrologInsn.subRsp wide n).encode ++ more)).drop 5 =
      (PrologInsn.subRsp wide n).encode ++ more := by
    cases t <;> rfl
  rw [headLoop]
  dsimp only
  rw [if_pos hroom, headItem_lea hk]
  dsimp only [HeadState.step]
  rw [hdrop, headLoop_ends (headItem_sub _ _ _ _)]

/-- The window of the scan holds the allocation that it starts at. -/
theorem subScan_window {wide : Bool} {n : Nat} (hn : n < if wide then 2 ^ 31 else 2 ^ 7) (more : List (BitVec 8)) :
    subScan 0 (((PrologInsn.subRsp wide n).encode ++ more).take 64) = some (n, subLen wide) := by
  have hlen : (PrologInsn.subRsp wide n).encode.length ≤ 64 := by
    rw [length_sub]
    cases wide <;> decide
  rw [List.take_append, List.take_of_length_le hlen, subScan_sub hn]

/-- Without a frame pointer or an allocation nothing is saved in it. -/
theorem saves_of_not (h : ¬ (p.setsFrame ∧ 0 < p.size)) : p.saves = [] := by
  by_contra hne
  have hsize : p.size ≠ 0 := fun h0 => hne (saves_of_zero p h0)
  exact h ⟨p.saves_frame hne, Nat.pos_of_ne_zero hsize⟩

/-- The saves that are kept when the loop over them has gone on into the code after the prologue. -/
def savesOver (turns : Nat) (body : List (BitVec 8)) (recs : List SaveRec) : List SaveRec :=
  if p.setsFrame ∧ 0 < p.size then (savesLoop p.size turns p.bytes.length body recs).2 else recs

/-- The saves are taken. -/
theorem takeSaves_eq (body : List (BitVec 8)) {q : ParsedPrologue} (hreg : q.frameReg = (parsed p).frameReg) (hsize : q.allocSize = p.size)
    (hroom : q.saves.length + p.saves.length ≤ 8) :
    ∃ turns prolog, body.length ≤ turns ∧ q.takeSaves (mirPos p) (encodeProlog p.saveInsns ++ body) =
      { q with saves := savesOver p turns body ((saveRecs p.size (mirPos p) p.saves).reverse ++ q.saves), prologSize := prolog } := by
  have hbytes := length_bytes_lt p
  have hlen := length_bytes p
  have hcond : (q.frameReg = 5#8 ∧ 0 < q.allocSize) ↔ (p.setsFrame ∧ 0 < p.size) := by
    rw [hreg, hsize, parsed]
    cases p.setsFrame
    · simp
    · simp
  rw [ParsedPrologue.takeSaves]
  by_cases hsaves : p.setsFrame ∧ 0 < p.size
  · have hcount : (encodeProlog p.saveInsns ++ body).length = p.saves.length + (3 * p.saves.length + body.length) := by
      rw [List.length_append, PrologShape.saveInsns, length_encode_saves]
      omega
    refine ⟨3 * p.saves.length + body.length, (savesLoop p.size (3 * p.saves.length + body.length) p.bytes.length body
      ((saveRecs p.size (mirPos p) p.saves).reverse ++ q.saves)).1 % 256, by omega, ?_⟩
    rw [if_pos (hcond.2 hsaves), hcount, hsize, PrologShape.saveInsns, savesLoop_saves (size_lt p) _ _ hroom (by omega), ← hlen, savesOver,
      if_pos hsaves]
  · have hnil := saves_of_not p hsaves
    refine ⟨body.length, mirPos p % 256, Nat.le_refl _, ?_⟩
    rw [if_neg (fun hc => hsaves (hcond.1 hc)), savesOver, if_neg hsaves, hnil, saveRecs]
    rfl

/-- From the end of the allocation on, where no frame setup of MIR is found. -/
theorem takeFrame_plain {body : List (BitVec 8)} (hmir : p.mir = none)
    (hnone : mirSetup p.size (encodeProlog p.saveInsns ++ body) = none) {pos len allocOffset k : Nat} {insn : List (BitVec 8)}
    (hlen : insn.length = len) (hpos : pos + len = allocPos p) (halloc : allocOffset = (parsed p).allocOffset) :
    ∃ turns prolog, body.length ≤ turns ∧
      (HeadState.mk pos (insn ++ (encodeProlog p.saveInsns ++ body)) (allRecs p).reverse (headFrame p).1 (headFrame p).2 k).takeFrame p.size
        len allocOffset = { parsed p with saves := savesOver p turns body (parsed p).saves, prologSize := prolog } := by
  have hsaves : p.saves.length ≤ 8 := by
    have hle := length_localCells p
    rw [PrologShape.localCells, List.length_append, length_saveCells] at hle
    omega
  have hmirPos : allocPos p = mirPos p := by rw [mirPos, hmir]; rfl
  have hdrop : (insn ++ (encodeProlog p.saveInsns ++ body)).drop len = encodeProlog p.saveInsns ++ body := by rw [← hlen, List.drop_left]
  have hreg : (headFrame p).2 = (parsed p).frameReg := by
    rw [headFrame, parsed, PrologShape.setsFrame, hmir]
    cases p.frame <;> rfl
  have hset : (headFrame p).1 = (parsed p).setFpregOffset := by
    rw [headFrame, parsed, hmir]
    cases p.frame <;> rfl
  have hrecs : (saveRecs p.size (mirPos p) p.saves).reverse ++ [] = (parsed p).saves := by
    rw [parsed, rbpRec, hmir]
    rfl
  obtain ⟨turns, prolog, hturns, htake⟩ := @takeSaves_eq p body
    { pushes := (allRecs p).reverse, saves := [], allocSize := p.size, allocOffset, setFpregOffset := (headFrame p).1, prologSize := 0,
      frameReg := (headFrame p).2, frameOffset := 0#8 } hreg rfl (by rw [List.length_nil]; omega)
  refine ⟨turns, prolog, hturns, ?_⟩
  rw [HeadState.takeFrame]
  dsimp only
  rw [hdrop, hnone, hpos, hmirPos]
  dsimp only at htake ⊢
  rw [htake, hrecs]
  simp only [hreg, hset, halloc, parsed, hmir, Option.isSome_none, Bool.false_eq_true, if_false]

/-- From the end of the allocation on, with the frame setup of MIR. -/
theorem takeFrame_mir (body : List (BitVec 8)) {t : MirTemp} {disp : Option (BitVec 8)} (hmir : p.mir = some (t, disp))
    {pos len allocOffset k : Nat} {insn : List (BitVec 8)} (hlen : insn.length = len) (hpos : pos + len = allocPos p)
    (halloc : allocOffset = (parsed p).allocOffset) :
    ∃ turns prolog, body.length ≤ turns ∧
      (HeadState.mk pos (insn ++ ((PrologInsn.saveRbp disp).encode ++ ((PrologInsn.movRbp t).encode ++ (encodeProlog p.saveInsns ++ body))))
        (allRecs p).reverse (headFrame p).1 (headFrame p).2 k).takeFrame p.size len allocOffset =
        { parsed p with saves := savesOver p turns body (parsed p).saves, prologSize := prolog } := by
  have hsize := size_of_mir p hmir
  have hlt := size_lt p
  have hsaves : 1 + p.saves.length ≤ 8 := by
    have hle := length_localCells p
    rw [PrologShape.localCells, List.length_append, length_saveCells, PrologShape.rbpCell, hmir] at hle
    exact hle
  have hbytes := length_bytes_lt p
  have hlenb := length_bytes p
  have hmirPos : mirPos p = allocPos p + ((PrologInsn.saveRbp disp).encode.length + 3) := by
    rw [mirPos, rbpPos, hmir]
    rfl
  have hrbpPos : rbpPos p = allocPos p + (PrologInsn.saveRbp disp).encode.length := by
    rw [rbpPos, hmir]
    rfl
  have hdrop :
      (insn ++ ((PrologInsn.saveRbp disp).encode ++ ((PrologInsn.movRbp t).encode ++ (encodeProlog p.saveInsns ++ body)))).drop len =
      (PrologInsn.saveRbp disp).encode ++ ((PrologInsn.movRbp t).encode ++ (encodeProlog p.saveInsns ++ body)) := by
    rw [← hlen, List.drop_left]
  have hdrop' : ((PrologInsn.saveRbp disp).encode ++ ((PrologInsn.movRbp t).encode ++ (encodeProlog p.saveInsns ++ body))).drop
      ((PrologInsn.saveRbp disp).encode.length + 3) = encodeProlog p.saveInsns ++ body := by
    rw [← List.drop_drop, List.drop_left]
    cases t <;> rfl
  have hreg : 5#8 = (parsed p).frameReg := by
    rw [parsed, PrologShape.setsFrame, hmir]
    rfl
  have hoff : (BitVec.ofNat 32 p.size - 8#32).toNat = p.size - 8 := by
    rw [BitVec.toNat_sub_of_le, BitVec.toNat_ofNat, Nat.mod_eq_of_lt (by omega)]
    · rfl
    · rw [BitVec.le_def, BitVec.toNat_ofNat, BitVec.toNat_ofNat, Nat.mod_eq_of_lt (by omega)]
      omega
  have hrecs : (saveRecs p.size (mirPos p) p.saves).reverse ++ [⟨5#4, (disp.getD 0#8).toNat, rbpPos p⟩] = (parsed p).saves := by
    rw [parsed, rbpRec, hmir]
    rfl
  obtain ⟨turns, prolog, hturns, htake⟩ := @takeSaves_eq p body
    { pushes := (allRecs p).reverse, saves := [⟨5#4, (disp.getD 0#8).toNat, rbpPos p⟩], allocSize := p.size, allocOffset,
      setFpregOffset := mirPos p, prologSize := 0, frameReg := 5#8, frameOffset := BitVec.ofNat 8 ((p.size - 8) / 16) } hreg rfl
    (by rw [List.length_singleton]; omega)
  refine ⟨turns, prolog, hturns, ?_⟩
  rw [HeadState.takeFrame]
  dsimp only
  rw [hdrop, mirSetup_encode (by omega), hpos]
  dsimp only at htake ⊢
  rw [hdrop', ← hmirPos, ← hrbpPos, Nat.mod_eq_of_lt (by omega : mirPos p < 256), Nat.mod_eq_of_lt (by omega : rbpPos p < 256), hoff, htake,
    hrecs]
  simp only [halloc, parsed, PrologShape.setsFrame, hmir, Option.isSome_some, if_true, Bool.true_or]

/-- The loop over the pushes has turns enough. -/
theorem headCount_le : headCount p ≤ headPos p := by
  have h₁ := length_le_pushesLen p.pushes
  have h₂ := length_le_pushesLen p.latePushes
  unfold headCount headPos framePos
  split <;> omega

/-- From the end of the pushes on. -/
def takeScan (st : HeadState) : ParsedPrologue :=
  match subScan 0 (st.rest.take 64) with
  | some (allocSize, len) => st.takeFrame allocSize len ((st.pos + len) % 256)
  | none => st.takeFrame 0 0 0

/-- The code after the prologue that is looked at. -/
def window (body : List (BitVec 8)) : List (BitVec 8) := body.take (256 - p.bytes.length)

theorem length_window (body : List (BitVec 8)) : p.bytes.length + (window p body).length ≤ 256 := by
  have hbytes := length_bytes_lt p
  rw [window, List.length_take]
  omega

/-- The parser comes to the end of the pushes of a prologue, and has turns enough to go on from there. -/
theorem parse_head (hne : p.insns ≠ []) (body : List (BitVec 8)) :
    ∃ turns, (encodeProlog p.frameInsns).length + (window p body).length ≤ turns ∧ parseInsns (p.bytes ++ body) =
      takeScan (headLoop turns ⟨headPos p, encodeProlog p.frameInsns ++ (encodeProlog p.saveInsns ++ window p body), (allRecs p).reverse,
        (headFrame p).1, (headFrame p).2, p.headSkips⟩) := by
  have hbytes := length_bytes_lt p
  have hwindow : (p.bytes ++ body).take 256 = p.bytes ++ window p body := by
    rw [List.take_append, List.take_of_length_le (by omega), window]
  obtain ⟨hstart, hrest⟩ := start_eq p hne (window p body)
  have hcount := headCount_le p
  have hlen : (p.bytes ++ window p body).length =
      headPos p + (encodeProlog p.frameInsns).length + 4 * p.saves.length + (window p body).length := by
    rw [List.length_append, length_bytes, ← length_frameInsns]
  obtain ⟨turns, hturns⟩ : ∃ turns, (p.bytes ++ window p body).length = headCount p + turns := Nat.exists_eq_add_of_le (by omega)
  refine ⟨turns, by omega, ?_⟩
  rw [parseInsns, hwindow, hstart, hrest, hturns, headLoop_head]
  rfl

/-- Without an allocation the loop over the pushes goes on into the code after the prologue. -/
theorem parse_open (hne : p.insns ≠ []) (halloc : p.alloc = none) (body : List (BitVec 8)) :
    ∃ turns, (window p body).length ≤ turns ∧ parseInsns (p.bytes ++ body) =
      takeScan (headLoop turns ⟨p.bytes.length, window p body, (allRecs p).reverse, (headFrame p).1, (headFrame p).2, p.headSkips⟩) := by
  have hsize : p.size = 0 := by rw [PrologShape.size, halloc]; rfl
  have hmir := mir_of_zero p hsize
  have hsaves := saves_of_zero p hsize
  have hframe : encodeProlog p.frameInsns = [] := by rw [PrologShape.frameInsns, hmir, halloc]; rfl
  have hend : headPos p = p.bytes.length := by
    rw [length_bytes, ← length_frameInsns, hframe, hsaves]
    rfl
  obtain ⟨turns, hturns, hparse⟩ := parse_head p hne body
  rw [hframe, List.length_nil, Nat.zero_add] at hturns
  refine ⟨turns, hturns, ?_⟩
  rw [hparse, hframe, PrologShape.saveInsns, hsaves, hend]
  rfl

theorem insns_ne_nil {a : Bool × Nat} (halloc : p.alloc = some a) : p.insns ≠ [] := by
  have hmem : .subRsp a.1 a.2 ∈ p.insns := by
    rw [PrologShape.insns, PrologShape.frameInsns, halloc]
    simp
  exact List.ne_nil_of_mem hmem

theorem allocPos_mod {a : Bool × Nat} (halloc : p.alloc = some a) : allocPos p % 256 = (parsed p).allocOffset := by
  have hbytes := length_bytes_lt p
  have hle : allocPos p ≤ p.bytes.length := by
    rw [length_bytes, mirPos, rbpPos]
    split <;> omega
  rw [parsed, halloc, Option.isSome_some, if_pos rfl, Nat.mod_eq_of_lt (by omega)]

/-- The allocation of a prologue without the frame setup of MIR is found. -/
theorem parse_plain {wide : Bool} {n : Nat} (halloc : p.alloc = some (wide, n)) (hmir : p.mir = none) (body : List (BitVec 8)) :
    parseInsns (p.bytes ++ body) =
      (HeadState.mk (headPos p) ((PrologInsn.subRsp wide n).encode ++ (encodeProlog p.saveInsns ++ window p body)) (allRecs p).reverse
        (headFrame p).1 (headFrame p).2 p.headSkips).takeFrame p.size (subLen wide) (parsed p).allocOffset := by
  have hsize : p.size = n := by rw [PrologShape.size, halloc]; rfl
  have hframe : encodeProlog p.frameInsns = (PrologInsn.subRsp wide n).encode := by
    rw [PrologShape.frameInsns, hmir, halloc]
    exact List.append_nil _
  have hpos : headPos p + subLen wide = allocPos p := by rw [allocPos, hmir, halloc]; rfl
  obtain ⟨turns, _, hparse⟩ := parse_head p (insns_ne_nil p halloc) body
  rw [hparse, hframe, headLoop_ends (headItem_sub _ _ _ _), takeScan]
  dsimp only
  rw [subScan_window (p.size_fits wide n halloc)]
  dsimp only
  rw [hpos, allocPos_mod p halloc, hsize]

/-- With an allocation, only the frame setup of MIR and the saves go on into the code after the prologue. -/
theorem parse_alloc {a : Bool × Nat} (halloc : p.alloc = some a) (body : List (BitVec 8))
    (hsetup : p.saves = [] → p.mir = none → mirSetup p.size (window p body) = none) :
    ∃ turns prolog, (window p body).length ≤ turns ∧ parseInsns (p.bytes ++ body) =
      { parsed p with saves := savesOver p turns (window p body) (parsed p).saves, prologSize := prolog } := by
  obtain ⟨wide, n⟩ := a
  have hsize : p.size = n := by rw [PrologShape.size, halloc]; rfl
  cases hmir : p.mir with
  | none =>
    have hnone : mirSetup p.size (encodeProlog p.saveInsns ++ window p body) = none := by
      cases hsaves : p.saves with
      | nil =>
        rw [PrologShape.saveInsns, hsaves]
        exact hsetup hsaves hmir
      | cons s ss =>
        rw [PrologShape.saveInsns, hsaves, List.map_cons, encode_cons, List.append_assoc]
        exact mirSetup_save _ _ _ _
    have hpos : headPos p + subLen wide = allocPos p := by rw [allocPos, hmir, halloc]; rfl
    rw [parse_plain p halloc hmir]
    exact takeFrame_plain p hmir hnone (length_sub _ _) hpos rfl
  | some m =>
    obtain ⟨t, disp⟩ := m
    have hbytes : encodeProlog p.frameInsns ++ (encodeProlog p.saveInsns ++ window p body) = (PrologInsn.lea t).encode ++
        ((PrologInsn.subRsp wide n).encode ++
          ((PrologInsn.saveRbp disp).encode ++ ((PrologInsn.movRbp t).encode ++ (encodeProlog p.saveInsns ++ window p body)))) := by
      rw [PrologShape.frameInsns, hmir, halloc]
      simp only [encode_append, encode_cons, encode_nil, List.append_assoc, List.append_nil]
    have hpos : headPos p + 5 + subLen wide = allocPos p := by rw [allocPos, hmir, halloc]; rfl
    have hlea : 1 ≤ (encodeProlog p.frameInsns).length := by
      rw [PrologShape.frameInsns, hmir]
      cases t <;> exact Nat.succ_le_succ (Nat.zero_le _)
    have hskips : p.headSkips < 8 := by
      rw [PrologShape.headSkips]
      split <;> decide
    have hroom : (allRecs p).reverse.length < 16 := by
      rw [List.length_reverse, allRecs, List.length_append, length_pushRecs, length_pushRecs]
      have hle := length_pushes p
      omega
    obtain ⟨turns, hturns, hparse⟩ := parse_head p (insns_ne_nil p halloc) body
    obtain ⟨turns, rfl⟩ : ∃ turns', turns = turns' + 1 := Nat.exists_eq_succ_of_ne_zero (by omega)
    rw [hparse, hbytes, headLoop_lea hskips t wide n _ hroom, takeScan]
    dsimp only
    rw [subScan_window (p.size_fits wide n halloc)]
    dsimp only
    rw [hpos, allocPos_mod p halloc, ← hsize]
    exact takeFrame_mir p (window p body) hmir (length_sub _ _) hpos rfl

end Win64Aux
end PgJitter
