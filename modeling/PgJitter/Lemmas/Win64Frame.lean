import PgJitter.Lemmas.Win64Codes

/-!
# The frame of a prologue

What a prologue leaves on the stack when it runs, and how the codes of its instructions undo it.
-/

namespace PgJitter
namespace Win64Aux

open ByteMemory FrameUnwind

/-! ## Running a prologue -/

/-- A machine in the middle of a prologue that was entered in `entry`: the stack pointer is at `top`, the frame pointer at `fp` if it is
set, the saved registers are in their cells, and those not in `dirty` are as they were. -/
structure Building (entry σ : Machine (BitVec 4)) (top : ℤ) (fp : Option ℤ) (cells : List (BitVec 4 × ℤ)) (dirty : List (BitVec 4)) :
    Prop where
  sp : σ.regs rsp = addr (entry.regs rsp) top
  frame : ∀ x, fp = some x → σ.regs rbp = addr (entry.regs rsp) x
  saved : Saved (entry.regs rsp) entry.regs entry.mem σ.mem cells
  inside : ∀ c ∈ cells, top ≤ c.2 ∧ c.2 + 8 ≤ 0
  kept : ∀ r, r ≠ rsp → r ∉ dirty → σ.regs r = entry.regs r
  nonpos : top ≤ 0

section

variable {entry σ : Machine (BitVec 4)} {top : ℤ} {fp : Option ℤ} {cells : List (BitVec 4 × ℤ)} {dirty : List (BitVec 4)}

theorem Building.enter (entry : Machine (BitVec 4)) : Building entry entry 0 none [] [] where
  sp := (addr_zero _).symm
  frame := fun _ h => absurd h (Option.some_ne_none _).symm
  saved := Saved.nil
  inside := fun _ h => absurd h List.not_mem_nil
  kept := fun _ _ _ => rfl
  nonpos := le_refl _

theorem rbp_ne_rsp : rbp ≠ rsp := by decide

/-- A push saves its register below the others. -/
theorem Building.push (h : Building entry σ top fp cells dirty) (hlow : -2 ^ 40 ≤ top - 8) {r : BitVec 4} (hsp : r ≠ rsp)
    (hr : r ∉ dirty) :
    Building entry ((PrologInsn.push r).exec σ) (top - 8) fp ((r, top - 8) :: cells) dirty := by
  have haddr : σ.regs rsp - 8#64 = addr (entry.regs rsp) (top - 8) := by
    rw [h.sp]
    exact addr_sub_nat _ _ 8
  have htop := h.nonpos
  refine ⟨?_, fun x hx => ?_, ?_, fun c hc => ?_, fun r' hsp' hr' => ?_, by omega⟩
  · exact (Machine.regs_set_self σ rsp _).trans haddr
  · exact (Machine.regs_set_of_ne σ (σ.regs rsp - 8#64) rbp_ne_rsp).trans (h.frame x hx)
  · have hcons := @Saved.cons _ _ _ _ _ _ h.saved r (top - 8) fun c hc => by
      have hin := h.inside c hc
      exact Or.inl ⟨by omega, by omega⟩
    rwa [← h.kept r hsp hr, ← haddr] at hcons
  · rcases List.mem_cons.1 hc with rfl | hc
    · exact ⟨le_refl _, by dsimp only; omega⟩
    · have hin := h.inside c hc
      omega
  · exact (Machine.regs_set_of_ne σ (σ.regs rsp - 8#64) hsp').trans (h.kept r' hsp' hr')

theorem runProlog_append (is js : List PrologInsn) (σ : Machine (BitVec 4)) : runProlog (is ++ js) σ = runProlog js (runProlog is σ) :=
  List.foldl_append

theorem runProlog_cons (i : PrologInsn) (is : List PrologInsn) (σ : Machine (BitVec 4)) :
    runProlog (i :: is) σ = runProlog is (i.exec σ) := rfl

/-- Pushes save their registers one below the other. -/
theorem Building.pushes (h : Building entry σ top fp cells dirty) (rs : List (BitVec 4)) (hlow : -2 ^ 40 ≤ top - 8 * rs.length)
    (hr : ∀ r ∈ rs, r ≠ rsp ∧ r ∉ dirty) :
    Building entry (runProlog (rs.map .push) σ) (top - 8 * rs.length) fp ((pushCells top rs).reverse ++ cells) dirty := by
  induction rs generalizing σ top cells with
  | nil =>
    rw [List.length_nil, Nat.cast_zero, Int.mul_zero, Int.sub_zero]
    exact h
  | cons r rs ih =>
    rw [List.length_cons, Nat.cast_succ] at hlow ⊢
    obtain ⟨hsp, hdirty⟩ := hr r List.mem_cons_self
    have hpush := h.push (by omega) hsp hdirty
    have hrest := ih hpush (by omega) fun r' hr' => hr r' (List.mem_cons_of_mem _ hr')
    rw [List.map_cons, runProlog_cons, pushCells, List.reverse_cons, List.append_assoc, List.singleton_append]
    rwa [show top - 8 - 8 * (rs.length : ℤ) = top - 8 * (rs.length + 1) by omega] at hrest

/-- `MOV RBP, RSP` sets the frame pointer to where the stack pointer is. -/
theorem Building.movRbpRsp (h : Building entry σ top fp cells dirty) (alt : Bool) :
    Building entry ((PrologInsn.movRbpRsp alt).exec σ) top (some top) cells (rbp :: dirty) := by
  refine ⟨?_, fun x hx => ?_, h.saved, h.inside, fun r hsp hr => ?_, h.nonpos⟩
  · exact (Machine.regs_set_of_ne σ _ rbp_ne_rsp.symm).trans h.sp
  · obtain rfl := Option.some.inj hx
    exact (Machine.regs_set_self σ _ _).trans h.sp
  · obtain ⟨hne, hdirty⟩ := not_or.1 (mt List.mem_cons.2 hr)
    exact (Machine.regs_set_of_ne σ _ hne).trans (h.kept r hsp hdirty)

/-- `SUB RSP` makes room below. -/
theorem Building.subRsp (h : Building entry σ top fp cells dirty) (wide : Bool) (n : Nat) :
    Building entry ((PrologInsn.subRsp wide n).exec σ) (top - n) fp cells dirty := by
  have htop := h.nonpos
  refine ⟨?_, fun x hx => ?_, h.saved, fun c hc => ?_, fun r hsp hr => ?_, by omega⟩
  · exact (Machine.regs_set_self σ _ _).trans (by rw [h.sp, addr_sub_nat])
  · exact (Machine.regs_set_of_ne σ _ rbp_ne_rsp).trans (h.frame x hx)
  · have hin := h.inside c hc
    omega
  · exact (Machine.regs_set_of_ne σ _ hsp).trans (h.kept r hsp hr)

/-- A word is saved in the frame, at an address that lies in it apart from the other cells. -/
theorem Building.store (h : Building entry σ top fp cells dirty) {r : BitVec 4} (hsp : r ≠ rsp) (hr : r ∉ dirty) {x : ℤ}
    (hin : top ≤ x ∧ x + 8 ≤ 0) (hlow : -2 ^ 40 ≤ top) (hx : ∀ c ∈ cells, x + 8 ≤ c.2 ∨ c.2 + 8 ≤ x) :
    Building entry { σ with mem := FrameUnwind.store σ.mem (addr (entry.regs rsp) x) (σ.regs r) } top fp ((r, x) :: cells) dirty := by
  refine ⟨h.sp, h.frame, ?_, fun c hc => ?_, h.kept, h.nonpos⟩
  · have hcons := @Saved.cons _ _ _ _ _ _ h.saved r x fun c hc => by
      have hc' := h.inside c hc
      rcases hx c hc with hlt | hlt
      · exact Or.inl ⟨hlt, by omega⟩
      · exact Or.inr ⟨hlt, by omega⟩
    rwa [← h.kept r hsp hr] at hcons
  · rcases List.mem_cons.1 hc with rfl | hc
    · exact hin
    · exact h.inside c hc

/-- Saves below the frame pointer. -/
theorem Building.saves {f : ℤ} (h : Building entry σ top (some f) cells dirty) (hlow : -2 ^ 40 ≤ top) {ss : List (BitVec 8 × BitVec 4)}
    (hr : ∀ s ∈ ss, s.2 ≠ rsp ∧ s.2 ∉ dirty) (hin : ∀ s ∈ ss, top ≤ f + s.1.toInt ∧ f + s.1.toInt + 8 ≤ 0)
    (hapart : ∀ s ∈ ss, ∀ c ∈ cells, f + s.1.toInt + 8 ≤ c.2 ∨ c.2 + 8 ≤ f + s.1.toInt)
    (hss : ss.Pairwise fun s s' => f + s.1.toInt + 8 ≤ f + s'.1.toInt ∨ f + s'.1.toInt + 8 ≤ f + s.1.toInt) :
    Building entry (runProlog (ss.map fun s => .save s.1 s.2) σ) top (some f)
      ((ss.map fun s => (s.2, f + s.1.toInt)).reverse ++ cells) dirty := by
  induction ss generalizing σ cells with
  | nil => exact h
  | cons s ss ih =>
    obtain ⟨hfirst, hrest⟩ := List.pairwise_cons.1 hss
    obtain ⟨hsp, hdirty⟩ := hr s List.mem_cons_self
    have hstore := h.store hsp hdirty (hin s List.mem_cons_self) hlow (hapart s List.mem_cons_self)
    have haddr : σ.regs rbp + s.1.signExtend 64 = addr (entry.regs rsp) (f + s.1.toInt) := by
      rw [h.frame f rfl]
      exact addr_add _ _ _
    rw [← haddr] at hstore
    have hnext := ih hstore (fun s' hs' => hr s' (List.mem_cons_of_mem _ hs')) (fun s' hs' => hin s' (List.mem_cons_of_mem _ hs'))
      (fun s' hs' c hc => ?_) hrest
    · rw [List.map_cons, runProlog_cons, List.map_cons, List.reverse_cons, List.append_assoc, List.singleton_append]
      exact hnext
    · rcases List.mem_cons.1 hc with rfl | hc
      · exact (hfirst s' hs').symm
      · exact hapart s' (List.mem_cons_of_mem _ hs') c hc

theorem MirTemp.reg_ne (t : MirTemp) : t.reg ≠ rsp ∧ t.reg ≠ rbp ∧ t.reg ∉ nonvolatile := by
  cases t <;> decide

/-- The frame setup of MIR: `RBP` is saved in the allocation, and becomes a frame pointer eight bytes below where the allocation starts. -/
theorem Building.mir (h : Building entry σ top none cells []) {t : MirTemp} {wide : Bool} {n : Nat} {disp : Option (BitVec 8)}
    (hlow : -2 ^ 40 ≤ top - n) (hin : top - n ≤ top - n + (disp.getD 0#8).toInt ∧ top - n + (disp.getD 0#8).toInt + 8 ≤ top) :
    Building entry (runProlog [.lea t, .subRsp wide n, .saveRbp disp, .movRbp t] σ) (top - n) (some (top - 8))
      ((rbp, top - n + (disp.getD 0#8).toInt) :: cells) [rbp, t.reg] := by
  obtain ⟨htsp, htbp, _⟩ := MirTemp.reg_ne t
  have htop := h.nonpos
  -- the `LEA` takes the frame pointer from the stack pointer
  have hlea : Building entry ((PrologInsn.lea t).exec σ) top none cells [t.reg] := by
    refine ⟨?_, fun x hx => absurd hx (Option.some_ne_none _).symm, h.saved, h.inside, fun r hsp hr => ?_, htop⟩
    · exact (Machine.regs_set_of_ne σ (σ.regs rsp - 8#64) htsp.symm).trans h.sp
    · exact (Machine.regs_set_of_ne σ (σ.regs rsp - 8#64) (mt List.mem_singleton.2 hr)).trans (h.kept r hsp List.not_mem_nil)
  have htemp : ((PrologInsn.lea t).exec σ).regs t.reg = addr (entry.regs rsp) (top - 8) := by
    refine (Machine.regs_set_self σ t.reg _).trans ?_
    rw [h.sp]
    exact addr_sub_nat _ _ 8
  have hsub := hlea.subRsp wide n
  have htemp' : ((PrologInsn.subRsp wide n).exec ((PrologInsn.lea t).exec σ)).regs t.reg = addr (entry.regs rsp) (top - 8) :=
    (Machine.regs_set_of_ne ((PrologInsn.lea t).exec σ) _ htsp).trans htemp
  -- the word of `RBP` lies in the allocation, below all that was pushed
  have hstore := hsub.store rbp_ne_rsp (fun hbp => htbp (List.mem_singleton.1 hbp).symm) (x := top - n + (disp.getD 0#8).toInt)
    ⟨hin.1, by omega⟩ hlow fun c hc => Or.inl (by have hc' := h.inside c hc; omega)
  have haddr : ((PrologInsn.subRsp wide n).exec ((PrologInsn.lea t).exec σ)).regs rsp + (disp.getD 0#8).signExtend 64 =
      addr (entry.regs rsp) (top - n + (disp.getD 0#8).toInt) := by
    rw [hsub.sp]
    exact addr_add _ _ _
  rw [← haddr] at hstore
  refine ⟨?_, fun x hx => ?_, hstore.saved, hstore.inside, fun r hsp hr => ?_, hstore.nonpos⟩
  · exact (Machine.regs_set_of_ne _ _ rbp_ne_rsp.symm).trans hstore.sp
  · obtain rfl := Option.some.inj hx
    exact (Machine.regs_set_self _ rbp _).trans htemp'
  · obtain ⟨hne, hdirty⟩ := not_or.1 (mt List.mem_cons.2 hr)
    exact (Machine.regs_set_of_ne _ _ hne).trans (hstore.kept r hsp hdirty)

end

/-- The cells of later pushes lie below those of earlier ones. -/
theorem pushCells_append (top : ℤ) (rs rs' : List (BitVec 4)) :
    pushCells top (rs ++ rs') = pushCells top rs ++ pushCells (top - 8 * rs.length) rs' := by
  induction rs generalizing top with
  | nil => rw [List.length_nil, Nat.cast_zero, Int.mul_zero, Int.sub_zero]; rfl
  | cons r rs ih =>
    have htop : top - 8 - 8 * (rs.length : ℤ) = top - 8 * ((r :: rs).length : ℤ) := by
      rw [List.length_cons, Nat.cast_succ]
      omega
    rw [List.cons_append, pushCells, ih, htop]
    rfl

theorem fst_pushCells (top : ℤ) (rs : List (BitVec 4)) : (pushCells top rs).map Prod.fst = rs := by
  induction rs generalizing top with
  | nil => rfl
  | cons r rs ih => rw [pushCells, List.map_cons, ih]

variable (p : Prologue)

theorem fst_cells : p.cells.map Prod.fst = p.saved := by
  rw [PrologShape.cells, List.map_append, fst_pushCells]
  rfl

theorem rsp_not_pushed {r : BitVec 4} (hr : r ∈ p.allPushes) : r ≠ rsp := by
  rintro rfl
  exact p.rsp_not_saved (List.mem_append_left _ hr)

/-- Where the frame pointer is after the pushes. -/
def headFp : Option ℤ := if p.frame.isSome then some p.fpPos else none

/-- What is not as it was after the pushes. -/
def headDirty : List (BitVec 4) := if p.frame.isSome then [rbp] else []

/-- The pushes of a prologue. -/
theorem building_head (entry : Machine (BitVec 4)) :
    Building entry (runProlog p.headInsns (runProlog (if p.endbr then [.endbr64] else []) entry)) (-(8 * p.allPushes.length : ℤ)) (headFp p)
      (pushCells 0 p.allPushes).reverse (headDirty p) := by
  have hlen := length_saved p
  have hendbr : runProlog (if p.endbr then [.endbr64] else []) entry = entry := by cases p.endbr <;> rfl
  have hpush := (Building.enter entry).pushes p.pushes (by rw [PrologShape.allPushes, List.length_append] at hlen; omega) fun r hr =>
    ⟨rsp_not_pushed p (List.mem_append_left _ hr), List.not_mem_nil⟩
  rw [hendbr, PrologShape.headInsns, runProlog_append, headFp, headDirty]
  cases hf : p.frame with
  | none =>
    have hall : p.allPushes = p.pushes := by rw [PrologShape.allPushes, latePushes_of_none p hf, List.append_nil]
    rw [hall, if_neg (by decide), if_neg (by decide)]
    rwa [List.append_nil, Int.zero_sub] at hpush
  | some f =>
    obtain ⟨alt, late⟩ := f
    have hlate : p.latePushes = late := by rw [PrologShape.latePushes, hf]; rfl
    have hall : p.allPushes = p.pushes ++ late := by rw [PrologShape.allPushes, hlate]
    have hrbp := p.rbp_not_late (by rw [hf]; rfl)
    rw [hlate] at hrbp
    rw [hall, List.length_append] at hlen
    have hmov := hpush.movRbpRsp alt
    have hrest := hmov.pushes late (by omega) fun r hr => by
      refine ⟨rsp_not_pushed p (by rw [hall]; exact List.mem_append_right _ hr), fun hbp => ?_⟩
      obtain rfl := List.mem_singleton.1 hbp
      exact hrbp (List.mem_append_left _ hr)
    have htop : 0 - 8 * (p.pushes.length : ℤ) - 8 * late.length = -(8 * p.allPushes.length : ℤ) := by
      rw [hall, List.length_append, Nat.cast_add]
      omega
    have hfp : p.fpPos = 0 - 8 * (p.pushes.length : ℤ) := by
      rw [PrologShape.fpPos, mir_of_frame p hf, if_neg (by decide)]
      omega
    rw [htop] at hrest
    rw [Option.isSome_some, if_pos rfl, if_pos rfl, hfp, hall, pushCells_append, List.reverse_append]
    rw [List.append_nil, hall] at hrest
    exact hrest

/-- The frame pointer of the prologue, if it sets one. -/
def frameFp : Option ℤ := if p.setsFrame then some p.fpPos else none

/-- What is not as it was before the saves. -/
def frameDirty : List (BitVec 4) := ((p.mir.map fun m => [rbp, m.1.reg]).getD []) ++ headDirty p

theorem rspPos_eq : p.rspPos = -(8 * p.allPushes.length : ℤ) - p.size := by
  rw [PrologShape.rspPos]
  omega

theorem rspPos_ge : -2 ^ 40 ≤ p.rspPos := by
  have hlen := length_saved p
  have hsize := size_lt p
  rw [PrologShape.rspPos]
  omega

/-- The allocation of a prologue. -/
theorem building_frame {entry σ : Machine (BitVec 4)}
    (h : Building entry σ (-(8 * p.allPushes.length : ℤ)) (headFp p) (pushCells 0 p.allPushes).reverse (headDirty p)) :
    Building entry (runProlog p.frameInsns σ) p.rspPos (frameFp p) (p.rbpCell ++ (pushCells 0 p.allPushes).reverse) (frameDirty p) := by
  have hlow := rspPos_ge p
  rw [PrologShape.frameInsns, frameFp, frameDirty, PrologShape.rbpCell, PrologShape.setsFrame]
  cases hmir : p.mir with
  | none =>
    have hfp : headFp p = if p.frame.isSome then some p.fpPos else none := rfl
    rw [hfp] at h
    cases halloc : p.alloc with
    | none =>
      have hsize : p.size = 0 := by rw [PrologShape.size, halloc]; rfl
      rw [rspPos_eq, hsize, Nat.cast_zero, Int.sub_zero]
      exact h
    | some a =>
      have hsub := h.subRsp a.1 a.2
      have hsize : p.size = a.2 := by rw [PrologShape.size, halloc]; rfl
      rw [rspPos_eq, hsize]
      exact hsub
  | some m =>
    obtain ⟨t, disp⟩ := m
    obtain ⟨wide, halloc⟩ := alloc_of_size p (by have hsize := size_of_mir p hmir; omega)
    have hframe : p.frame = none := p.frame_once (by rw [hmir]; rfl)
    have hcell : (rbp, p.rspPos + (disp.getD 0#8).toInt) ∈ p.localCells := by
      rw [PrologShape.localCells, PrologShape.rbpCell, hmir]
      exact List.mem_cons_self
    have hin := p.cells_inside _ hcell
    rw [rspPos_eq] at hin hlow
    rw [headFp, headDirty, hframe, if_neg (by decide), if_neg (by decide)] at h
    have hfp : p.fpPos = -(8 * p.allPushes.length : ℤ) - 8 := by
      rw [PrologShape.fpPos, hmir, Option.isSome_some, if_pos rfl]
      omega
    rw [halloc, hfp, rspPos_eq, headDirty, hframe]
    exact h.mir hlow ⟨hin.1, by dsimp only at hin ⊢; omega⟩

/-- The cells of pushes lie at most eight bytes a push below the top. -/
theorem pushCells_ge {top : ℤ} {rs : List (BitVec 4)} {c : BitVec 4 × ℤ} (hc : c ∈ pushCells top rs) : top - 8 * rs.length ≤ c.2 := by
  induction rs generalizing top with
  | nil => exact absurd hc List.not_mem_nil
  | cons r rs ih =>
    rw [List.length_cons, Nat.cast_succ]
    rcases List.mem_cons.1 hc with rfl | hc
    · dsimp only
      omega
    · have hrest := ih hc
      omega

/-- A pushed word lies above the allocation. -/
theorem pushCells_above {c : BitVec 4 × ℤ} (hc : c ∈ pushCells 0 p.allPushes) : p.rspPos + p.size ≤ c.2 := by
  have hge := pushCells_ge hc
  rw [rspPos_eq]
  omega

theorem mem_saveCells {s : BitVec 8 × BitVec 4} (hs : s ∈ p.saves) : (s.2, p.fpPos + s.1.toInt) ∈ p.localCells :=
  List.mem_append_right _ (List.mem_map_of_mem hs)

theorem snd_mem_saved {s : BitVec 8 × BitVec 4} (hs : s ∈ p.saves) : s.2 ∈ p.localCells.map Prod.fst :=
  List.mem_map_of_mem (mem_saveCells p hs)

/-- The frame pointer is not saved below itself. -/
theorem save_ne_rbp {s : BitVec 8 × BitVec 4} (hs : s ∈ p.saves) : s.2 ≠ rbp := by
  intro hrbp
  have hset := p.saves_frame (List.ne_nil_of_mem hs)
  rw [PrologShape.setsFrame, Bool.or_eq_true] at hset
  rcases hset with hmir | hframe
  · obtain ⟨m, hm⟩ := Option.isSome_iff_exists.1 hmir
    have hnodup := p.saved_nodup.of_append_right
    rw [PrologShape.localCells, PrologShape.rbpCell, hm, List.map_append, fst_saveCells] at hnodup
    exact List.disjoint_of_nodup_append hnodup (List.mem_singleton.2 rfl) (hrbp ▸ List.mem_map_of_mem hs)
  · exact p.rbp_not_late hframe (List.mem_append_right _ (hrbp ▸ List.mem_map_of_mem hs))

/-- A register is saved as it was on entry. -/
theorem save_not_dirty {s : BitVec 8 × BitVec 4} (hs : s ∈ p.saves) : s.2 ≠ rsp ∧ s.2 ∉ frameDirty p := by
  have hrbp := save_ne_rbp p hs
  refine ⟨fun hrsp => p.rsp_not_saved (List.mem_append_right _ (hrsp ▸ snd_mem_saved p hs)), ?_⟩
  have hhead : s.2 ∉ headDirty p := by
    rw [headDirty]
    split
    · exact fun h => hrbp (List.mem_singleton.1 h)
    · exact List.not_mem_nil
  rw [frameDirty, List.mem_append, not_or]
  refine ⟨?_, hhead⟩
  cases p.mir with
  | none => exact List.not_mem_nil
  | some m =>
    intro h
    rcases List.mem_cons.1 h with h | h
    · exact hrbp h
    · exact (MirTemp.reg_ne m.1).2.2 (List.mem_singleton.1 h ▸ p.saves_nonvolatile s hs)

/-- The machine after a prologue. -/
theorem building (entry : Machine (BitVec 4)) :
    Building entry (runProlog p.insns entry) p.rspPos (frameFp p) (p.saveCells.reverse ++ (p.rbpCell ++ (pushCells 0 p.allPushes).reverse))
      (frameDirty p) := by
  have hframe := building_frame p (building_head p entry)
  have htop := rspPos_eq p
  rw [PrologShape.insns, runProlog_append, runProlog_append, runProlog_append]
  by_cases hsaves : p.saves = []
  · rw [PrologShape.saveInsns, PrologShape.saveCells, hsaves]
    exact hframe
  · have hset := p.saves_frame hsaves
    have hfp : frameFp p = some p.fpPos := by rw [frameFp, if_pos hset]
    have hapart := p.cells_apart
    rw [PrologShape.localCells, List.pairwise_append] at hapart
    obtain ⟨_, hpair, hcross⟩ := hapart
    rw [hfp] at hframe ⊢
    refine hframe.saves (rspPos_ge p) (fun s hs => save_not_dirty p hs) (fun s hs => ?_) (fun s hs c hc => ?_) (List.pairwise_map.1 hpair)
    · have hin := p.cells_inside _ (mem_saveCells p hs)
      dsimp only at hin
      omega
    · rcases List.mem_append.1 hc with hc | hc
      · exact (hcross c hc _ (List.mem_map_of_mem hs)).symm
      · have habove := pushCells_above p (List.mem_reverse.1 hc)
        have hin := p.cells_inside _ (mem_saveCells p hs)
        dsimp only at hin
        omega

/-! ## The operations of a prologue -/

/-- What undoes the pushes and the `MOV RBP, RSP`. -/
def headOps : List (Op (BitVec 4)) :=
  p.latePushes.reverse.map .pop ++ ((if p.frame.isSome then [.rebase] else []) ++ p.pushes.reverse.map .pop)

/-- What undoes the allocation. -/
def allocOps : List (Op (BitVec 4)) := if p.size = 0 then [] else [.free p.size]

/-- What undoes the frame setup of MIR. -/
def mirOps : List (Op (BitVec 4)) :=
  (p.mir.map fun m => [.rebase, .reload rbp ((m.2.getD 0#8).toNat / 8 % 2 ^ 16 * 8)]).getD []

/-- What undoes a save. -/
def saveOp (s : SaveRec) : Op (BitVec 4) := .reload s.reg (s.rspOff / 8 % 2 ^ 16 * 8)

/-- What undoes the saves. -/
def saveOps : List (Op (BitVec 4)) := (saveRecs p.size (mirPos p) p.saves).reverse.map saveOp

/-- What undoes a prologue. -/
def opsOf : List (Op (BitVec 4)) := saveOps p ++ (mirOps p ++ (allocOps p ++ headOps p))

theorem map_pushRecs (q : ParsedPrologue) (pos : Nat) (rs : List (BitVec 4)) :
    ((pushRecs pos rs).map EmitItem.push).map (fun e => (codeOf q e).op) = rs.map Op.pop := by
  induction rs generalizing pos with
  | nil => rfl
  | cons r rs ih =>
    rw [pushRecs, List.map_cons, List.map_cons, List.map_cons, ih]
    rfl

/-- The codes undo the prologue. -/
theorem map_op_codes : (infoOf p).codes.map UnwindCode.op = opsOf p := by
  have hsaves : ∀ ss : List SaveRec, (ss.map EmitItem.save).map (fun e => (codeOf (parsed p) e).op) = ss.map saveOp := by
    intro ss
    rw [List.map_map]
    rfl
  have hhead : (headItems p).reverse.map (fun e => (codeOf (parsed p) e).op) = headOps p := by
    rw [headItems, headOps, List.reverse_append, List.map_append, List.map_reverse, List.map_reverse, map_pushRecs]
    cases hf : p.frame with
    | none =>
      rw [latePushes_of_none p hf, List.map_reverse, List.map_reverse]
      rfl
    | some f =>
      rw [Option.isSome_some, if_pos rfl, if_pos rfl, List.map_cons, map_pushRecs, List.reverse_cons, List.append_assoc, List.map_reverse,
        List.map_reverse]
      rfl
  have halloc : (allocItems p).reverse.map (fun e => (codeOf (parsed p) e).op) = allocOps p := by
    rw [allocItems, allocOps]
    split <;> rfl
  have hmir : (mirItems p).reverse.map (fun e => (codeOf (parsed p) e).op) = mirOps p := by
    rw [mirItems, mirOps, rbpRec]
    cases p.mir <;> rfl
  have hmap : (infoOf p).codes.map UnwindCode.op = (items p).reverse.map fun e => (codeOf (parsed p) e).op := by
    rw [infoOf, List.map_map]
    rfl
  rw [hmap, items, List.reverse_append, List.reverse_append, List.reverse_append, List.map_append, List.map_append, List.map_append, hhead,
    halloc, hmir, List.map_reverse, hsaves, ← List.map_reverse, opsOf, saveOps, List.append_assoc, List.append_assoc]

theorem depth_pops (rs : List (BitVec 4)) : depth (rs.map Op.pop) = 8 * rs.length := by
  induction rs with
  | nil => rfl
  | cons r rs ih =>
    rw [List.map_cons, depth, ih, List.length_cons, Op.size]
    omega

theorem depth_headOps : depth (headOps p) = 8 * p.allPushes.length := by
  have hframe : depth (if p.frame.isSome then [Op.rebase] else [] : List (Op (BitVec 4))) = 0 := by split <;> rfl
  rw [headOps, depth_append, depth_append, depth_pops, depth_pops, hframe, PrologShape.allPushes, List.length_append, List.length_reverse,
    List.length_reverse]
  omega

theorem depth_allocOps : depth (allocOps p) = p.size := by
  rw [allocOps]
  split
  · rename_i h
    rw [h]
    rfl
  · rfl

theorem depth_mirOps : depth (mirOps p) = 0 := by
  rw [mirOps]
  cases p.mir <;> rfl

theorem depth_saveOps : depth (saveOps p) = 0 := by
  rw [saveOps]
  induction (saveRecs p.size (mirPos p) p.saves).reverse with
  | nil => rfl
  | cons s ss ih => rw [List.map_cons, depth, ih]; rfl

/-- The operations undo the whole way of the stack pointer. -/
theorem depth_opsOf : (depth (opsOf p) : ℤ) = -p.rspPos := by
  rw [opsOf, depth_append, depth_append, depth_append, depth_saveOps, depth_mirOps, depth_allocOps, depth_headOps, rspPos_eq]
  push_cast
  ring

/-- The registers of the unwinder. -/
def frameRegs : FrameRegs (BitVec 4) := ⟨rsp, (infoOf p).frameReg, 16 * (infoOf p).frameOffset⟩

/-- The base of the frame, as the unwinder finds it in the body. -/
def baseOf (σ : Machine (BitVec 4)) : BitVec 64 :=
  if p.setsFrame then σ.regs rbp - BitVec.ofNat 64 (16 * (infoOf p).frameOffset) else σ.regs rsp

/-- What is read is what the prologue is, but for the size of the prologue. -/
structure Reads (u : UnwindInfo) : Prop where
  codes : u.codes = (infoOf p).codes
  frameReg : u.frameReg = (infoOf p).frameReg
  frameOffset : u.frameOffset = (infoOf p).frameOffset

theorem Reads.refl : Reads p (infoOf p) := ⟨rfl, rfl, rfl⟩

/-- No code stands after the prologue. -/
theorem offset_le {c : UnwindCode} (hc : c ∈ (infoOf p).codes) : c.offset ≤ p.bytes.length := by
  obtain ⟨e, he, rfl⟩ := List.mem_map.1 hc
  exact (Nat.mod_le _ _).trans ((ascending_items p).bound e (List.mem_reverse.1 he)).2

/-- A frame pointer that is set has its code. -/
theorem rebase_mem (hset : p.setsFrame) : .rebase ∈ opsOf p := by
  rw [← map_op_codes, infoOf, List.map_map]
  exact List.mem_map.2 ⟨.fpreg, List.mem_reverse.2 ((fpreg_mem_items p).2 hset), rfl⟩

/-- In the body every code is undone, whatever size the prologue is said to have. -/
theorem virtualUnwind_eq {u : UnwindInfo} (hu : Reads p u) {pc : Nat} (hpc : p.bytes.length ≤ pc) (σ : Machine (BitVec 4)) :
    u.virtualUnwind pc σ = unwind (frameRegs p) (baseOf p σ) (opsOf p) σ := by
  have hall : ((infoOf p).codes.filter fun c => decide (u.prologSize ≤ pc ∨ c.offset ≤ pc)) = (infoOf p).codes :=
    List.filter_eq_self.2 fun c hc => decide_eq_true (Or.inr ((offset_le p hc).trans hpc))
  rw [UnwindInfo.virtualUnwind, hu.codes, hall, map_op_codes, hu.frameReg, hu.frameOffset, frameRegs, baseOf]
  congr 1
  cases hset : p.setsFrame with
  | true =>
    have hreg : (infoOf p).frameReg = rbp := by rw [infoOf, hset]; rfl
    rw [hreg, if_pos ⟨by decide, Or.inr (rebase_mem p hset)⟩, if_pos rfl]
  | false =>
    have hreg : (infoOf p).frameReg = 0#4 := by rw [infoOf, hset]; rfl
    rw [hreg, if_neg (fun h => h.1 rfl), if_neg Bool.false_ne_true]

/-! ## The frame in the body -/

theorem mem_cells {c : BitVec 4 × ℤ} (hc : c ∈ p.cells) :
    c ∈ p.saveCells.reverse ++ (p.rbpCell ++ (pushCells 0 p.allPushes).reverse) := by
  simp only [PrologShape.cells, PrologShape.localCells, List.mem_append, List.mem_reverse] at hc ⊢
  rcases hc with hc | hc | hc
  · exact Or.inr (Or.inr hc)
  · exact Or.inr (Or.inl hc)
  · exact Or.inl hc

variable {p} in
/-- In the body every saved word is in its cell. -/
theorem load_cell {entry σ : Machine (BitVec 4)} (h : p.InBody entry σ) {c : BitVec 4 × ℤ} (hc : c ∈ p.cells) :
    load σ.mem (addr (entry.regs rsp) c.2) = entry.regs c.1 := by
  rw [load_congr (h.cells c hc)]
  exact (building p entry).saved.load_cell (mem_cells p hc)

variable {p} in
theorem InBody.sp {entry σ : Machine (BitVec 4)} (h : p.InBody entry σ) : σ.regs rsp = addr (entry.regs rsp) p.rspPos :=
  h.rsp.trans (building p entry).sp

variable {p} in
theorem InBody.fp {entry σ : Machine (BitVec 4)} (h : p.InBody entry σ) (hset : p.setsFrame) :
    σ.regs rbp = addr (entry.regs rsp) p.fpPos := by
  refine (h.rbp hset).trans ((building p entry).frame _ ?_)
  rw [frameFp, if_pos hset]

theorem rebase_not_mem_pops (rs : List (BitVec 4)) : (Op.rebase : Op (BitVec 4)) ∉ rs.map Op.pop := by
  intro h
  obtain ⟨r, _, hr⟩ := List.mem_map.1 h
  cases hr

section

variable {f : FrameRegs (BitVec 4)} {base fpv s : BitVec 64} {entry : BitVec 4 → BitVec 64} {m : BitVec 64 → BitVec 8}
  {ops : List (Op (BitVec 4))}

/-- Pushed words are where they are popped. -/
theorem stored_pops {rs : List (BitVec 4)} (top : ℤ) (htop : (depth ops : ℤ) = -top)
    (hload : ∀ c ∈ pushCells top rs, load m (addr s c.2) = entry c.1) (hsp : ∀ r ∈ rs, r ≠ f.sp) (hfp : .rebase ∈ ops → ∀ r ∈ rs, r ≠ f.fp)
    (h : Stored f base fpv s entry m ops) : Stored f base fpv s entry m (rs.reverse.map .pop ++ ops) := by
  induction rs generalizing top ops with
  | nil => exact h
  | cons r rs ih =>
    have hdepth : -(8 + depth ops : ℤ) = top - 8 := by omega
    have hfirst : load m (addr s (top - 8)) = entry r := hload (r, top - 8) List.mem_cons_self
    rw [← hdepth] at hfirst
    have hone : Stored f base fpv s entry m (.pop r :: ops) :=
      ⟨hsp r List.mem_cons_self, fun hin => hfp hin r List.mem_cons_self, hfirst, h⟩
    have hdepth' : (depth (.pop r :: ops) : ℤ) = -(top - 8) := by
      rw [depth, Op.size]
      push_cast
      omega
    have hrest := ih (top - 8) hdepth' (fun c hc => hload c (List.mem_cons_of_mem _ hc)) (fun r' hr' => hsp r' (List.mem_cons_of_mem _ hr'))
      (fun hin r' hr' => hfp ((List.mem_cons.1 hin).resolve_left fun heq => by cases heq) r' (List.mem_cons_of_mem _ hr')) hone
    rw [List.reverse_cons, List.map_append, List.append_assoc]
    exact hrest

/-- Words saved below the frame pointer are where they are reloaded. -/
theorem stored_reloads {ss : List SaveRec} (hload : ∀ x ∈ ss, load m (base + BitVec.ofNat 64 (x.rspOff / 8 % 2 ^ 16 * 8)) = entry x.reg)
    (hsp : ∀ x ∈ ss, x.reg ≠ f.sp) (hfp : ∀ x ∈ ss, x.reg ≠ f.fp) (h : Stored f base fpv s entry m ops) :
    Stored f base fpv s entry m (ss.map saveOp ++ ops) := by
  induction ss with
  | nil => exact h
  | cons x ss ih =>
    have hrest := ih (fun y hy => hload y (List.mem_cons_of_mem _ hy)) (fun y hy => hsp y (List.mem_cons_of_mem _ hy))
      fun y hy => hfp y (List.mem_cons_of_mem _ hy)
    exact ⟨hsp x List.mem_cons_self, fun _ => hfp x List.mem_cons_self, hload x List.mem_cons_self, hrest⟩

end

/-- Every save is recorded from what it saves. -/
theorem mem_saveRecs {size pos : Nat} {ss : List (BitVec 8 × BitVec 4)} {x : SaveRec} (hx : x ∈ saveRecs size pos ss) :
    ∃ ss₁ s ss₂, ss = ss₁ ++ s :: ss₂ ∧ x.reg = s.2 ∧ x.codeOff = pos + 4 * ss₁.length + 4 ∧
      0 ≤ (size : ℤ) - 8 + s.1.toInt ∧ x.rspOff = ((size : ℤ) - 8 + s.1.toInt).toNat := by
  induction ss generalizing pos with
  | nil => exact absurd hx List.not_mem_nil
  | cons s ss ih =>
    have hrest : x ∈ saveRecs size (pos + 4) ss → ∃ ss₁ s' ss₂, s :: ss = ss₁ ++ s' :: ss₂ ∧ x.reg = s'.2 ∧
        x.codeOff = pos + 4 * ss₁.length + 4 ∧ 0 ≤ (size : ℤ) - 8 + s'.1.toInt ∧ x.rspOff = ((size : ℤ) - 8 + s'.1.toInt).toNat := by
      intro hx
      obtain ⟨ss₁, s', ss₂, rfl, hreg, hoff, hnonneg, hrsp⟩ := ih hx
      exact ⟨s :: ss₁, s', ss₂, rfl, hreg, by rw [hoff, List.length_cons]; omega, hnonneg, hrsp⟩
    rw [saveRecs] at hx
    split at hx
    · rename_i hnonneg
      rcases List.mem_cons.1 hx with rfl | hx
      · exact ⟨[], s, ss, rfl, rfl, rfl, hnonneg, rfl⟩
      · exact hrest hx
    · exact hrest hx

/-- A save at or above the stack pointer is recorded. -/
theorem saveRecs_of_mem (size pos : Nat) {ss : List (BitVec 8 × BitVec 4)} {s : BitVec 8 × BitVec 4} (hs : s ∈ ss)
    (h : 0 ≤ (size : ℤ) - 8 + s.1.toInt) : ∃ x ∈ saveRecs size pos ss, x.reg = s.2 := by
  induction ss generalizing pos with
  | nil => exact absurd hs List.not_mem_nil
  | cons s' ss ih =>
    rw [saveRecs]
    rcases List.mem_cons.1 hs with rfl | hs
    · rw [if_pos h]
      exact ⟨_, List.mem_cons_self, rfl⟩
    · obtain ⟨x, hx, hreg⟩ := ih (pos + 4) hs
      refine ⟨x, ?_, hreg⟩
      split
      · exact List.mem_cons_of_mem _ hx
      · exact hx

/-! ## Unwinding the frame -/

theorem frameRegs_ne : (frameRegs p).fp ≠ (frameRegs p).sp := by
  rw [frameRegs, infoOf]
  dsimp only
  split <;> decide

theorem frameRegs_fp (hset : p.setsFrame) : (frameRegs p).fp = rbp := by
  rw [frameRegs, infoOf]
  exact if_pos hset

theorem offset_of_none (hmir : p.mir = none) : (frameRegs p).offset = 0 := by
  rw [frameRegs, infoOf, hmir]
  rfl

section

variable {s : BitVec 64} {entry : BitVec 4 → BitVec 64} {m : BitVec 64 → BitVec 8}

/-- The pushed words can be popped. -/
theorem stored_headOps (base : BitVec 64) (hload : ∀ c ∈ pushCells 0 p.allPushes, load m (addr s c.2) = entry c.1) :
    Stored (frameRegs p) base (addr s p.fpPos) s entry m (headOps p) := by
  have hsp : ∀ r ∈ p.allPushes, r ≠ (frameRegs p).sp := fun r hr => rsp_not_pushed p hr
  rw [PrologShape.allPushes, pushCells_append] at hload
  have hfirst : Stored (frameRegs p) base (addr s p.fpPos) s entry m (p.pushes.reverse.map .pop ++ []) :=
    stored_pops 0 rfl (fun c hc => hload c (List.mem_append_left _ hc)) (fun r hr => hsp r (List.mem_append_left _ hr))
      (fun hin => absurd hin List.not_mem_nil) trivial
  rw [List.append_nil] at hfirst
  have hdepth : (depth (p.pushes.reverse.map Op.pop : List (Op (BitVec 4))) : ℤ) = 8 * p.pushes.length := by
    rw [depth_pops, List.length_reverse]
    push_cast
    rfl
  rw [headOps]
  cases hf : p.frame with
  | none =>
    rw [latePushes_of_none p hf]
    exact hfirst
  | some f =>
    have hset : p.setsFrame := by rw [PrologShape.setsFrame, hf]; exact Bool.or_true _
    have hmir := mir_of_frame p hf
    have hfp : p.fpPos = -(8 * p.pushes.length : ℤ) := by rw [PrologShape.fpPos, hmir, if_neg (by decide)]
    have hrebase : Stored (frameRegs p) base (addr s p.fpPos) s entry m (.rebase :: p.pushes.reverse.map .pop) := by
      refine ⟨?_, hfirst⟩
      rw [offset_of_none p hmir, hfp, hdepth]
      exact BitVec.sub_zero _
    have hrbp := p.rbp_not_late (by rw [hf]; rfl)
    refine stored_pops (0 - 8 * p.pushes.length) ?_ (fun c hc => hload c (List.mem_append_right _ hc))
      (fun r hr => hsp r (List.mem_append_right _ hr)) (fun _ r hr hbp => ?_) hrebase
    · rw [Option.isSome_some, if_pos rfl, List.singleton_append, depth, Op.size, Nat.zero_add, hdepth]
      omega
    · rw [frameRegs_fp p hset] at hbp
      exact hrbp (List.mem_append_left _ (hbp ▸ hr))

theorem stored_allocOps {base fpv : BitVec 64} {ops : List (Op (BitVec 4))} (h : Stored (frameRegs p) base fpv s entry m ops) :
    Stored (frameRegs p) base fpv s entry m (allocOps p ++ ops) := by
  rw [allocOps]
  split
  · exact h
  · exact h

end

theorem mem_rbpCell {t : MirTemp} {disp : Option (BitVec 8)} (hmir : p.mir = some (t, disp)) :
    (rbp, p.rspPos + (disp.getD 0#8).toInt) ∈ p.localCells := by
  rw [PrologShape.localCells, PrologShape.rbpCell, hmir]
  exact List.mem_cons_self

theorem mem_cells_of_local {c : BitVec 4 × ℤ} (hc : c ∈ p.localCells) : c ∈ p.cells := List.mem_append_right _ hc

theorem fpPos_of_mir (hmir : p.mir.isSome) : p.fpPos = p.rspPos + p.size - 8 := by
  rw [PrologShape.fpPos, if_pos hmir, rspPos_eq]
  omega

/-- The stack pointer is at a multiple of eight from where it was. -/
theorem rspPos_mod : p.rspPos % 8 = 0 := by
  have hsize := p.size_mod
  rw [rspPos_eq]
  omega

variable {p} in
/-- The offset of the frame register leads from the frame pointer to the stack pointer. -/
theorem offset_eq (hsize : p.size % 16 = 8 ∧ p.size ≤ 248) (hmir : p.mir.isSome) : ((frameRegs p).offset : ℤ) = p.size - 8 := by
  obtain ⟨hmod, hle⟩ := hsize
  rw [frameRegs, infoOf, if_pos hmir]
  dsimp only
  omega

variable {p} in
/-- The base of the frame is where the stack pointer is in the body. -/
theorem baseOf_eq (hsize : p.size % 16 = 8 ∧ p.size ≤ 248) (hmir : p.mir.isSome) {entry σ : Machine (BitVec 4)} (h : p.InBody entry σ) :
    baseOf p σ = addr (entry.regs rsp) p.rspPos := by
  have hset : p.setsFrame := by rw [PrologShape.setsFrame, hmir, Bool.true_or]
  have hoff := offset_eq hsize hmir
  have hpos := fpPos_of_mir p hmir
  rw [baseOf, if_pos hset, InBody.fp h hset, addr_sub_nat]
  rw [frameRegs] at hoff
  dsimp only at hoff
  rw [hoff, hpos]
  exact congrArg _ (by omega)

/-- Without a frame setup in the head, neither the head nor the allocation rebases. -/
theorem rebase_not_mem (hframe : p.frame = none) : Op.rebase ∉ allocOps p ++ headOps p := by
  have halloc : Op.rebase ∉ allocOps p := by
    rw [allocOps]
    split <;> simp
  have hhead : Op.rebase ∉ headOps p := by
    rw [headOps, latePushes_of_none p hframe, hframe]
    exact rebase_not_mem_pops _
  exact fun h => (List.mem_append.1 h).elim halloc hhead

theorem toInt_eq_toNat {d : BitVec 8} (h : 0 ≤ d.toInt) : d.toInt = d.toNat := by
  have hlt := d.isLt
  rw [BitVec.toInt_eq_toNat_cond] at h ⊢
  split at h
  · rw [if_pos (by assumption)]
  · omega

variable {p} in
/-- The frame of a prologue that is described can be unwound. -/
theorem stored_opsOf (hd : p.Described) {entry σ : Machine (BitVec 4)} (h : p.InBody entry σ) :
    Stored (frameRegs p) (baseOf p σ) (addr (entry.regs rsp) p.fpPos) (entry.regs rsp) entry.regs σ.mem (opsOf p) := by
  have hload : ∀ c ∈ p.cells, load σ.mem (addr (entry.regs rsp) c.2) = entry.regs c.1 := fun c hc => load_cell h hc
  have hhead := stored_allocOps p (stored_headOps p (baseOf p σ) fun c hc => hload c (List.mem_append_left _ hc))
  cases hm : p.mir with
  | none =>
    have hsaves : p.saves = [] := by
      by_contra hne
      have hsome := hd.mir hne
      rw [hm] at hsome
      exact absurd hsome (by decide)
    rw [opsOf, saveOps, mirOps, hm, hsaves]
    exact hhead
  | some mir =>
    obtain ⟨t, disp⟩ := mir
    have hmir : p.mir.isSome := by rw [hm]; rfl
    have hset : p.setsFrame := by rw [PrologShape.setsFrame, hmir, Bool.true_or]
    have hbase := baseOf_eq (hd.frame hmir) hmir h
    have hpos := fpPos_of_mir p hmir
    have hmod := rspPos_mod p
    obtain ⟨hsize, hle⟩ := hd.frame hmir
    have hcell := mem_rbpCell p hm
    have hin := p.cells_inside _ hcell
    have hal := hd.cells _ hcell
    dsimp only at hin hal
    have hframe : p.frame = none := p.frame_once hmir
    have hno := rebase_not_mem p hframe
    have hmirOps : Stored (frameRegs p) (baseOf p σ) (addr (entry.regs rsp) p.fpPos) (entry.regs rsp) entry.regs σ.mem
        (mirOps p ++ (allocOps p ++ headOps p)) := by
      rw [mirOps, hm]
      refine ⟨?_, rbp_ne_rsp, fun hin => absurd hin hno, ?_, hhead⟩
      · have hoff := offset_eq (hd.frame hmir) hmir
        have hdepth : (depth (allocOps p ++ headOps p) : ℤ) = -p.rspPos := by
          rw [depth_append, depth_allocOps, depth_headOps, rspPos_eq]
          push_cast
          ring
        have hrest : (depth (.reload rbp ((disp.getD 0#8).toNat / 8 % 2 ^ 16 * 8) :: (allocOps p ++ headOps p)) : ℤ) = -p.rspPos := by
          rw [depth, Op.size, Nat.zero_add, hdepth]
        refine Eq.trans ?_ (congrArg (fun x : ℤ => addr (entry.regs rsp) (-x)) hrest).symm
        rw [addr_sub_nat, hoff, hpos]
        exact congrArg _ (by omega)
      · have hd := toInt_eq_toNat (d := disp.getD 0#8) (by omega)
        have hoff : p.rspPos + ((disp.getD 0#8).toNat / 8 % 2 ^ 16 * 8 : Nat) = p.rspPos + (disp.getD 0#8).toInt := by omega
        have hword : load σ.mem (addr (entry.regs rsp) (p.rspPos + (disp.getD 0#8).toInt)) = entry.regs rbp :=
          hload (rbp, p.rspPos + (disp.getD 0#8).toInt) (mem_cells_of_local p hcell)
        rwa [hbase, addr_add_nat, hoff]
    rw [opsOf, saveOps]
    refine stored_reloads (fun x hx => ?_) (fun x hx => ?_) (fun x hx => ?_) hmirOps
    · obtain ⟨ss₁, s, ss₂, hss, hreg, -, hnonneg, hrsp⟩ := mem_saveRecs (List.mem_reverse.1 hx)
      have hs : s ∈ p.saves := by rw [hss]; exact List.mem_append_right _ List.mem_cons_self
      have hcell := mem_saveCells p hs
      have hin := p.cells_inside _ hcell
      have hal := hd.cells _ hcell
      dsimp only at hin hal
      have hoff : p.rspPos + (x.rspOff / 8 % 2 ^ 16 * 8 : Nat) = p.fpPos + s.1.toInt := by omega
      have hword : load σ.mem (addr (entry.regs rsp) (p.fpPos + s.1.toInt)) = entry.regs s.2 :=
        hload (s.2, p.fpPos + s.1.toInt) (mem_cells_of_local p hcell)
      rwa [hbase, addr_add_nat, hoff, hreg]
    · obtain ⟨ss₁, s, ss₂, hss, hreg, -⟩ := mem_saveRecs (List.mem_reverse.1 hx)
      have hs : s ∈ p.saves := by rw [hss]; exact List.mem_append_right _ List.mem_cons_self
      rw [hreg]
      exact (save_not_dirty p hs).1
    · obtain ⟨ss₁, s, ss₂, hss, hreg, -⟩ := mem_saveRecs (List.mem_reverse.1 hx)
      have hs : s ∈ p.saves := by rw [hss]; exact List.mem_append_right _ List.mem_cons_self
      rw [hreg, frameRegs_fp p hset]
      exact save_ne_rbp p hs

/-- A rebase comes from an instruction that sets the frame register. -/
theorem setsFrame_of_rebase (h : Op.rebase ∈ opsOf p) : p.setsFrame := by
  rw [PrologShape.setsFrame, Bool.or_eq_true]
  by_contra hno
  obtain ⟨hmir, hframe⟩ := not_or.1 hno
  have hmir := Option.not_isSome_iff_eq_none.1 hmir
  have hrest := rebase_not_mem p (Option.not_isSome_iff_eq_none.1 hframe)
  rw [opsOf, mirOps, hmir] at h
  rcases List.mem_append.1 h with h | h
  · obtain ⟨x, _, hx⟩ := List.mem_map.1 h
    cases hx
  · exact hrest h

theorem pop_mem_headOps {r : BitVec 4} (hr : r ∈ p.allPushes) : .pop r ∈ headOps p := by
  rw [headOps]
  rcases List.mem_append.1 hr with hr | hr
  · exact List.mem_append_right _ (List.mem_append_right _ (List.mem_map_of_mem (List.mem_reverse.2 hr)))
  · exact List.mem_append_left _ (List.mem_map_of_mem (List.mem_reverse.2 hr))

variable {p} in
/-- Every saved register is given back by an operation. -/
theorem exists_op (hd : p.Described) {r : BitVec 4} (hr : r ∈ p.saved) : ∃ op ∈ opsOf p, op.reg = some r := by
  rw [PrologShape.saved, List.mem_append] at hr
  rcases hr with hr | hr
  · exact ⟨.pop r, List.mem_append_right _ (List.mem_append_right _ (List.mem_append_right _ (pop_mem_headOps p hr))), rfl⟩
  · obtain ⟨c, hc, rfl⟩ := List.mem_map.1 hr
    rcases List.mem_append.1 hc with hc | hc
    · rw [PrologShape.rbpCell] at hc
      cases hmir : p.mir with
      | none =>
        rw [hmir] at hc
        exact absurd hc List.not_mem_nil
      | some m =>
        rw [hmir] at hc
        obtain rfl := List.mem_singleton.1 hc
        have hop : Op.reload rbp ((m.2.getD 0#8).toNat / 8 % 2 ^ 16 * 8) ∈ mirOps p := by
          rw [mirOps, hmir]
          exact List.mem_cons_of_mem _ List.mem_cons_self
        exact ⟨_, List.mem_append_right _ (List.mem_append_left _ hop), rfl⟩
    · obtain ⟨s, hs, rfl⟩ := List.mem_map.1 hc
      have hmir := hd.mir (List.ne_nil_of_mem hs)
      have hin := p.cells_inside _ (mem_saveCells p hs)
      have hpos := fpPos_of_mir p hmir
      dsimp only at hin
      obtain ⟨x, hx, hreg⟩ := saveRecs_of_mem p.size (mirPos p) hs (by omega)
      exact ⟨saveOp x, List.mem_append_left _ (List.mem_map_of_mem (List.mem_reverse.2 hx)), congrArg some hreg⟩

variable {p} in
/-- A prologue that is described is unwound right. -/
theorem unwinds_of_described (hd : p.Described) {entry σ : Machine (BitVec 4)} (h : p.InBody entry σ) {pc : Nat}
    (hpc : p.bytes.length ≤ pc) :
    ((infoOf p).virtualUnwind pc σ).regs rsp = entry.regs rsp ∧
      ∀ r ∈ p.saved, ((infoOf p).virtualUnwind pc σ).regs r = entry.regs r := by
  have hunwinding : Unwinding (frameRegs p) (baseOf p σ) (addr (entry.regs rsp) p.fpPos) (entry.regs rsp) entry.regs σ.mem (opsOf p) σ := by
    refine ⟨rfl, ?_, fun hin => ?_, stored_opsOf hd h⟩
    · rw [depth_opsOf, Int.neg_neg]
      exact InBody.sp h
    · have hset := setsFrame_of_rebase p hin
      rw [frameRegs_fp p hset]
      exact InBody.fp h hset
  obtain ⟨hsp, hregs⟩ := hunwinding.unwind (frameRegs_ne p)
  rw [virtualUnwind_eq p (Reads.refl p) hpc]
  refine ⟨hsp, fun r hr => hregs r (fun hrsp => ?_) (Or.inl (exists_op hd hr))⟩
  have hrsp : r = rsp := hrsp
  exact p.rsp_not_saved (hrsp ▸ hr)

variable {p} in
/-- Pushes are undone, whatever register and size are given for the frame. -/
theorem unwinds_of_pops (hsize : p.size = 0) {u : UnwindInfo} (hops : u.codes.map UnwindCode.op = p.allPushes.reverse.map .pop)
    (hle : ∀ c ∈ u.codes, c.offset ≤ p.bytes.length) (hreg : u.frameReg ≠ rsp) {entry σ : Machine (BitVec 4)} (h : p.InBody entry σ)
    {pc : Nat} (hpc : p.bytes.length ≤ pc) :
    (u.virtualUnwind pc σ).regs rsp = entry.regs rsp ∧ ∀ r ∈ p.saved, (u.virtualUnwind pc σ).regs r = entry.regs r := by
  have hall : (u.codes.filter fun c => decide (u.prologSize ≤ pc ∨ c.offset ≤ pc)) = u.codes :=
    List.filter_eq_self.2 fun c hc => decide_eq_true (Or.inr ((hle c hc).trans hpc))
  rw [UnwindInfo.virtualUnwind, hall, hops]
  generalize (if u.frameReg ≠ 0#4 ∧ (u.prologSize ≤ pc ∨ Op.rebase ∈ p.allPushes.reverse.map Op.pop) then
    σ.regs u.frameReg - BitVec.ofNat 64 (16 * u.frameOffset) else σ.regs rsp) = base
  have hstored : Stored ⟨rsp, u.frameReg, 16 * u.frameOffset⟩ base 0 (entry.regs rsp) entry.regs σ.mem
      (p.allPushes.reverse.map .pop ++ []) :=
    stored_pops 0 rfl (fun c hc => load_cell h (List.mem_append_left _ hc)) (fun r hr => rsp_not_pushed p hr)
      (fun hin => absurd hin List.not_mem_nil) trivial
  rw [List.append_nil] at hstored
  have hdepth : (depth (p.allPushes.reverse.map Op.pop : List (Op (BitVec 4))) : ℤ) = 8 * p.allPushes.length := by
    rw [depth_pops, List.length_reverse]
    push_cast
    rfl
  have hunwinding : Unwinding ⟨rsp, u.frameReg, 16 * u.frameOffset⟩ base 0 (entry.regs rsp) entry.regs σ.mem
      (p.allPushes.reverse.map .pop) σ := by
    refine ⟨rfl, ?_, fun hin => absurd hin (rebase_not_mem_pops _), hstored⟩
    rw [hdepth, InBody.sp h, rspPos_eq, hsize, Nat.cast_zero, Int.sub_zero]
  obtain ⟨hsp, hregs⟩ := hunwinding.unwind hreg
  refine ⟨hsp, fun r hr => hregs r (fun hrsp => ?_) (Or.inl ?_)⟩
  · have hrsp : r = rsp := hrsp
    exact p.rsp_not_saved (hrsp ▸ hr)
  · rw [PrologShape.saved, localCells_of_zero p hsize, List.map_nil, List.append_nil] at hr
    exact ⟨.pop r, List.mem_map_of_mem (List.mem_reverse.2 hr), rfl⟩

end Win64Aux
end PgJitter
