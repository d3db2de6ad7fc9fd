import PgJitter.Lemmas.Win64Frame

/-!
# When the codes of a prologue are right

For a prologue that is described, the codes stand at the ends of its instructions. For another, what goes wrong: the offset of a code falls
inside its instruction, the frame pointer does not lead to the base of the frame, or a register is reloaded from a place that is not its
cell.
-/

namespace PgJitter
namespace Win64Aux

open ByteMemory FrameUnwind

variable (p : Prologue)

/-! ## Offsets -/

/-- A pushed register has a record, at the end of the pushes up to it. -/
theorem exists_pushRecs {r : BitVec 4} {rs : List (BitVec 4)} (pos : Nat) (hr : r ∈ rs) :
    ∃ rs₁ rs₂, rs = rs₁ ++ r :: rs₂ ∧ ⟨r, pos + pushesLen rs₁⟩ ∈ pushRecs pos rs := by
  induction rs generalizing pos with
  | nil => exact absurd hr List.not_mem_nil
  | cons r' rs ih =>
    rcases List.mem_cons.1 hr with rfl | hr
    · exact ⟨[], rs, rfl, List.mem_cons_self⟩
    · obtain ⟨rs₁, rs₂, rfl, hmem⟩ := ih (pos + pushLen r') hr
      refine ⟨r' :: rs₁, rs₂, rfl, List.mem_cons_of_mem _ ?_⟩
      rwa [pushesLen, ← Nat.add_assoc]

/-- No instruction ends inside another. -/
theorem not_endsAt_inside {pre post : List PrologInsn} {i : PrologInsn} (hinsns : p.insns = pre ++ i :: post) {off : Nat}
    (hgt : (encodeProlog pre).length < off) (hlt : off < (encodeProlog pre).length + i.encode.length) (j : PrologInsn) :
    ¬ p.EndsAt j off := by
  rintro ⟨pre', post', hinsns', hoff⟩
  rcases List.append_eq_append_iff.1 (hinsns.symm.trans hinsns') with ⟨a, hpre, hi⟩ | ⟨a, hpre, hj⟩
  · cases a with
    | nil =>
      rw [List.append_nil] at hpre
      obtain ⟨rfl, -⟩ := List.cons.inj hi
      rw [hpre] at hoff
      omega
    | cons b a =>
      obtain ⟨rfl, -⟩ := List.cons.inj hi
      rw [hpre, encode_append, encode_cons, List.length_append, List.length_append] at hoff
      omega
  · cases a with
    | nil =>
      rw [List.append_nil] at hpre
      obtain ⟨rfl, -⟩ := List.cons.inj hj
      rw [hpre] at hgt hlt
      omega
    | cons b a =>
      obtain ⟨rfl, -⟩ := List.cons.inj hj
      rw [hpre, encode_append, encode_cons, List.length_append, List.length_append] at hgt
      omega

/-- A record is of a pushed register, at the end of the pushes up to it. -/
theorem mem_pushRecs {pos : Nat} {rs : List (BitVec 4)} {x : PushRec} (hx : x ∈ pushRecs pos rs) :
    ∃ rs₁ rs₂, rs = rs₁ ++ x.reg :: rs₂ ∧ x.offset = pos + pushesLen rs₁ := by
  induction rs generalizing pos with
  | nil => exact absurd hx List.not_mem_nil
  | cons r rs ih =>
    rcases List.mem_cons.1 hx with rfl | hx
    · exact ⟨[], rs, rfl, rfl⟩
    · obtain ⟨rs₁, rs₂, rfl, hoff⟩ := ih hx
      exact ⟨r :: rs₁, rs₂, rfl, by rw [hoff, pushesLen, Nat.add_assoc]⟩

theorem split_at_push (is js : List PrologInsn) (rs₁ rs₂ : List (BitVec 4)) (r : BitVec 4) :
    is ++ ((rs₁ ++ r :: rs₂).map .push ++ js) = is ++ rs₁.map .push ++ .push r :: (rs₂.map .push ++ js) := by
  rw [List.map_append, List.map_cons, List.append_assoc, List.append_assoc]
  rfl

/-- A push starts where the parser has it. -/
theorem push_position {x : PushRec} (hx : x ∈ allRecs p) :
    ∃ pre post, p.insns = pre ++ .push x.reg :: post ∧ (encodeProlog pre).length = x.offset := by
  have hstart := startPos_eq p
  rw [PrologShape.insns, PrologShape.headInsns]
  rcases List.mem_append.1 hx with hx | hx
  · obtain ⟨rs₁, rs₂, hrs, hoff⟩ := mem_pushRecs hx
    rw [hrs, List.append_assoc, split_at_push]
    refine ⟨_, _, rfl, ?_⟩
    rw [encode_append, List.length_append, hstart, length_encode_pushes, hoff]
  · cases hf : p.frame with
    | none =>
      rw [latePushes_of_none p hf] at hx
      exact absurd hx List.not_mem_nil
    | some f =>
      obtain ⟨alt, late⟩ := f
      have hlate : p.latePushes = late := by rw [PrologShape.latePushes, hf]; rfl
      have hmov : (PrologInsn.movRbpRsp alt).encode.length = 3 := by cases alt <;> rfl
      rw [hlate] at hx
      obtain ⟨rs₁, rs₂, rfl, hoff⟩ := mem_pushRecs hx
      dsimp only
      rw [List.append_cons, List.append_assoc _ ((rs₁ ++ x.reg :: rs₂).map PrologInsn.push), ← List.append_assoc, split_at_push]
      refine ⟨_, _, rfl, ?_⟩
      rw [encode_append, encode_append, encode_append, encode_cons, encode_nil, List.append_nil, List.length_append, List.length_append,
        List.length_append, hstart, length_encode_pushes, length_encode_pushes, hmov, hoff, framePos]
      omega

theorem endsAt_of_append {pre post : List PrologInsn} {i : PrologInsn} (h : p.insns = pre ++ i :: post) {off : Nat}
    (hoff : off = (encodeProlog pre).length + i.encode.length) : p.EndsAt i off := ⟨pre, post, h, hoff⟩

/-- What comes before the allocation, and before the instructions after it. -/
theorem length_before_frame : (encodeProlog ((if p.endbr then [.endbr64] else []) ++ p.headInsns)).length = headPos p := by
  rw [encode_append, List.length_append, startPos_eq, length_headInsns]

theorem length_before_saves : (encodeProlog ((if p.endbr then [.endbr64] else []) ++ p.headInsns ++ p.frameInsns)).length = mirPos p := by
  rw [encode_append, List.length_append, length_before_frame, length_frameInsns]

theorem insns_eq : p.insns = (if p.endbr then [.endbr64] else []) ++ p.headInsns ++ (p.frameInsns ++ p.saveInsns) := by
  rw [PrologShape.insns, List.append_assoc]

/-- An instruction of the allocation ends as far from its start as it does in it. -/
theorem endsAt_frame {pre post : List PrologInsn} {i : PrologInsn} (h : p.frameInsns = pre ++ i :: post) {off : Nat}
    (hoff : off = headPos p + (encodeProlog pre).length + i.encode.length) : p.EndsAt i off := by
  refine ⟨(if p.endbr then [.endbr64] else []) ++ p.headInsns ++ pre, post ++ p.saveInsns, ?_, ?_⟩
  · rw [insns_eq, h]
    simp only [List.append_assoc, List.cons_append]
  · rw [encode_append, List.length_append, length_before_frame, hoff]

theorem length_lea (t : MirTemp) : (PrologInsn.lea t).encode.length = 5 := by cases t <;> rfl

theorem length_movRbp (t : MirTemp) : (PrologInsn.movRbp t).encode.length = 3 := by cases t <;> rfl

/-- The allocation ends where the parser has it. -/
theorem alloc_endsAt {wide : Bool} {n : Nat} (halloc : p.alloc = some (wide, n)) : p.EndsAt (.subRsp wide n) (allocPos p) := by
  cases hm : p.mir with
  | none =>
    have hframe : p.frameInsns = [] ++ .subRsp wide n :: [] := by rw [PrologShape.frameInsns, hm, halloc]; rfl
    refine endsAt_frame p hframe ?_
    rw [length_sub, allocPos, hm, halloc]
    rfl
  | some m =>
    obtain ⟨t, disp⟩ := m
    have hframe : p.frameInsns = [.lea t] ++ .subRsp wide n :: [.saveRbp disp, .movRbp t] := by
      rw [PrologShape.frameInsns, hm, halloc]
      rfl
    refine endsAt_frame p hframe ?_
    rw [encode_cons, encode_nil, List.append_nil, length_lea, length_sub, allocPos, hm, halloc]
    rfl

/-- The instructions of the frame setup of MIR end where the parser has them. -/
theorem mir_endsAt {t : MirTemp} {disp : Option (BitVec 8)} (hm : p.mir = some (t, disp)) :
    p.EndsAt (.saveRbp disp) (rbpPos p) ∧ p.EndsAt (.movRbp t) (mirPos p) := by
  obtain ⟨wide, halloc⟩ := alloc_of_size p (by have hsize := size_of_mir p hm; omega)
  have hrbp : rbpPos p = headPos p + 5 + subLen wide + (PrologInsn.saveRbp disp).encode.length := by rw [rbpPos, allocPos, hm, halloc]; rfl
  have hmir : mirPos p = rbpPos p + 3 := by rw [mirPos, hm]; rfl
  have hframe : p.frameInsns = [.lea t, .subRsp wide p.size, .saveRbp disp, .movRbp t] := by rw [PrologShape.frameInsns, hm, halloc]; rfl
  constructor
  · refine @endsAt_frame p [.lea t, .subRsp wide p.size] _ _ hframe _ ?_
    rw [encode_cons, encode_cons, encode_nil, List.append_nil, List.length_append, length_lea, length_sub, hrbp]
    omega
  · refine @endsAt_frame p [.lea t, .subRsp wide p.size, .saveRbp disp] _ _ hframe _ ?_
    rw [encode_cons, encode_cons, encode_cons, encode_nil, List.append_nil, List.length_append, List.length_append, length_lea, length_sub,
      length_movRbp, hmir, hrbp]
    omega

/-- A `MOV RBP, RSP` ends where the parser has it. -/
theorem frame_endsAt {alt : Bool} {late : List (BitVec 4)} (hf : p.frame = some (alt, late)) :
    p.EndsAt (.movRbpRsp alt) (framePos p) := by
  have hmov : (PrologInsn.movRbpRsp alt).encode.length = 3 := by cases alt <;> rfl
  have hhead : p.headInsns = p.pushes.map .push ++ .movRbpRsp alt :: late.map .push := by rw [PrologShape.headInsns, hf]
  refine endsAt_of_append p ((by rw [PrologShape.insns, hhead, List.append_assoc, ← List.append_assoc]; rfl)) ?_
  rw [encode_append, List.length_append, startPos_eq, length_encode_pushes, hmov, framePos]

/-- A save below the frame pointer ends where the parser has it. -/
theorem save_endsAt {ss₁ ss₂ : List (BitVec 8 × BitVec 4)} {s : BitVec 8 × BitVec 4} (hss : p.saves = ss₁ ++ s :: ss₂) :
    p.EndsAt (.save s.1 s.2) (mirPos p + 4 * ss₁.length + 4) := by
  have hsaves : p.saveInsns = (ss₁.map fun s => .save s.1 s.2) ++ .save s.1 s.2 :: ss₂.map fun s => .save s.1 s.2 := by
    rw [PrologShape.saveInsns, hss, List.map_append, List.map_cons]
  have hlen : (PrologInsn.save s.1 s.2).encode.length = 4 := rfl
  refine endsAt_of_append p ((insns_eq p).trans (by rw [hsaves, ← List.append_assoc, ← List.append_assoc])) ?_
  rw [encode_append, List.length_append, length_before_saves, length_encode_saves, hlen]

/-- Every recorded push is an item. -/
theorem push_mem_items {x : PushRec} (hx : x ∈ allRecs p) : .push x ∈ items p := by
  rw [← pushes_items] at hx
  obtain ⟨e, he, hex⟩ := List.mem_filterMap.1 hx
  cases e with
  | push x' =>
    obtain rfl := Option.some.inj hex
    exact he
  | save s => exact absurd hex (Option.some_ne_none _).symm
  | alloc => exact absurd hex (Option.some_ne_none _).symm
  | fpreg => exact absurd hex (Option.some_ne_none _).symm

/-- Windows reads the offset of an item as it is. -/
theorem offset_item {e : EmitItem} (he : e ∈ items p) : (codeOf (parsed p) e).offset = itemOff (parsed p) e := by
  have hle := ((ascending_items p).bound e he).2
  have hbytes := length_bytes_lt p
  exact Nat.mod_eq_of_lt (by omega)

/-- The offset that Windows reads of a push. -/
theorem offset_push (q : ParsedPrologue) {x : PushRec} (hx : x ∈ allRecs p) : (codeOf q (.push x)).offset = x.offset + 1 := by
  have hbytes := length_bytes_lt p
  obtain ⟨pre, post, hinsns, hpos⟩ := push_position p hx
  rw [PrologShape.bytes, hinsns, encode_append, List.length_append] at hbytes
  exact (Nat.mod_mod _ _).trans (Nat.mod_eq_of_lt (by omega))

/-- A push of one of the low registers is described by the code at its end, and no other push is. -/
theorem low_of_right {u : UnwindInfo} (hcodes : ∀ x ∈ allRecs p, ∃ c ∈ u.codes, c.offset = x.offset + 1) (h : u.Right p) {r : BitVec 4}
    (hr : r ∈ p.allPushes) : r < 8#4 := by
  obtain ⟨x, hx, rfl⟩ : ∃ x ∈ allRecs p, x.reg = r := by
    rcases List.mem_append.1 hr with hr | hr
    · obtain ⟨_, _, _, hmem⟩ := exists_pushRecs (startPos p) hr
      exact ⟨_, List.mem_append_left _ hmem, rfl⟩
    · obtain ⟨_, _, _, hmem⟩ := exists_pushRecs (framePos p) hr
      exact ⟨_, List.mem_append_right _ hmem, rfl⟩
  by_contra hhigh
  obtain ⟨pre, post, hinsns, hpos⟩ := push_position p hx
  obtain ⟨c, hc, hoff⟩ := hcodes x hx
  obtain ⟨j, hj, _⟩ := h.ends _ hc
  have hlen : (PrologInsn.push x.reg).encode.length = 2 := by rw [length_push, pushLen, if_neg hhigh]
  rw [hoff] at hj
  exact not_endsAt_inside p hinsns (by omega) (by omega) j hj

theorem codes_infoOf {x : PushRec} (hx : x ∈ allRecs p) : ∃ c ∈ (infoOf p).codes, c.offset = x.offset + 1 :=
  ⟨_, List.mem_map_of_mem (List.mem_reverse.2 (push_mem_items p hx)), offset_push p (parsed p) hx⟩

/-! ## The frame pointer -/

/-- No operation before the frame setup of MIR is undone gives back the frame pointer. -/
theorem saveOps_reg {op : Op (BitVec 4)} (hop : op ∈ saveOps p) : ∃ s ∈ p.saves, op.reg = some s.2 := by
  obtain ⟨x, hx, rfl⟩ := List.mem_map.1 hop
  obtain ⟨ss₁, s, ss₂, hss, hreg, -⟩ := mem_saveRecs (List.mem_reverse.1 hx)
  exact ⟨s, by rw [hss]; exact List.mem_append_right _ List.mem_cons_self, congrArg some hreg⟩

/-- What is undone after the frame setup gives back what was pushed. -/
theorem rest_reg {op : Op (BitVec 4)} (hop : op ∈ allocOps p ++ headOps p) {r : BitVec 4} (hr : op.reg = some r) : r ∈ p.allPushes := by
  rcases List.mem_append.1 hop with hop | hop
  · rw [allocOps] at hop
    split at hop
    · exact absurd hop List.not_mem_nil
    · obtain rfl := List.mem_singleton.1 hop
      exact absurd hr (Option.some_ne_none r).symm
  · rw [headOps] at hop
    rcases List.mem_append.1 hop with hop | hop
    · obtain ⟨r', hr', rfl⟩ := List.mem_map.1 hop
      obtain rfl := Option.some.inj hr
      exact List.mem_append_right _ (List.mem_reverse.1 hr')
    · rcases List.mem_append.1 hop with hop | hop
      · split at hop
        · obtain rfl := List.mem_singleton.1 hop
          exact absurd hr (Option.some_ne_none r).symm
        · exact absurd hop List.not_mem_nil
      · obtain ⟨r', hr', rfl⟩ := List.mem_map.1 hop
        obtain rfl := Option.some.inj hr
        exact List.mem_append_left _ (List.mem_reverse.1 hr')

/-- The machine as the prologue leaves it is one in the body. -/
theorem inBody_run (entry : Machine (BitVec 4)) : p.InBody entry (runProlog p.insns entry) := ⟨rfl, fun _ => rfl, fun _ _ _ _ => rfl⟩

/-- Where unwinding leaves the stack pointer of a prologue of MIR. -/
theorem rsp_unwind_mir (hmir : p.mir.isSome) {entry σ : Machine (BitVec 4)} (h : p.InBody entry σ) {pc : Nat}
    (hpc : p.bytes.length ≤ pc) :
    ((infoOf p).virtualUnwind pc σ).regs rsp = addr (entry.regs rsp) (p.size - 8 - (frameRegs p).offset) := by
  obtain ⟨⟨t, disp⟩, hm⟩ := Option.isSome_iff_exists.1 hmir
  have hset : p.setsFrame := by rw [PrologShape.setsFrame, hmir, Bool.true_or]
  have hframe : p.frame = none := p.frame_once hmir
  have hsaves : (unwind (frameRegs p) (baseOf p σ) (saveOps p) σ).regs rbp = addr (entry.regs rsp) p.fpPos := by
    rw [regs_unwind_of_not_mem rbp_ne_rsp]
    · exact InBody.fp h hset
    · intro op hop hreg
      obtain ⟨s, hs, hreg'⟩ := saveOps_reg p hop
      exact save_ne_rbp p hs (Option.some.inj (hreg'.symm.trans hreg))
  have hrest : ∀ σ' : Machine (BitVec 4), (unwind (frameRegs p) (baseOf p σ) (allocOps p ++ headOps p) σ').regs rsp =
      σ'.regs rsp + BitVec.ofNat 64 (p.size + 8 * p.allPushes.length) := by
    intro σ'
    have hsp := @sp_unwind _ _ (frameRegs p) (baseOf p σ) _ σ' (rebase_not_mem p hframe) fun op hop hreg =>
      rsp_not_pushed p (rest_reg p hop hreg) rfl
    rw [depth_append, depth_allocOps, depth_headOps] at hsp
    exact hsp
  rw [virtualUnwind_eq p (Reads.refl p) hpc, opsOf, mirOps, hm, unwind_append]
  generalize unwind (frameRegs p) (baseOf p σ) (saveOps p) σ = σ' at hsaves
  have hset' : ∀ k, (unwind (frameRegs p) (baseOf p σ) [.rebase, .reload rbp k] σ').regs rsp =
      addr (entry.regs rsp) (p.fpPos - (frameRegs p).offset) := by
    intro k
    refine (Machine.regs_set_of_ne _ _ rbp_ne_rsp.symm).trans ((Machine.regs_set_self σ' rsp _).trans ?_)
    rw [frameRegs_fp p hset, hsaves, addr_sub_nat]
  refine (hrest _).trans ((congrArg (· + BitVec.ofNat 64 (p.size + 8 * p.allPushes.length)) (hset' _)).trans ?_)
  rw [addr_add_nat, fpPos_of_mir p hmir, rspPos_eq]
  exact congrArg _ (by push_cast; ring)

/-- The offset of the frame register is right only for an allocation of 8 bytes more than a multiple of 16, of no more than 248. -/
theorem size_of_right (h : (infoOf p).Right p) (hmir : p.mir.isSome) : p.size % 16 = 8 ∧ p.size ≤ 248 := by
  obtain ⟨⟨t, disp⟩, hm⟩ := Option.isSome_iff_exists.1 hmir
  have hsize := size_of_mir p hm
  have hlt := size_lt p
  have hbody := inBody_run p ⟨fun _ => 0, fun _ => 0⟩
  have hsp := (h.unwinds _ _ _ hbody (Nat.le_refl _)).1
  rw [rsp_unwind_mir p hmir hbody (Nat.le_refl _)] at hsp
  have hoff : (frameRegs p).offset = 16 * ((p.size - 8) / 16 % 16) := by
    rw [frameRegs, infoOf, if_pos hmir]
  have hzero := addr_inj (by omega) (by omega) (hsp.trans (addr_zero _).symm)
  omega

/-! ## The cells -/

/-- A machine where one register has all its bits set, and all else is zero. -/
def onlyReg (r : BitVec 4) : Machine (BitVec 4) := ⟨fun r' => if r' = r then BitVec.allOnes 64 else 0, fun _ => 0⟩

/-- A body that has lost the register, unless it is the frame pointer. -/
def bodyWithout (r : BitVec 4) : Machine (BitVec 4) :=
  if r = rbp then runProlog p.insns (onlyReg r) else (runProlog p.insns (onlyReg r)).set r 0

theorem inBody_without {r : BitVec 4} (hr : r ≠ rsp) : p.InBody (onlyReg r) (bodyWithout p r) := by
  rw [bodyWithout]
  split
  · exact inBody_run p _
  · rename_i hbp
    refine ⟨Machine.regs_set_of_ne _ _ hr.symm, fun _ => Machine.regs_set_of_ne _ _ (Ne.symm hbp), fun _ _ _ _ => rfl⟩

theorem mem_bodyWithout (r : BitVec 4) : (bodyWithout p r).mem = (runProlog p.insns (onlyReg r)).mem := by
  rw [bodyWithout]
  split <;> rfl

theorem cell_mem_saved {c : BitVec 4 × ℤ} (hc : c ∈ p.cells) : c.1 ∈ p.saved := by
  rw [← fst_cells]
  exact List.mem_map_of_mem hc

/-- A register is in no place but its cell. -/
theorem load_other {c : BitVec 4 × ℤ} (hc : c ∈ p.cells) {y : ℤ} (hne : y ≠ c.2) (hlt : y - c.2 < 2 ^ 62) (hgt : c.2 - y < 2 ^ 62) :
    load (bodyWithout p c.1).mem (addr ((onlyReg c.1).regs rsp) y) ≠ (onlyReg c.1).regs c.1 := by
  have hones : (onlyReg c.1).regs c.1 = BitVec.allOnes 64 := if_pos rfl
  have hsaved := (building p (onlyReg c.1)).saved
  have hback : ∀ c', c' ∈ p.saveCells.reverse ++ (p.rbpCell ++ (pushCells 0 p.allPushes).reverse) → c' ∈ p.cells := by
    intro c' hc'
    simp only [PrologShape.cells, PrologShape.localCells, List.mem_append, List.mem_reverse] at hc' ⊢
    rcases hc' with hc' | hc' | hc'
    · exact Or.inr (Or.inr hc')
    · exact Or.inr (Or.inl hc')
    · exact Or.inl hc'
  have hnodup := p.saved_nodup
  rw [← fst_cells] at hnodup
  rw [hones, mem_bodyWithout]
  refine hsaved.load_ne (fun _ => rfl) (fun c' _ hr => if_neg hr) (fun c' hc' hr => ?_) hne hlt hgt
  exact congrArg Prod.snd (List.inj_on_of_nodup_map hnodup (hback c' hc') hc hr)

/-- The saves that are kept are of the saved registers, in their order. -/
theorem sublist_saveRecs (size pos : Nat) (ss : List (BitVec 8 × BitVec 4)) :
    ((saveRecs size pos ss).map SaveRec.reg).Sublist (ss.map Prod.snd) := by
  induction ss generalizing pos with
  | nil => exact List.Sublist.slnil
  | cons s ss ih =>
    rw [saveRecs]
    split
    · exact (ih (pos + 4)).cons_cons _
    · exact (ih (pos + 4)).cons _

/-- Where unwinding takes a register from that was saved below the frame pointer. -/
theorem regs_save {s : BitVec 8 × BitVec 4} (hs : s ∈ p.saves) (σ : Machine (BitVec 4)) {pc : Nat} (hpc : p.bytes.length ≤ pc) :
    ((infoOf p).virtualUnwind pc σ).regs s.2 =
      if 0 ≤ (p.size : ℤ) - 8 + s.1.toInt then
        load σ.mem (baseOf p σ + BitVec.ofNat 64 (((p.size : ℤ) - 8 + s.1.toInt).toNat / 8 % 2 ^ 16 * 8))
      else σ.regs s.2 := by
  have hsp : s.2 ≠ (frameRegs p).sp := (save_not_dirty p hs).1
  have hnodup := p.saved_nodup.of_append_right
  have hsnodup : (p.saves.map Prod.snd).Nodup := by
    rw [PrologShape.localCells, List.map_append, fst_saveCells] at hnodup
    exact hnodup.of_append_right
  -- only its own save gives the register back
  have hrest : ∀ op ∈ mirOps p ++ (allocOps p ++ headOps p), op.reg ≠ some s.2 := by
    intro op hop hreg
    rcases List.mem_append.1 hop with hop | hop
    · rw [mirOps] at hop
      cases hmir : p.mir with
      | none =>
        rw [hmir] at hop
        exact absurd hop List.not_mem_nil
      | some m =>
        rw [hmir] at hop
        rcases List.mem_cons.1 hop with rfl | hop
        · exact absurd hreg (Option.some_ne_none _).symm
        · obtain rfl := List.mem_singleton.1 hop
          exact save_ne_rbp p hs (Option.some.inj hreg).symm
    · exact List.disjoint_of_nodup_append p.saved_nodup (rest_reg p hop hreg) (snd_mem_saved p hs)
  have hown : ∀ x ∈ saveRecs p.size (mirPos p) p.saves, x.reg = s.2 →
      0 ≤ (p.size : ℤ) - 8 + s.1.toInt ∧ x.rspOff = ((p.size : ℤ) - 8 + s.1.toInt).toNat := by
    intro x hx hxs
    obtain ⟨ss₁, s', ss₂, hss, hreg, -, hnonneg, hoff⟩ := mem_saveRecs hx
    have hs' : s' ∈ p.saves := by rw [hss]; exact List.mem_append_right _ List.mem_cons_self
    obtain rfl := List.inj_on_of_nodup_map hsnodup hs' hs (hreg.symm.trans hxs)
    exact ⟨hnonneg, hoff⟩
  rw [virtualUnwind_eq p (Reads.refl p) hpc, opsOf, saveOps]
  split
  · rename_i hnonneg
    obtain ⟨x, hx, hreg⟩ := saveRecs_of_mem p.size (mirPos p) hs hnonneg
    obtain ⟨l₁, l₂, hsplit⟩ := List.append_of_mem (List.mem_reverse.2 hx)
    have hregs : ((saveRecs p.size (mirPos p) p.saves).reverse.map SaveRec.reg).Nodup := by
      rw [List.map_reverse, List.nodup_reverse]
      exact (sublist_saveRecs _ _ _).nodup hsnodup
    rw [hsplit, List.map_append, List.map_cons] at hregs
    have hlater : ∀ op ∈ l₂.map saveOp ++ (mirOps p ++ (allocOps p ++ headOps p)), op.reg ≠ some s.2 := by
      intro op hop hop'
      rcases List.mem_append.1 hop with hop | hop
      · obtain ⟨x', hx', rfl⟩ := List.mem_map.1 hop
        have hsame : x'.reg = x.reg := (Option.some.inj hop').trans hreg.symm
        exact (List.nodup_cons.1 hregs.of_append_right).1 (hsame ▸ List.mem_map_of_mem hx')
      · exact hrest op hop hop'
    rw [hsplit, List.map_append, List.map_cons, List.append_assoc, List.cons_append, saveOp, hreg, regs_unwind_reload _ _ hsp hlater,
      (hown x hx hreg).2]
  · rename_i hneg
    refine regs_unwind_of_not_mem hsp fun op hop hreg => ?_
    rcases List.mem_append.1 hop with hop | hop
    · obtain ⟨x, hx, rfl⟩ := List.mem_map.1 hop
      exact hneg (hown x (List.mem_reverse.1 hx) (Option.some.inj hreg)).1
    · exact hrest op hop hreg

/-- Where unwinding takes the `RBP` from that MIR saved. -/
theorem regs_rbp {t : MirTemp} {disp : Option (BitVec 8)} (hm : p.mir = some (t, disp)) (σ : Machine (BitVec 4)) {pc : Nat}
    (hpc : p.bytes.length ≤ pc) : ((infoOf p).virtualUnwind pc σ).regs rbp =
      load σ.mem (baseOf p σ + BitVec.ofNat 64 ((disp.getD 0#8).toNat / 8 % 2 ^ 16 * 8)) := by
  have hrest : ∀ op ∈ allocOps p ++ headOps p, op.reg ≠ some rbp := fun op hop hreg =>
    List.disjoint_of_nodup_append p.saved_nodup (rest_reg p hop hreg) (List.mem_map_of_mem (mem_rbpCell p hm))
  have hops : opsOf p = saveOps p ++ [.rebase] ++ .reload rbp ((disp.getD 0#8).toNat / 8 % 2 ^ 16 * 8) :: (allocOps p ++ headOps p) := by
    rw [opsOf, mirOps, hm, List.append_assoc]
    rfl
  rw [virtualUnwind_eq p (Reads.refl p) hpc, hops]
  exact regs_unwind_reload _ _ rbp_ne_rsp hrest

/-- A cell from which unwinding takes its register is where the unwinder looks for it. -/
theorem eq_of_unwinds (h : (infoOf p).Right p) {c : BitVec 4 × ℤ} (hc : c ∈ p.localCells) {y : ℤ} (hlt : y - c.2 < 2 ^ 62)
    (hgt : c.2 - y < 2 ^ 62) (hnonvol : c.1 ∈ nonvolatile)
    (hload : ((infoOf p).virtualUnwind p.bytes.length (bodyWithout p c.1)).regs c.1 =
      load (bodyWithout p c.1).mem (addr ((onlyReg c.1).regs rsp) y)) : y = c.2 := by
  have hmem := mem_cells_of_local p hc
  have hsaved := cell_mem_saved p hmem
  have hsp : c.1 ≠ rsp := fun hsp => p.rsp_not_saved (hsp ▸ hsaved)
  have hright := (h.unwinds _ _ _ (inBody_without p hsp) (Nat.le_refl _)).2 c.1 hsaved hnonvol
  by_contra hne
  exact load_other p hmem hne hlt hgt (hload.symm.trans hright)

/-- Registers are saved below the frame pointer of MIR only: below another, they are looked for above it. -/
theorem mir_of_right (h : (infoOf p).Right p) (hne : p.saves ≠ []) : p.mir.isSome := by
  obtain ⟨s, hs⟩ := List.exists_mem_of_ne_nil _ hne
  by_contra hno
  have hm := Option.not_isSome_iff_eq_none.1 hno
  have hset := p.saves_frame hne
  have hcell := mem_saveCells p hs
  have hsaved := cell_mem_saved p (mem_cells_of_local p hcell)
  have hsp := (save_not_dirty p hs).1
  have hbody := inBody_without p hsp
  have hregs := regs_save p hs (bodyWithout p s.2) (Nat.le_refl p.bytes.length)
  split at hregs
  · have hbase : baseOf p (bodyWithout p s.2) = addr ((onlyReg s.2).regs rsp) p.fpPos := by
      have hoff : BitVec.ofNat 64 (16 * (infoOf p).frameOffset) = 0#64 := congrArg (BitVec.ofNat 64) (offset_of_none p hm)
      rw [baseOf, if_pos hset, hoff, BitVec.sub_zero, InBody.fp hbody hset]
    have hin := p.cells_inside _ hcell
    have hle := length_saved p
    have hsize := size_lt p
    have htop := rspPos_eq p
    have hfp : p.fpPos = -(8 * p.pushes.length : ℤ) := by rw [PrologShape.fpPos, hm, if_neg (by decide)]
    rw [PrologShape.allPushes, List.length_append] at hle htop
    dsimp only at hin
    rw [hbase, addr_add_nat] at hregs
    have hsame := eq_of_unwinds p h hcell (by dsimp only; omega) (by dsimp only; omega) (p.saves_nonvolatile s hs) hregs
    dsimp only at hsame
    omega
  · -- the body has lost the register, and no code gives it back
    have hlost : (bodyWithout p s.2).regs s.2 = 0 := by
      rw [bodyWithout, if_neg (save_ne_rbp p hs)]
      exact Machine.regs_set_self _ _ _
    have hright := (h.unwinds _ _ _ hbody (Nat.le_refl _)).2 s.2 hsaved (p.saves_nonvolatile s hs)
    rw [hregs, hlost] at hright
    have hones : (onlyReg s.2).regs s.2 = BitVec.allOnes 64 := if_pos rfl
    rw [hones] at hright
    exact absurd hright (by decide)

/-- Words are reloaded from multiples of eight bytes only. -/
theorem cells_of_right (h : (infoOf p).Right p) {c : BitVec 4 × ℤ} (hc : c ∈ p.localCells) : c.2 % 8 = 0 := by
  have hsize := size_lt p
  have hmod := rspPos_mod p
  rcases List.mem_append.1 hc with hcell | hcell
  · rw [PrologShape.rbpCell] at hcell
    cases hm : p.mir with
    | none =>
      rw [hm] at hcell
      exact absurd hcell List.not_mem_nil
    | some m =>
      obtain ⟨t, disp⟩ := m
      rw [hm] at hcell
      obtain rfl := List.mem_singleton.1 hcell
      have hmir : p.mir.isSome := by rw [hm]; rfl
      have hbase := baseOf_eq (size_of_right p h hmir) hmir (inBody_without p rbp_ne_rsp)
      have hregs := regs_rbp p hm (bodyWithout p rbp) (Nat.le_refl p.bytes.length)
      have hin := p.cells_inside _ hc
      dsimp only at hin ⊢
      have hd := toInt_eq_toNat (d := disp.getD 0#8) (by omega)
      have hlt := (disp.getD 0#8).isLt
      rw [hbase, addr_add_nat] at hregs
      have hsame := eq_of_unwinds p h hc (by dsimp only; omega) (by dsimp only; omega) (show rbp ∈ nonvolatile by decide) hregs
      dsimp only at hsame
      omega
  · obtain ⟨s, hs, rfl⟩ := List.mem_map.1 hcell
    have hmir := mir_of_right p h (List.ne_nil_of_mem hs)
    have hle := (size_of_right p h hmir).2
    have hbase := baseOf_eq (size_of_right p h hmir) hmir (inBody_without p (save_not_dirty p hs).1)
    have hregs := regs_save p hs (bodyWithout p s.2) (Nat.le_refl p.bytes.length)
    have hin := p.cells_inside _ hc
    have hpos := fpPos_of_mir p hmir
    dsimp only at hin ⊢
    rw [if_pos (by omega), hbase, addr_add_nat] at hregs
    have hsame := eq_of_unwinds p h hc (by dsimp only; omega) (by dsimp only; omega) (p.saves_nonvolatile s hs) hregs
    dsimp only at hsame
    omega

/-- Where the information is right, the prologue is described. -/
theorem described_of_right (h : (infoOf p).Right p) : p.Described :=
  ⟨fun _ hr => low_of_right p (fun _ hx => codes_infoOf p hx) h hr, mir_of_right p h, size_of_right p h, fun _ hc => cells_of_right p h hc⟩

/-- The code of a push of one of the low registers stands at its end. -/
theorem push_ends (hlow : ∀ r ∈ p.allPushes, r < 8#4) {x : PushRec} (hx : x ∈ allRecs p) : p.EndsAt (.push x.reg) (x.offset + 1) := by
  obtain ⟨pre, post, hinsns, hpos⟩ := push_position p hx
  have hreg : x.reg ∈ p.allPushes := by
    rcases List.mem_append.1 hx with hx | hx
    · obtain ⟨rs₁, rs₂, hrs, -⟩ := mem_pushRecs hx
      exact List.mem_append_left _ (by rw [hrs]; exact List.mem_append_right _ List.mem_cons_self)
    · obtain ⟨rs₁, rs₂, hrs, -⟩ := mem_pushRecs hx
      exact List.mem_append_right _ (by rw [hrs]; exact List.mem_append_right _ List.mem_cons_self)
  have hlen : (PrologInsn.push x.reg).encode.length = 1 := by rw [length_push, pushLen, if_pos (hlow _ hreg)]
  exact ⟨pre, post, hinsns, by rw [hpos, hlen]⟩

/-- In a prologue that is described, every code stands at the end of the instruction that it is about. -/
theorem ends_of_described (hd : p.Described) {e : EmitItem} (he : e ∈ items p) :
    ∃ i, p.EndsAt i (itemOff (parsed p) e) ∧ Describes (codeOf (parsed p) e).op i := by
  cases e with
  | push x =>
    have hx : x ∈ allRecs p := by
      rw [← pushes_items]
      exact List.mem_filterMap.2 ⟨_, he, rfl⟩
    have hoff : itemOff (parsed p) (.push x) = x.offset + 1 := (offset_item p he).symm.trans (offset_push p (parsed p) hx)
    exact ⟨.push x.reg, hoff ▸ push_ends p hd.low hx, rfl⟩
  | alloc =>
    obtain ⟨wide, halloc⟩ := alloc_of_size p ((alloc_mem_items p).1 he)
    have hoff : itemOff (parsed p) .alloc = allocPos p := by
      rw [itemOff, parsed, halloc]
      rfl
    exact ⟨.subRsp wide p.size, hoff ▸ alloc_endsAt p halloc, rfl⟩
  | fpreg =>
    have hset := (fpreg_mem_items p).1 he
    cases hm : p.mir with
    | some m =>
      obtain ⟨t, disp⟩ := m
      have hoff : itemOff (parsed p) .fpreg = mirPos p := by
        rw [itemOff, parsed, hm]
        rfl
      exact ⟨.movRbp t, hoff ▸ (mir_endsAt p hm).2, trivial⟩
    | none =>
      rw [PrologShape.setsFrame, hm, Option.isSome_none, Bool.false_or] at hset
      obtain ⟨⟨alt, late⟩, hf⟩ := Option.isSome_iff_exists.1 hset
      have hoff : itemOff (parsed p) .fpreg = framePos p := by
        rw [itemOff, parsed, hm, hf]
        rfl
      exact ⟨.movRbpRsp alt, hoff ▸ frame_endsAt p hf, trivial⟩
  | save x =>
    have hx : x ∈ rbpRec p ++ saveRecs p.size (mirPos p) p.saves := by
      rw [← saves_items]
      exact List.mem_filterMap.2 ⟨_, he, rfl⟩
    rcases List.mem_append.1 hx with hx | hx
    · cases hm : p.mir with
      | none =>
        rw [rbpRec, hm] at hx
        exact absurd hx List.not_mem_nil
      | some m =>
        obtain ⟨t, disp⟩ := m
        rw [rbpRec, hm] at hx
        obtain rfl := List.mem_singleton.1 hx
        exact ⟨.saveRbp disp, (mir_endsAt p hm).1, rfl⟩
    · obtain ⟨ss₁, s, ss₂, hss, hreg, hoff, -⟩ := mem_saveRecs hx
      have hoff : itemOff (parsed p) (.save x) = mirPos p + 4 * ss₁.length + 4 := hoff
      exact ⟨.save s.1 s.2, hoff ▸ save_endsAt p hss, hreg⟩

/-- What Windows reads of a prologue that is described is right. -/
theorem right_of_described (hd : p.Described) : (infoOf p).Right p := by
  have hasc := ascending_items p
  refine ⟨?_, fun c hc => ?_, fun entry σ pc h hpc => ?_⟩
  · refine List.pairwise_map.2 (List.pairwise_reverse.2 (hasc.sorted.imp_of_mem fun {e e'} he he' hlt => ?_))
    rw [offset_item p he, offset_item p he']
    exact hlt
  · obtain ⟨e, he, rfl⟩ := List.mem_map.1 hc
    have he := List.mem_reverse.1 he
    rw [offset_item p he]
    exact ends_of_described p hd he
  · obtain ⟨hsp, hregs⟩ := unwinds_of_described hd h hpc
    exact ⟨hsp, fun r hr _ => hregs r hr⟩

variable {p} in
/-- The size that the prologue is said to have does not count. -/
theorem right_iff_of_reads {u : UnwindInfo} (hu : Reads p u) : u.Right p ↔ p.Described := by
  constructor
  · intro h
    refine described_of_right p ⟨hu.codes ▸ h.descending, hu.codes ▸ h.ends, fun entry σ pc hbody hpc => ?_⟩
    rw [virtualUnwind_eq p (Reads.refl p) hpc, ← virtualUnwind_eq p hu hpc]
    exact h.unwinds entry σ pc hbody hpc
  · intro hd
    have h := right_of_described p hd
    refine ⟨hu.codes.symm ▸ h.descending, hu.codes.symm ▸ h.ends, fun entry σ pc hbody hpc => ?_⟩
    rw [virtualUnwind_eq p hu hpc, ← virtualUnwind_eq p (Reads.refl p) hpc]
    exact h.unwinds entry σ pc hbody hpc

/-! ## Pushes alone -/

/-- The codes of the pushes alone. -/
def popCodes (q : ParsedPrologue) : List UnwindCode := ((allRecs p).map EmitItem.push).reverse.map (codeOf q)

theorem op_popCodes (q : ParsedPrologue) : (popCodes p q).map UnwindCode.op = p.allPushes.reverse.map .pop := by
  have hmap : (popCodes p q).map UnwindCode.op = (((allRecs p).map EmitItem.push).map fun e => (codeOf q e).op).reverse := by
    rw [popCodes, List.map_map, List.map_reverse]
    rfl
  rw [hmap, allRecs, List.map_append, List.map_append, map_pushRecs, map_pushRecs, ← List.map_append, ← List.map_reverse]
  rfl

theorem mem_popCodes {q : ParsedPrologue} {c : UnwindCode} (hc : c ∈ popCodes p q) : ∃ x ∈ allRecs p, c = ⟨x.offset + 1, .pop x.reg⟩ := by
  obtain ⟨e, he, rfl⟩ := List.mem_map.1 hc
  obtain ⟨x, hx, rfl⟩ := List.mem_map.1 (List.mem_reverse.1 he)
  exact ⟨x, hx, congrArg (UnwindCode.mk · _) (offset_push p q hx)⟩

/-- The items of the pushes are in the order of their offsets. -/
theorem ascending_pushes (q : ParsedPrologue) : Ascending q (startPos p) p.bytes.length ((allRecs p).map .push) := by
  have hasc := ascending_items p
  have hitems : ((allRecs p).map EmitItem.push).Sublist (items p) := by
    refine List.Sublist.trans ?_ (List.sublist_append_left _ _)
    rw [allRecs, headItems, List.map_append]
    refine (List.Sublist.refl _).append ?_
    cases hf : p.frame with
    | none =>
      rw [latePushes_of_none p hf]
      exact List.Sublist.slnil
    | some f => exact List.sublist_cons_self _ _
  have hoff : ∀ x : PushRec, itemOff q (.push x) = itemOff (parsed p) (.push x) := fun _ => rfl
  refine ⟨hasc.le, List.pairwise_map.2 ((List.pairwise_map.1 (hasc.sorted.sublist hitems)).imp fun h => h), fun e he => ?_⟩
  obtain ⟨x, _, rfl⟩ := List.mem_map.1 he
  rw [hoff]
  exact hasc.bound _ (hitems.subset he)

variable {p} in
/-- Where nothing but pushes is read, it is right if they are low registers. -/
theorem right_iff_of_pops (hsize : p.size = 0) {u : UnwindInfo} {q : ParsedPrologue} (hcodes : u.codes = popCodes p q)
    (hreg : u.frameReg ≠ rsp) : u.Right p ↔ p.Described := by
  constructor
  · intro h
    refine ⟨fun r hr => low_of_right p (fun x hx => ?_) h hr, fun hne => absurd (saves_of_zero p hsize) hne, fun hm => ?_, fun c hc => ?_⟩
    · rw [hcodes]
      exact ⟨_, List.mem_map_of_mem (List.mem_reverse.2 (List.mem_map_of_mem hx)), offset_push p q hx⟩
    · rw [mir_of_zero p hsize] at hm
      exact absurd hm (by decide)
    · rw [localCells_of_zero p hsize] at hc
      exact absurd hc List.not_mem_nil
  · intro hd
    have hends : ∀ c ∈ u.codes, ∃ x ∈ allRecs p, c = ⟨x.offset + 1, .pop x.reg⟩ := fun c hc => mem_popCodes p (hcodes ▸ hc)
    refine ⟨?_, fun c hc => ?_, fun entry σ pc hbody hpc => ?_⟩
    · rw [hcodes]
      refine List.pairwise_map.2 (List.pairwise_reverse.2 ((ascending_pushes p q).sorted.imp_of_mem fun {e e'} he he' hlt => ?_))
      obtain ⟨x, hx, rfl⟩ := List.mem_map.1 he
      obtain ⟨x', hx', rfl⟩ := List.mem_map.1 he'
      have hmod : ∀ x : PushRec, itemOff q (.push x) % 256 = itemOff q (.push x) := fun x => Nat.mod_mod _ _
      rwa [codeOf, codeOf, hmod, hmod]
    · obtain ⟨x, hx, rfl⟩ := hends c hc
      exact ⟨_, push_ends p hd.low hx, rfl⟩
    · have hle : ∀ c ∈ u.codes, c.offset ≤ p.bytes.length := fun c hc => by
        rw [hcodes] at hc
        obtain ⟨e, he, rfl⟩ := List.mem_map.1 hc
        exact (Nat.mod_le _ _).trans ((ascending_pushes p q).bound e (List.mem_reverse.1 he)).2
      obtain ⟨hsp, hregs⟩ := unwinds_of_pops hsize (hcodes ▸ op_popCodes p q) hle hreg hbody hpc
      exact ⟨hsp, fun r hr _ => hregs r hr⟩

end Win64Aux
end PgJitter
