import PgJitter.Lemmas.Win64Body

/-!
# The unwind information of a prologue

For every prologue that `win64_parse_prologue` reads, when what is registered of it unwinds the frame.
-/

namespace PgJitter

open ByteMemory FrameUnwind Win64Aux

/-- For every prologue, whatever code follows it, and whatever is registered for them: the codes stand at the ends of the instructions they
are about, the highest first, and Windows gets the stack pointer and the saved registers back from any point of the body, exactly if no
register from `R8` on is pushed, registers are saved by a `MOV` only below the frame pointer of MIR and at multiples of eight bytes, the
allocation under that frame pointer is 8 bytes more than a multiple of 16 and no more than 248, and the parser takes nothing for the
prologue that comes from the code after it. -/
theorem win64_unwind_right_iff (p : Prologue) {body info : List (BitVec 8)} (h : registerUnwind (p.bytes ++ body) = some info) :
    p.UnwindsRight info ↔ p.Described ∧ p.Quiet (body.take (256 - p.bytes.length)) := by
  constructor
  · rintro ⟨u, hu, hright⟩
    have hquiet := quiet_of_right p h hu hright
    obtain ⟨u', hu', hiff⟩ := right_iff_of_quiet p hquiet h
    obtain rfl := Option.some.inj (hu.symm.trans hu')
    exact ⟨hiff.1 hright, hquiet⟩
  · rintro ⟨hdescribed, hquiet⟩
    obtain ⟨u, hu, hiff⟩ := right_iff_of_quiet p hquiet h
    exact ⟨u, hu, hiff.2 hdescribed⟩

/-! ## Witnesses -/

namespace Win64UnwindWitness

/-- `PUSH R12` and `SUB RSP, 32`. -/
def shapeR12 : PrologShape := ⟨false, [12#4], none, some (false, 32), none, []⟩

theorem shapeR12_nodup : shapeR12.saved.Nodup := by decide

theorem shapeR12_rsp : rsp ∉ shapeR12.saved := by decide

theorem shapeR12_fits (wide : Bool) (n : Nat) (h : shapeR12.alloc = some (wide, n)) : n < if wide then 2 ^ 31 else 2 ^ 7 := by
  cases h
  decide

/-- The prologue of these instructions. -/
def pushR12 : Prologue where
  toPrologShape := shapeR12
  size_mod := rfl
  size_fits := shapeR12_fits
  saved_nodup := shapeR12_nodup
  rsp_not_saved := shapeR12_rsp
  frame_once := fun _ => rfl
  saves_frame := fun h => absurd rfl h
  saves_nonvolatile := fun _ h => absurd h List.not_mem_nil
  rbp_not_late := fun h => absurd h Bool.false_ne_true
  cells_inside := fun _ h => absurd h List.not_mem_nil
  cells_apart := List.Pairwise.nil

theorem pushR12_registered : registerUnwind (pushR12.bytes ++ [0xC3#8]) = some [1#8, 6#8, 2#8, 0#8, 6#8, 0x32#8, 1#8, 0xC0#8] := by decide

theorem pushR12_decoded : decodeInfo [1#8, 6#8, 2#8, 0#8, 6#8, 0x32#8, 1#8, 0xC0#8] =
    some ⟨6, 0#4, 0, [⟨6, .free 32⟩, ⟨1, .pop 12#4⟩]⟩ := by decide

/-- `PUSH RBX` alone. -/
def shapeRbx : PrologShape := ⟨false, [3#4], none, none, none, []⟩

theorem shapeRbx_nodup : shapeRbx.saved.Nodup := by decide

theorem shapeRbx_rsp : rsp ∉ shapeRbx.saved := by decide

/-- The prologue of this instruction. -/
def pushRbx : Prologue where
  toPrologShape := shapeRbx
  size_mod := rfl
  size_fits := fun _ _ h => absurd h (Option.some_ne_none _).symm
  saved_nodup := shapeRbx_nodup
  rsp_not_saved := shapeRbx_rsp
  frame_once := fun _ => rfl
  saves_frame := fun h => absurd rfl h
  saves_nonvolatile := fun _ h => absurd h List.not_mem_nil
  rbp_not_late := fun h => absurd h Bool.false_ne_true
  cells_inside := fun _ h => absurd h List.not_mem_nil
  cells_apart := List.Pairwise.nil

/-- `MOV EAX, 0x20EC8348`, `POP RBX` and `RET`. -/
def strayBody : List (BitVec 8) := [0xB8#8, 0x48#8, 0x83#8, 0xEC#8, 0x20#8, 0x5B#8, 0xC3#8]

theorem pushRbx_registered : registerUnwind (pushRbx.bytes ++ strayBody) = some [1#8, 6#8, 2#8, 0#8, 6#8, 0x32#8, 1#8, 0x30#8] := by decide

theorem pushRbx_decoded : decodeInfo [1#8, 6#8, 2#8, 0#8, 6#8, 0x32#8, 1#8, 0x30#8] =
    some ⟨6, 0#4, 0, [⟨6, .free 32⟩, ⟨1, .pop 3#4⟩]⟩ := by decide

/-- The push of `R12` takes two bytes, and its code stands at offset 1. After `PUSH RBX`, the immediate of a `MOV` is taken for an
allocation. -/
theorem push_wrong :
    (pushR12.bytes = [0x41#8, 0x54#8, 0x48#8, 0x83#8, 0xEC#8, 0x20#8] ∧
      ∃ info, registerUnwind (pushR12.bytes ++ [0xC3#8]) = some info ∧ ¬ pushR12.UnwindsRight info) ∧
    pushRbx.bytes = [0x53#8] ∧ ∃ info, registerUnwind (pushRbx.bytes ++ strayBody) = some info ∧ ¬ pushRbx.UnwindsRight info := by
  refine ⟨⟨by decide, _, pushR12_registered, ?_⟩, by decide, _, pushRbx_registered, ?_⟩
  · rintro ⟨u, hu, hu'⟩
    obtain rfl := Option.some.inj (pushR12_decoded.symm.trans hu)
    obtain ⟨i, hends, _⟩ := hu'.ends ⟨1, .pop 12#4⟩ (List.mem_cons_of_mem _ List.mem_cons_self)
    have hinsns : pushR12.insns = [] ++ .push 12#4 :: [.subRsp false 32] := rfl
    exact not_endsAt_inside pushR12 hinsns (by decide) (by decide) i hends
  · rintro ⟨u, hu, hu'⟩
    obtain rfl := Option.some.inj (pushRbx_decoded.symm.trans hu)
    obtain ⟨i, hends, _⟩ := hu'.ends ⟨6, .free 32⟩ List.mem_cons_self
    obtain ⟨-, hle⟩ := inProlog_of_endsAt pushRbx hends
    exact absurd hle (by decide)

/-- `PUSH RBX`, an allocation of 40 bytes with the frame setup of MIR, and a save of `R12` below the frame pointer. -/
def shapeMir : PrologShape := ⟨true, [3#4], none, some (false, 40), some (.r10, some 32#8), [(0xF8#8, 12#4)]⟩

theorem shapeMir_nodup : shapeMir.saved.Nodup := by decide

theorem shapeMir_rsp : rsp ∉ shapeMir.saved := by decide

theorem shapeMir_fits (wide : Bool) (n : Nat) (h : shapeMir.alloc = some (wide, n)) : n < if wide then 2 ^ 31 else 2 ^ 7 := by
  cases h
  decide

theorem shapeMir_nonvolatile : ∀ s ∈ shapeMir.saves, s.2 ∈ nonvolatile := List.forall_mem_singleton.2 (by decide)

theorem shapeMir_local : shapeMir.localCells = [(rbp, -16), (12#4, -24)] := rfl

theorem shapeMir_rspPos : shapeMir.rspPos = -48 := rfl

theorem shapeMir_size : shapeMir.size = 40 := rfl

theorem shapeMir_inside :
    ∀ c ∈ shapeMir.localCells, shapeMir.rspPos ≤ c.2 ∧ c.2 + 8 ≤ shapeMir.rspPos + shapeMir.size := by
  rw [shapeMir_local, shapeMir_rspPos, shapeMir_size]
  simp

theorem shapeMir_apart : shapeMir.localCells.Pairwise fun c c' => c.2 + 8 ≤ c'.2 ∨ c'.2 + 8 ≤ c.2 := by
  rw [shapeMir_local]
  simp

/-- The prologue of these instructions. -/
def mirPrologue : Prologue where
  toPrologShape := shapeMir
  size_mod := rfl
  size_fits := shapeMir_fits
  saved_nodup := shapeMir_nodup
  rsp_not_saved := shapeMir_rsp
  frame_once := fun _ => rfl
  saves_frame := fun _ => rfl
  saves_nonvolatile := shapeMir_nonvolatile
  rbp_not_late := fun h => absurd h Bool.false_ne_true
  cells_inside := shapeMir_inside
  cells_apart := shapeMir_apart

/-- `MOV RAX, [RBP-8]` and `RET`. -/
def mirBody : List (BitVec 8) := [0x48#8, 0x8B#8, 0x45#8, 0xF8#8, 0xC3#8]

theorem mirPrologue_quiet : mirPrologue.Quiet (mirBody.take (256 - mirPrologue.bytes.length)) where
  start := List.cons_ne_nil _ _
  pushes := fun h => absurd h (Option.some_ne_none _)
  frame := fun h => absurd h (Option.some_ne_none _)
  alloc := fun h => absurd h (Option.some_ne_none _)
  mir := fun h => absurd h (List.cons_ne_nil _ _)
  saves := fun _ _ _ => by decide

theorem shapeMir_cells : ∀ c ∈ shapeMir.localCells, c.2 % 8 = 0 := by
  rw [shapeMir_local]
  simp

theorem mirPrologue_described : mirPrologue.Described where
  low := by decide
  mir := fun _ => rfl
  frame := fun _ => ⟨rfl, by decide⟩
  cells := shapeMir_cells

/-- What is registered for it. -/
def mirInfo : List (BitVec 8) :=
  [1#8, 26#8, 7#8, 0x25#8, 26#8, 0xC4#8, 3#8, 0#8, 22#8, 3#8, 19#8, 0x54#8, 4#8, 0#8, 14#8, 0x42#8, 5#8, 0x30#8]

theorem mirPrologue_registered : registerUnwind (mirPrologue.bytes ++ mirBody) = some mirInfo := by decide

/-- This one is unwound right. -/
theorem mir_prologue_right : mirPrologue.UnwindsRight mirInfo :=
  (win64_unwind_right_iff mirPrologue mirPrologue_registered).2 ⟨mirPrologue_described, mirPrologue_quiet⟩

end Win64UnwindWitness
end PgJitter
