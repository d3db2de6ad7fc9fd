import PgJitter.Lib.FrameUnwind

/-!
# Windows unwind information for generated code

`win64_parse_prologue` and the header that `pg_jitter_win64_register_unwind` puts before its codes (`src/pg_jitter_common.c`). The parser
reads the instructions of a prologue from the head of the code and writes an array of `UNWIND_CODE`s, the last instruction first.

The other side is Windows: how it decodes the array and unwinds a frame by it. In between are the prologues themselves, as lists of
instructions that run on a machine.

A pointer into the code is its offset. A list that the source fills by index is kept with its last element first.
-/

namespace PgJitter

open ByteMemory FrameUnwind

/-! ## The pushes -/

/-- `push_reg` and `pushes_offset` of one push. -/
structure PushRec where
  /-- The register. -/
  reg : BitVec 4
  /-- Where the instruction starts. -/
  offset : Nat
  deriving Repr, DecidableEq

/-- `save_reg`, `save_rsp_off` and `save_code_off` of one register saved by a `MOV`. -/
structure SaveRec where
  /-- The register. -/
  reg : BitVec 4
  /-- Where it is saved, from the stack pointer. -/
  rspOff : Nat
  /-- Where the instruction ends. -/
  codeOff : Nat
  deriving Repr, DecidableEq

/-- What the loop over the pushes finds at the head of the code. -/
inductive HeadItem where
  | push (reg : BitVec 4)
  | movRbpRsp
  | skip
  deriving Repr, DecidableEq

/-- `PUSH r64`, without or with a REX.B prefix: its register and its length. -/
def pushInsn : List (BitVec 8) → Option (BitVec 4 × Nat)
  | [] => none
  | b :: p =>
    if 0x50#8 ≤ b ∧ b ≤ 0x57#8 then some ((b - 0x50#8).setWidth 4, 1)
    else
      match p with
      | [] => none
      | b₁ :: _ => if b = 0x41#8 ∧ 0x50#8 ≤ b₁ ∧ b₁ ≤ 0x57#8 then some (8#4 + (b₁ - 0x50#8).setWidth 4, 2) else none

/-- `MOV RBP, RSP` in either encoding. -/
def isMovRbpRsp (p : List (BitVec 8)) : Bool := p.take 3 == [0x48#8, 0x89#8, 0xE5#8] || p.take 3 == [0x48#8, 0x8B#8, 0xEC#8]

/-- A `MOV` or a `LEA` with a REX prefix that lies whole in the code: its length. -/
def skipInsn (p : List (BitVec 8)) : Option Nat :=
  match p with
  | rex :: opcode :: modrm :: _ =>
    if rex &&& 0xF0#8 = 0x40#8 ∧ (opcode = 0x89#8 ∨ opcode = 0x8B#8 ∨ opcode = 0x8D#8) then
      let mod := modrm >>> 6
      let rm := modrm &&& 7#8
      let len := 3 + (if rm = 4#8 ∧ mod ≠ 3#8 then 1 else 0) +
        (if mod = 1#8 then 1 else if mod = 2#8 then 4 else if mod = 0#8 ∧ rm = 5#8 then 4 else 0)
      if len ≤ p.length then some len else none
    else none
  | _ => none

/-- One turn of the loop over the pushes, with `non_push_skips`: what is found and its length. -/
def headItem (nonPushSkips : Nat) (p : List (BitVec 8)) : Option (HeadItem × Nat) :=
  match pushInsn p with
  | some (reg, len) => some (.push reg, len)
  | none =>
    if isMovRbpRsp p then some (.movRbpRsp, 3)
    else if nonPushSkips < 8 then (skipInsn p).map fun len => (.skip, len)
    else none

/-- The variables of the loop over the pushes. -/
structure HeadState where
  /-- `p`, as an offset. -/
  pos : Nat
  /-- The code from `p` to `end`. -/
  rest : List (BitVec 8)
  /-- The pushes. -/
  pushes : List PushRec
  /-- `set_fpreg_offset`. -/
  setFpregOffset : Nat
  /-- `*frame_reg_out`. -/
  frameReg : BitVec 8
  /-- `non_push_skips`. -/
  nonPushSkips : Nat
  deriving Repr, DecidableEq

/-- The loop steps over what it has found. -/
def HeadState.step (st : HeadState) : HeadItem → Nat → HeadState
  | .push reg, len =>
    { st with pos := st.pos + len, rest := st.rest.drop len, pushes := ⟨reg, st.pos⟩ :: st.pushes, nonPushSkips := 0 }
  | .movRbpRsp, len =>
    { st with pos := st.pos + len, rest := st.rest.drop len, setFpregOffset := (st.pos + 3) % 256, frameReg := 5#8,
              nonPushSkips := st.nonPushSkips + 1 }
  | .skip, len => { st with pos := st.pos + len, rest := st.rest.drop len, nonPushSkips := st.nonPushSkips + 1 }

/-- The loop over the pushes. Each turn takes a byte or more, so that as many turns as there are bytes are enough. -/
def headLoop : Nat → HeadState → HeadState
  | 0, st => st
  | turns + 1, st =>
    if st.pushes.length < 16 then
      match headItem st.nonPushSkips st.rest with
      | none => st
      | some (item, len) => headLoop turns (st.step item len)
    else st

/-! ## The allocation and the saves -/

/-- The scan for `SUB RSP, imm` from so many bytes on: `alloc_size`, and how far the instruction's end is. -/
def subScan (skipped : Nat) : List (BitVec 8) → Option (Nat × Nat)
  | b₀ :: b₁ :: b₂ :: b₃ :: rest =>
    if b₀ = 0x48#8 ∧ b₁ = 0x83#8 ∧ b₂ = 0xEC#8 then some (b₃.toNat, skipped + 4)
    else if 3 ≤ rest.length ∧ b₀ = 0x48#8 ∧ b₁ = 0x81#8 ∧ b₂ = 0xEC#8 then some (leNat (b₃ :: rest.take 3), skipped + 7)
    else subScan (skipped + 1) (b₁ :: b₂ :: b₃ :: rest)
  | _ => none

/-- `MOV [RSP+disp8], RBP` or `MOV [RSP], RBP`: `rbp_save_rsp_off` and the length. -/
def rbpSave : List (BitVec 8) → Option (Nat × Nat)
  | b₀ :: b₁ :: b₂ :: b₃ :: b₄ :: _ =>
    if b₀ = 0x48#8 ∧ b₁ = 0x89#8 ∧ b₂ = 0x6C#8 ∧ b₃ = 0x24#8 then some (b₄.toNat, 5)
    else if b₀ = 0x48#8 ∧ b₁ = 0x89#8 ∧ b₂ = 0x2C#8 ∧ b₃ = 0x24#8 then some (0, 4)
    else none
  | _ => none

/-- The frame pointer set up in the style of MIR after an allocation: `rbp_save_rsp_off`, the length of the save and that of both
instructions. -/
def mirSetup (allocSize : Nat) (p : List (BitVec 8)) : Option (Nat × Nat × Nat) :=
  if 0 < allocSize ∧ 7 ≤ p.length then
    match rbpSave p with
    | none => none
    | some (rspOff, len) =>
      let q := p.drop len
      if q.take 3 = [0x49#8, 0x8B#8, 0xEA#8] ∨ q.take 3 = [0x48#8, 0x8B#8, 0xE8#8] then some (rspOff, len, len + 3) else none
  else none

/-- `MOV [RBP+disp8], r64`: its displacement and its register. -/
def saveInsn : List (BitVec 8) → Option (BitVec 8 × BitVec 4)
  | b₀ :: b₁ :: b₂ :: b₃ :: _ =>
    if (b₀ = 0x4C#8 ∨ b₀ = 0x48#8) ∧ b₁ = 0x89#8 ∧ b₂ &&& 0xC7#8 = 0x45#8 then
      some (b₃, (if b₀ = 0x4C#8 then 8#4 else 0#4) + ((b₂ >>> 3) &&& 7#8).setWidth 4)
    else none
  | _ => none

/-- The loop over the saves, from the offset `pos`: the offset it leaves and the saves. As above for the turns. -/
def savesLoop (allocSize : Nat) : Nat → Nat → List (BitVec 8) → List SaveRec → Nat × List SaveRec
  | 0, pos, _, saves => (pos, saves)
  | turns + 1, pos, p, saves =>
    if saves.length < 8 then
      match saveInsn p with
      | none => (pos, saves)
      | some (disp, reg) =>
        let rspOff := (BitVec.ofNat 32 allocSize).toInt - 8 + disp.toInt
        let saves' := if 0 ≤ rspOff then ⟨reg, rspOff.toNat, (pos + 4) % 256⟩ :: saves else saves
        savesLoop allocSize turns (pos + 4) (p.drop 4) saves'
    else (pos, saves)

/-- What is known of a prologue when its codes are built. -/
structure ParsedPrologue where
  /-- The pushes. -/
  pushes : List PushRec
  /-- The registers saved by a `MOV`. -/
  saves : List SaveRec
  /-- `alloc_size`. -/
  allocSize : Nat
  /-- `alloc_offset`. -/
  allocOffset : Nat
  /-- `set_fpreg_offset`. -/
  setFpregOffset : Nat
  /-- `*prolog_size_out`. -/
  prologSize : Nat
  /-- `*frame_reg_out`. -/
  frameReg : BitVec 8
  /-- `*frame_offset_out`. -/
  frameOffset : BitVec 8
  deriving Repr, DecidableEq

/-- The saves after the frame pointer is set up, if it is. -/
def ParsedPrologue.takeSaves (q : ParsedPrologue) (pos : Nat) (p : List (BitVec 8)) : ParsedPrologue :=
  if q.frameReg = 5#8 ∧ 0 < q.allocSize then
    let (pos', saves) := savesLoop q.allocSize p.length pos p q.saves
    { q with saves, prologSize := pos' % 256 }
  else { q with prologSize := pos % 256 }

/-- From the allocation on. -/
def HeadState.takeFrame (st : HeadState) (allocSize len allocOffset : Nat) : ParsedPrologue :=
  let pos := st.pos + len
  let p := st.rest.drop len
  match mirSetup allocSize p with
  | some (rspOff, len, len') =>
    let fpRspOffset := BitVec.ofNat 32 allocSize - 8#32
    ParsedPrologue.takeSaves
      { pushes := st.pushes, saves := [⟨5#4, rspOff, (pos + len) % 256⟩], allocSize, allocOffset, setFpregOffset := (pos + len') % 256,
        prologSize := 0, frameReg := 5#8, frameOffset := BitVec.ofNat 8 (fpRspOffset.toNat / 16) } (pos + len') (p.drop len')
  | none =>
    ParsedPrologue.takeSaves
      { pushes := st.pushes, saves := [], allocSize, allocOffset, setFpregOffset := st.setFpregOffset, prologSize := 0,
        frameReg := st.frameReg, frameOffset := 0#8 } pos p

/-- `win64_parse_prologue` up to the codes. The first 256 bytes of the code are looked at. -/
def parseInsns (code : List (BitVec 8)) : ParsedPrologue :=
  let p := code.take 256
  let start := if p.take 4 = [0xF3#8, 0x0F#8, 0x1E#8, 0xFA#8] then 4 else 0
  let st := headLoop p.length ⟨start, p.drop start, [], 0, 0#8, 0⟩
  match subScan 0 (st.rest.take 64) with
  | some (allocSize, len) => st.takeFrame allocSize len ((st.pos + len) % 256)
  | none => st.takeFrame 0 0 0

/-! ## The codes -/

/-- One code that the parser writes: for a save, for the allocation, for the frame pointer, for a push. -/
inductive EmitItem where
  | save (s : SaveRec)
  | alloc
  | fpreg
  | push (p : PushRec)
  deriving Repr, DecidableEq

/-- What is still to be written. -/
structure Pending where
  /-- `!alloc_emitted`. -/
  alloc : Bool
  /-- `!fpreg_emitted`. -/
  fpreg : Bool
  /-- The pushes up to `pi`. -/
  pushes : List PushRec
  /-- The saves up to `si`. -/
  saves : List SaveRec
  deriving Repr, DecidableEq

/-- How many codes are still to be written. -/
def Pending.count (pd : Pending) : Nat := pd.alloc.toNat + pd.fpreg.toNat + pd.pushes.length + pd.saves.length

/-- `push_off` of a push. -/
def PushRec.codeOff (p : PushRec) : Nat := (p.offset + 1) % 256

/-- One turn of the loop over the codes: the item with the highest offset, and what is left. -/
def ParsedPrologue.next (q : ParsedPrologue) (pd : Pending) : Option (EmitItem × Pending) :=
  let pushOff := (pd.pushes.head?.map PushRec.codeOff).getD 0
  let aOff := if pd.alloc then q.allocOffset else 0
  let fOff := if pd.fpreg then q.setFpregOffset else 0
  match pd.saves.head?.filter fun s => aOff ≤ s.codeOff && fOff ≤ s.codeOff && pushOff ≤ s.codeOff with
  | some s => some (.save s, { pd with saves := pd.saves.tail })
  | none =>
    if pd.alloc ∧ fOff ≤ aOff ∧ pushOff ≤ aOff then some (.alloc, { pd with alloc := false })
    else if pd.fpreg ∧ pushOff ≤ fOff then some (.fpreg, { pd with fpreg := false })
    else
      match pd.pushes with
      | p :: pushes => some (.push p, { pd with pushes })
      | [] => none

/-- `UWOP_PUSH_NONVOL`. -/
def uwopPushNonvol : BitVec 4 := 0#4

/-- `UWOP_ALLOC_LARGE`. -/
def uwopAllocLarge : BitVec 4 := 1#4

/-- `UWOP_ALLOC_SMALL`. -/
def uwopAllocSmall : BitVec 4 := 2#4

/-- `UWOP_SET_FPREG`. -/
def uwopSetFpreg : BitVec 4 := 3#4

/-- `UWOP_SAVE_NONVOL`. -/
def uwopSaveNonvol : BitVec 4 := 4#4

/-- The first slot of a code: its offset, its operation and the information in the high bits. -/
def codeSlot (off : Nat) (op info : BitVec 4) : List (BitVec 8) := [BitVec.ofNat 8 off, info ++ op]

/-- The slots of one code. -/
def ParsedPrologue.slots (q : ParsedPrologue) : EmitItem → List (BitVec 8)
  | .save s => codeSlot s.codeOff uwopSaveNonvol s.reg ++ leBytes 2 (s.rspOff / 8)
  | .alloc =>
    if q.allocSize ≤ 128 ∧ q.allocSize % 8 = 0 then
      codeSlot q.allocOffset uwopAllocSmall (BitVec.ofNat 4 (q.allocSize / 8 - 1))
    else if q.allocSize ≤ 512 * 1024 - 8 ∧ q.allocSize % 8 = 0 then
      codeSlot q.allocOffset uwopAllocLarge 0#4 ++ leBytes 2 (q.allocSize / 8)
    else codeSlot q.allocOffset uwopAllocLarge 1#4 ++ leBytes 4 q.allocSize
  | .fpreg => codeSlot q.setFpregOffset uwopSetFpreg 0#4
  | .push p => codeSlot p.codeOff uwopPushNonvol p.reg

/-- The loop over the codes: the array it writes, of two bytes a slot, unless there is no room for a code in `max_codes` slots. -/
def ParsedPrologue.emitLoop (q : ParsedPrologue) (maxCodes : Nat) : Nat → Pending → List (BitVec 8) → Option (List (BitVec 8))
  | 0, _, codes => some codes
  | turns + 1, pd, codes =>
    match q.next pd with
    | none => some codes
    | some (item, pd') =>
      if maxCodes < codes.length / 2 + (q.slots item).length / 2 then none
      else q.emitLoop maxCodes turns pd' (codes ++ q.slots item)

/-- What the loop over the codes starts from. -/
def ParsedPrologue.pending (q : ParsedPrologue) : Pending := ⟨q.allocSize != 0, q.setFpregOffset != 0, q.pushes, q.saves⟩

/-- The codes of `win64_parse_prologue`; the array is empty where it returns 0. -/
def ParsedPrologue.codes (q : ParsedPrologue) (maxCodes : Nat) : List (BitVec 8) :=
  (q.emitLoop maxCodes q.pending.count q.pending []).getD []

/-- `WIN64_MAX_UNWIND_CODES`. -/
def maxUnwindCodes : Nat := 34

/-- The `UNWIND_INFO` that `pg_jitter_win64_register_unwind` registers for the code, if it registers one: version and flags, the size of
the prologue, the number of codes, the frame register and its offset, and the codes. -/
def registerUnwind (code : List (BitVec 8)) : Option (List (BitVec 8)) :=
  let q := parseInsns code
  let codes := q.codes maxUnwindCodes
  if codes.length / 2 = 0 then none
  else
    let frame := (q.frameReg &&& 0x0F#8) ||| ((q.frameOffset &&& 0x0F#8) <<< 4)
    some ([1#8, BitVec.ofNat 8 q.prologSize, BitVec.ofNat 8 (codes.length / 2), frame] ++ codes)

/-! ## Windows -/

/-- A code: the offset in the prologue where its instruction ends, and how it is undone. -/
structure UnwindCode where
  /-- The offset. -/
  offset : Nat
  /-- What undoes the instruction. -/
  op : Op (BitVec 4)
  deriving Repr, DecidableEq

/-- `RSP`. -/
def rsp : BitVec 4 := 4#4

/-- `RBP`. -/
def rbp : BitVec 4 := 5#4

/-- The array of codes, read slot by slot. -/
def decodeCodes : List (BitVec 8) → Option (List UnwindCode)
  | [] => some []
  | [_] => none
  | off :: b :: rest =>
    let info := b.extractLsb' 4 4
    let code := fun op => UnwindCode.mk off.toNat op
    if b.extractLsb' 0 4 = uwopPushNonvol then (decodeCodes rest).map (code (.pop info) :: ·)
    else if b.extractLsb' 0 4 = uwopAllocSmall then (decodeCodes rest).map (code (.free (info.toNat * 8 + 8)) :: ·)
    else if b.extractLsb' 0 4 = uwopSetFpreg then (decodeCodes rest).map (code .rebase :: ·)
    else
      match rest with
      | x₀ :: x₁ :: rest =>
        if b.extractLsb' 0 4 = uwopSaveNonvol then (decodeCodes rest).map (code (.reload info (leNat [x₀, x₁] * 8)) :: ·)
        else if b.extractLsb' 0 4 = uwopAllocLarge ∧ info = 0#4 then (decodeCodes rest).map (code (.free (leNat [x₀, x₁] * 8)) :: ·)
        else
          match rest with
          | x₂ :: x₃ :: rest =>
            if b.extractLsb' 0 4 = uwopAllocLarge ∧ info = 1#4 then
              (decodeCodes rest).map (code (.free (leNat [x₀, x₁, x₂, x₃])) :: ·)
            else none
          | _ => none
      | _ => none

/-- An `UNWIND_INFO` as Windows reads it. -/
structure UnwindInfo where
  /-- The size of the prologue. -/
  prologSize : Nat
  /-- The frame register, 0 for none. -/
  frameReg : BitVec 4
  /-- The offset of the frame register, in units of 16 bytes. -/
  frameOffset : Nat
  /-- The codes. -/
  codes : List UnwindCode
  deriving Repr, DecidableEq

/-- Read an `UNWIND_INFO`. -/
def decodeInfo : List (BitVec 8) → Option UnwindInfo
  | _ :: size :: count :: frame :: slots =>
    (decodeCodes (slots.take (2 * count.toNat))).map fun codes =>
      ⟨size.toNat, frame.extractLsb' 0 4, (frame.extractLsb' 4 4).toNat, codes⟩
  | _ => none

/-- Windows unwinds a frame from an offset in the code, up to where the return address is on top of the stack: the instructions that have
been executed are undone, and what is saved by a `MOV` is found from where the stack pointer was when the frame pointer was set. -/
def UnwindInfo.virtualUnwind (u : UnwindInfo) (pc : Nat) (σ : Machine (BitVec 4)) : Machine (BitVec 4) :=
  let ops := (u.codes.filter fun c => decide (u.prologSize ≤ pc ∨ c.offset ≤ pc)).map UnwindCode.op
  let frame : FrameRegs (BitVec 4) := ⟨rsp, u.frameReg, 16 * u.frameOffset⟩
  let base :=
    if u.frameReg ≠ 0#4 ∧ (u.prologSize ≤ pc ∨ .rebase ∈ ops) then σ.regs u.frameReg - BitVec.ofNat 64 (16 * u.frameOffset)
    else σ.regs rsp
  unwind frame base ops σ

/-! ## The instructions of a prologue -/

/-- The register that carries the frame pointer in a prologue of MIR. -/
inductive MirTemp where
  | r10 | rax
  deriving Repr, DecidableEq

/-- Its number. -/
def MirTemp.reg : MirTemp → BitVec 4
  | .r10 => 10#4
  | .rax => 0#4

/-- An instruction of a prologue. -/
inductive PrologInsn where
  /-- `ENDBR64`. -/
  | endbr64
  /-- `PUSH r64`. -/
  | push (r : BitVec 4)
  /-- `MOV RBP, RSP`, in its second encoding or its first. -/
  | movRbpRsp (alt : Bool)
  /-- `SUB RSP, n`, with 32 bits of immediate or with 8. -/
  | subRsp (wide : Bool) (n : Nat)
  /-- `LEA t, [RSP-8]`. -/
  | lea (t : MirTemp)
  /-- `MOV [RSP+disp8], RBP`, or `MOV [RSP], RBP`. -/
  | saveRbp (disp : Option (BitVec 8))
  /-- `MOV RBP, t`. -/
  | movRbp (t : MirTemp)
  /-- `MOV [RBP+disp8], r64`. -/
  | save (disp : BitVec 8) (r : BitVec 4)
  deriving Repr, DecidableEq

/-- The bytes of an instruction. -/
def PrologInsn.encode : PrologInsn → List (BitVec 8)
  | .endbr64 => [0xF3#8, 0x0F#8, 0x1E#8, 0xFA#8]
  | .push r =>
    if r < 8#4 then [0b01010#5 ++ r.extractLsb' 0 3] else [0x41#8, 0b01010#5 ++ r.extractLsb' 0 3]
  | .movRbpRsp false => [0x48#8, 0x89#8, 0xE5#8]
  | .movRbpRsp true => [0x48#8, 0x8B#8, 0xEC#8]
  | .subRsp false n => [0x48#8, 0x83#8, 0xEC#8, BitVec.ofNat 8 n]
  | .subRsp true n => [0x48#8, 0x81#8, 0xEC#8] ++ leBytes 4 n
  | .lea .r10 => [0x4C#8, 0x8D#8, 0x54#8, 0x24#8, 0xF8#8]
  | .lea .rax => [0x48#8, 0x8D#8, 0x44#8, 0x24#8, 0xF8#8]
  | .saveRbp (some disp) => [0x48#8, 0x89#8, 0x6C#8, 0x24#8, disp]
  | .saveRbp none => [0x48#8, 0x89#8, 0x2C#8, 0x24#8]
  | .movRbp .r10 => [0x49#8, 0x8B#8, 0xEA#8]
  | .movRbp .rax => [0x48#8, 0x8B#8, 0xE8#8]
  | .save disp r => [0b01001#5 ++ r.extractLsb' 3 1 ++ 0b00#2, 0x89#8, 0b01#2 ++ r.extractLsb' 0 3 ++ 0b101#3, disp]

/-- What an instruction does. -/
def PrologInsn.exec (σ : Machine (BitVec 4)) : PrologInsn → Machine (BitVec 4)
  | .endbr64 => σ
  | .push r => { σ.set rsp (σ.regs rsp - 8#64) with mem := store σ.mem (σ.regs rsp - 8#64) (σ.regs r) }
  | .movRbpRsp _ => σ.set rbp (σ.regs rsp)
  | .subRsp _ n => σ.set rsp (σ.regs rsp - BitVec.ofNat 64 n)
  | .lea t => σ.set t.reg (σ.regs rsp - 8#64)
  | .saveRbp disp => { σ with mem := store σ.mem (σ.regs rsp + (disp.getD 0#8).signExtend 64) (σ.regs rbp) }
  | .movRbp t => σ.set rbp (σ.regs t.reg)
  | .save disp r => { σ with mem := store σ.mem (σ.regs rbp + disp.signExtend 64) (σ.regs r) }

/-- The bytes of some instructions. -/
def encodeProlog (insns : List PrologInsn) : List (BitVec 8) := insns.flatMap PrologInsn.encode

/-- Some instructions run one after the other. -/
def runProlog (insns : List PrologInsn) (σ : Machine (BitVec 4)) : Machine (BitVec 4) := insns.foldl PrologInsn.exec σ

/-! ## Prologues -/

/-- The registers that a function must give back as it found them. -/
def nonvolatile : List (BitVec 4) := [3#4, 5#4, 6#4, 7#4, 12#4, 13#4, 14#4, 15#4]

/-- Cells of the pushes, from the position of the stack pointer on. -/
def pushCells (top : ℤ) : List (BitVec 4) → List (BitVec 4 × ℤ)
  | [] => []
  | r :: rs => (r, top - 8) :: pushCells (top - 8) rs

/-- How a prologue is made up, in the order of its instructions. -/
structure PrologShape where
  /-- It starts with an `ENDBR64`. -/
  endbr : Bool
  /-- The registers that are pushed, up to the `MOV RBP, RSP`. -/
  pushes : List (BitVec 4)
  /-- The `MOV RBP, RSP`, if there is one, and the registers that are pushed after it. -/
  frame : Option (Bool × List (BitVec 4))
  /-- The `SUB RSP`, if there is one: with a wide immediate or not, and the size. -/
  alloc : Option (Bool × Nat)
  /-- The frame setup of MIR, if it is there: the register that carries the frame pointer, and the displacement of the saved `RBP`. -/
  mir : Option (MirTemp × Option (BitVec 8))
  /-- The registers saved below the frame pointer, and their displacements. -/
  saves : List (BitVec 8 × BitVec 4)

namespace PrologShape

variable (p : PrologShape)

/-- The registers pushed after the `MOV RBP, RSP`. -/
def latePushes : List (BitVec 4) := (p.frame.map Prod.snd).getD []

/-- `non_push_skips` after the pushes: a `MOV RBP, RSP` counts until a register is pushed. -/
def headSkips : Nat := if p.frame.map Prod.snd = some [] then 1 else 0

/-- The registers that are pushed. -/
def allPushes : List (BitVec 4) := p.pushes ++ p.latePushes

/-- The size of the allocation. -/
def size : Nat := (p.alloc.map Prod.snd).getD 0

/-- Where the stack pointer is after the prologue. -/
def rspPos : ℤ := -(8 * p.allPushes.length + p.size : ℤ)

/-- Where the frame pointer is, if the prologue sets it. -/
def fpPos : ℤ := if p.mir.isSome then -(8 * p.allPushes.length + 8 : ℤ) else -(8 * p.pushes.length : ℤ)

/-- The prologue sets the frame pointer. -/
def setsFrame : Bool := p.mir.isSome || p.frame.isSome

/-- The cell of the `RBP` that MIR saves. -/
def rbpCell : List (BitVec 4 × ℤ) :=
  match p.mir with
  | some (_, disp) => [(rbp, p.rspPos + (disp.getD 0#8).toInt)]
  | none => []

/-- The cells of the registers saved below the frame pointer. -/
def saveCells : List (BitVec 4 × ℤ) := p.saves.map fun s => (s.2, p.fpPos + s.1.toInt)

/-- The cells inside the allocation. -/
def localCells : List (BitVec 4 × ℤ) := p.rbpCell ++ p.saveCells

/-- All cells. -/
def cells : List (BitVec 4 × ℤ) := pushCells 0 p.allPushes ++ p.localCells

/-- The registers that the prologue saves. -/
def saved : List (BitVec 4) := p.allPushes ++ p.localCells.map Prod.fst

/-- The pushes, and the `MOV RBP, RSP` among them. -/
def headInsns : List PrologInsn :=
  p.pushes.map .push ++
    match p.frame with
    | some (alt, late) => .movRbpRsp alt :: late.map .push
    | none => []

/-- The allocation; MIR takes the frame pointer before it, and sets it after it. -/
def frameInsns : List PrologInsn :=
  (match p.mir with
    | some (t, _) => [.lea t]
    | none => []) ++
  (match p.alloc with
    | some (wide, n) => [.subRsp wide n]
    | none => []) ++
  match p.mir with
    | some (t, disp) => [.saveRbp disp, .movRbp t]
    | none => []

/-- The saves below the frame pointer. -/
def saveInsns : List PrologInsn := p.saves.map fun s => .save s.1 s.2

/-- The instructions. -/
def insns : List PrologInsn :=
  (if p.endbr then [.endbr64] else []) ++ (p.headInsns ++ (p.frameInsns ++ p.saveInsns))

/-- The code of the prologue. -/
def bytes : List (BitVec 8) := encodeProlog p.insns

end PrologShape

/-- A prologue: it saves registers as it found them, each once, and builds a frame that holds them apart. -/
structure Prologue extends PrologShape where
  /-- The size of the allocation is a multiple of eight. -/
  size_mod : toPrologShape.size % 8 = 0
  /-- The size fits the immediate, which is signed. -/
  size_fits : ∀ wide n, alloc = some (wide, n) → n < if wide then 2 ^ 31 else 2 ^ 7
  /-- No register is saved twice. -/
  saved_nodup : toPrologShape.saved.Nodup
  /-- The stack pointer is not saved as a register. -/
  rsp_not_saved : rsp ∉ toPrologShape.saved
  /-- The frame pointer is set in one way. -/
  frame_once : mir.isSome → frame = none
  /-- Registers are saved below a frame pointer that has been set. -/
  saves_frame : saves ≠ [] → toPrologShape.setsFrame
  /-- Only what a function must give back is saved below the frame pointer. -/
  saves_nonvolatile : ∀ s ∈ saves, s.2 ∈ nonvolatile
  /-- `RBP` is not saved when it has become the frame pointer. -/
  rbp_not_late : frame.isSome → rbp ∉ toPrologShape.latePushes ++ saves.map Prod.snd
  /-- What is not pushed is saved inside the allocation. -/
  cells_inside : ∀ c ∈ toPrologShape.localCells, toPrologShape.rspPos ≤ c.2 ∧ c.2 + 8 ≤ toPrologShape.rspPos + toPrologShape.size
  /-- It is saved in cells that do not meet. -/
  cells_apart : toPrologShape.localCells.Pairwise fun c c' => c.2 + 8 ≤ c'.2 ∨ c'.2 + 8 ≤ c.2

/-! ## What the codes are for -/

namespace Prologue

variable (p : Prologue)

/-- The loop over the pushes in the code after the prologue: it goes on there if no allocation ends it. -/
def headAfter (body : List (BitVec 8)) : HeadState := headLoop body.length ⟨p.bytes.length, body, [], 0, 0#8, p.headSkips⟩

/-- There is a prologue, and the parser takes nothing for it that comes from the code after it. Without an allocation the loop over the
pushes goes on into that code, and the scan for an allocation takes up where it ends; a frame setup of MIR and saves are looked for where
the prologue has none, and no more than eight saves are taken. What has no effect may be found: a `MOV` that is stepped over, an allocation
of size zero, a save below the stack pointer, and a `MOV RBP, RSP` whose end, at 256, is kept as 0. -/
structure Quiet (body : List (BitVec 8)) : Prop where
  start : p.insns ≠ []
  pushes : p.alloc = none → (p.headAfter body).pushes = []
  frame : p.alloc = none → (p.headAfter body).setFpregOffset = 0
  alloc : p.alloc = none → ∀ n len, subScan 0 ((p.headAfter body).rest.take 64) = some (n, len) → n = 0
  mir : p.saves = [] → p.mir = none → mirSetup p.size body = none
  saves : p.setsFrame → 0 < p.size → p.localCells.length < 8 → (savesLoop p.size body.length p.bytes.length body []).2 = []

/-- The instruction ends at this offset. -/
def EndsAt (i : PrologInsn) (off : Nat) : Prop :=
  ∃ pre post, p.insns = pre ++ i :: post ∧ off = (encodeProlog pre).length + i.encode.length

/-- The machine in the body of the function, entered in `entry`: the stack pointer, the frame pointer and the saved words are as the
prologue has left them. -/
structure InBody (entry σ : Machine (BitVec 4)) : Prop where
  rsp : σ.regs rsp = (runProlog p.insns entry).regs rsp
  rbp : p.setsFrame → σ.regs rbp = (runProlog p.insns entry).regs rbp
  cells : ∀ c ∈ p.cells, ∀ b, Within (addr (entry.regs PgJitter.rsp) c.2) b → σ.mem b = (runProlog p.insns entry).mem b

end Prologue

/-- The code is about an instruction of this kind. -/
def Describes : Op (BitVec 4) → PrologInsn → Prop
  | .pop r, .push r' => r = r'
  | .free n, .subRsp _ n' => n = n'
  | .rebase, .movRbpRsp _ => True
  | .rebase, .movRbp _ => True
  | .reload r _, .saveRbp _ => r = rbp
  | .reload r _, .save _ r' => r = r'
  | _, _ => False

/-- The information is right about a prologue: the codes stand at the ends of its instructions, the highest first, and unwinding from the
body gives back the stack pointer and what a function must give back. -/
structure UnwindInfo.Right (u : UnwindInfo) (p : Prologue) : Prop where
  descending : u.codes.Pairwise fun c c' => c'.offset < c.offset
  ends : ∀ c ∈ u.codes, ∃ i, p.EndsAt i c.offset ∧ Describes c.op i
  unwinds : ∀ entry σ pc, p.InBody entry σ → p.bytes.length ≤ pc →
    (u.virtualUnwind pc σ).regs rsp = entry.regs rsp ∧
      ∀ r ∈ p.saved, r ∈ nonvolatile → (u.virtualUnwind pc σ).regs r = entry.regs r

/-- What is registered is right about a prologue. -/
def Prologue.UnwindsRight (p : Prologue) (info : List (BitVec 8)) : Prop := ∃ u, decodeInfo info = some u ∧ u.Right p

/-- The prologues that the parser describes: no push of `R8` to `R15`, registers saved by a `MOV` only below the frame pointer of MIR, in
cells at a multiple of eight bytes, and there an allocation of 8 bytes more than a multiple of 16, of no more than 248. -/
structure Prologue.Described (p : Prologue) : Prop where
  low : ∀ r ∈ p.allPushes, r < 8#4
  mir : p.saves ≠ [] → p.mir.isSome
  frame : p.mir.isSome → p.size % 16 = 8 ∧ p.size ≤ 248
  cells : ∀ c ∈ p.localCells, c.2 % 8 = 0

end PgJitter
