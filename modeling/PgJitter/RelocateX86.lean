import PgJitter.Lib.ByteMemory
import PgJitter.Relocate

/-!
# Relocating helper addresses in copied x86-64 code

`pg_jitter_relocate_dylib_addrs` in its x86-64 branch, and the test for an indirect branch behind it
(`src/pg_jitter_common.c`). The code is a list of bytes. The lookup of known helpers and the two `mprotect` calls are those of
the ARM64 branch.

The last part is the other side: a buffer put together from whole instructions.
-/

namespace PgJitter

open ByteMemory

/-- A REX prefix at the head of what is left, or `0`, and what comes after it. -/
def takeRex : List (BitVec 8) → BitVec 8 × List (BitVec 8)
  | b :: rest => if b &&& 0xF0#8 = 0x40#8 then (b, rest) else (0#8, b :: rest)
  | [] => (0#8, [])

/-- A register number from the low bits of a byte and the low bit of a REX prefix. -/
def extendReg (rex low : BitVec 8) : BitVec 8 := (low &&& 7#8) ||| (if rex &&& 1#8 ≠ 0#8 then 8#8 else 0#8)

/-- `pg_jitter_x86_movabs_followed_by_indirect_branch`, on the bytes from `pos` to the end of the code. -/
def movabsFollowedByIndirectBranch (bytes : List (BitVec 8)) (reg : BitVec 8) : Bool :=
  let rex := (takeRex bytes).1
  match (takeRex bytes).2 with
  | opcode :: modrm :: _ =>
    let op := (modrm >>> 3) &&& 7#8
    opcode == 0xFF#8 && modrm &&& 0xC0#8 == 0xC0#8 && (op == 2#8 || op == 4#8) && extendReg rex modrm == reg
  | _ => false

/-- What one turn of the scan finds at the head of what is left: the immediate of a `MOV r, imm64` whose register is the target of
the indirect branch that comes next. -/
def movabsCallAddr : List (BitVec 8) → Option (BitVec 64)
  | rex :: opc :: b0 :: b1 :: b2 :: b3 :: b4 :: b5 :: b6 :: b7 :: rest =>
    if rex ≠ 0x48#8 ∧ rex ≠ 0x49#8 then none
    else if opc &&& 0xF8#8 ≠ 0xB8#8 then none
    else if movabsFollowedByIndirectBranch rest (extendReg rex opc) then
      some (BitVec.ofNat 64 (leNat [b0, b1, b2, b3, b4, b5, b6, b7]))
    else none
  | _ => none

/-- What the scan leaves: the bytes, `patched` and `unknown_call_target`. -/
structure RelocScanX86 where
  /-- The code bytes. -/
  bytes : List (BitVec 8)
  /-- How many immediates were patched. -/
  patched : Nat
  /-- A call through an address that no helper has was seen. -/
  unknownCallTarget : Bool
  deriving Repr, DecidableEq

/-- The byte the loop stands on stays as it is. -/
def RelocScanX86.keep (b : BitVec 8) (r : RelocScanX86) : RelocScanX86 := { r with bytes := b :: r.bytes }

/-- The loop of `pg_jitter_relocate_dylib_addrs` from one offset on: the list is what is left of the code there, a patched
instruction is left behind whole, and anything else moves the offset by one byte. -/
def relocLoopX86 (table : HelperTable) (delta : BitVec 64) : List (BitVec 8) → RelocScanX86
  | rex :: opc :: b0 :: b1 :: b2 :: b3 :: b4 :: b5 :: b6 :: b7 :: rest =>
    match movabsCallAddr (rex :: opc :: b0 :: b1 :: b2 :: b3 :: b4 :: b5 :: b6 :: b7 :: rest) with
    | none => (relocLoopX86 table delta (opc :: b0 :: b1 :: b2 :: b3 :: b4 :: b5 :: b6 :: b7 :: rest)).keep rex
    | some addr =>
      match relocLookupKnownHelper table addr delta with
      | none =>
        let r := relocLoopX86 table delta (opc :: b0 :: b1 :: b2 :: b3 :: b4 :: b5 :: b6 :: b7 :: rest)
        { r.keep rex with unknownCallTarget := true }
      | some newAddr =>
        let r := relocLoopX86 table delta rest
        { r with bytes := rex :: opc :: (leBytes 8 newAddr.toNat ++ r.bytes), patched := r.patched + 1 }
  | bytes => ⟨bytes, 0, false⟩

/-- `pg_jitter_relocate_dylib_addrs` on x86-64: its result and the bytes of the buffer behind the handle. The first `code_size`
bytes are scanned. -/
def relocateDylibAddrsX86 (table : HelperTable) (mp : MProtect) (handle : Option (List (BitVec 8))) (codeSize : Nat)
    (leaderRefAddr workerRefAddr : BitVec 64) : ℤ × Option (List (BitVec 8)) :=
  match handle with
  | none => (0, none)
  | some bytes =>
    if leaderRefAddr = workerRefAddr then (0, some bytes)
    else if mp.toWrite then
      let r := relocLoopX86 table (workerRefAddr - leaderRefAddr) (bytes.take codeSize)
      let bytes' := r.bytes ++ bytes.drop codeSize
      if mp.toExec then (if r.unknownCallTarget then -1 else (r.patched : ℤ), some bytes')
      else (-1, some bytes')
    else (-1, some bytes)

/-! ## The instructions -/

/-- The two indirect branches. -/
inductive IndirectOp where
  | call | jmp
  deriving Repr, DecidableEq

/-- The opcode field of the ModRM byte. -/
def IndirectOp.field : IndirectOp → BitVec 3
  | .call => 2
  | .jmp => 4

/-- One of the sixteen registers: the bit a REX prefix adds and the three bits of the instruction. -/
def regNum (rexB : Bool) (low : BitVec 3) : BitVec 4 := BitVec.ofBool rexB ++ low

/-- An instruction of the buffer. -/
inductive X86Insn where
  /-- `MOV r64, imm64`: the R, X and B bits of its REX prefix, the low bits of its register and the immediate. R and X say nothing
  here. -/
  | movImm64 (r x b : Bool) (rd : BitVec 3) (imm : BitVec 64)
  /-- `CALL r64` or `JMP r64`: the REX prefix, if there is one, as its W, R and X bits and its B bit, and the low bits of the
  register. -/
  | branch (rex : Option (BitVec 3 × Bool)) (op : IndirectOp) (rm : BitVec 3)
  /-- Any other instruction. -/
  | other (bytes : List (BitVec 8))
  deriving Repr, DecidableEq

/-- The bytes of an instruction. -/
def X86Insn.encode : X86Insn → List (BitVec 8)
  | .movImm64 r x b rd imm =>
    [0b01001#5 ++ BitVec.ofBool r ++ BitVec.ofBool x ++ BitVec.ofBool b, 0b10111#5 ++ rd] ++ leBytes 8 imm.toNat
  | .branch none op rm => [0xFF#8, 0b11#2 ++ op.field ++ rm]
  | .branch (some (wrx, b)) op rm => [0b0100#4 ++ wrx ++ BitVec.ofBool b, 0xFF#8, 0b11#2 ++ op.field ++ rm]
  | .other bytes => bytes

/-- The B bit of a branch: that of its prefix. -/
def rexB : Option (BitVec 3 × Bool) → Bool
  | none => false
  | some (_, b) => b

/-- A code buffer: its instructions one after the other. -/
def assemble (insns : List X86Insn) : List (BitVec 8) := insns.flatMap X86Insn.encode

/-! ## What a relocation is for -/

/-- The instruction at offset `p` is a `MOV r64, imm64` with the constant `imm`, and the next one a call or a jump through its
register. -/
def CallMovAt (insns : List X86Insn) (p : Nat) (imm : BitVec 64) : Prop :=
  ∃ pre r x b rd rex op rm post, insns = pre ++ .movImm64 r x b rd imm :: .branch rex op rm :: post ∧
    regNum (rexB rex) rm = regNum b rd ∧ p = (assemble pre).length

/-- The eight bytes from `p + 2` on are the immediate `imm`. -/
def ImmAt (bytes : List (BitVec 8)) (p : Nat) (imm : BitVec 64) : Prop :=
  ∀ n, n < 8 → bytes[p + 2 + n]? = (leBytes 8 imm.toNat)[n]?

/-- A relocation of the buffer into `bytes'` that returns `ret`: when it succeeds, the constants of the calls are the worker's
helpers and every other byte is as it was, and it does not succeed with a call of an unknown address. -/
structure RelocatedX86 (table : HelperTable) (delta : BitVec 64) (insns : List X86Insn) (bytes' : List (BitVec 8)) (ret : ℤ) :
    Prop where
  calls : 0 ≤ ret → ∀ p imm, CallMovAt insns p imm → IsHelper table (imm + delta) ∧ ImmAt bytes' p (imm + delta)
  length : 0 ≤ ret → bytes'.length = (assemble insns).length
  others : 0 ≤ ret → ∀ k, bytes'[k]? ≠ (assemble insns)[k]? → ∃ p imm, CallMovAt insns p imm ∧ p + 2 ≤ k ∧ k < p + 10
  refused : (∃ p imm, CallMovAt insns p imm ∧ ¬ IsHelper table (imm + delta)) → ret < 0

/-! ## What the scan comes upon -/

/-- The scan patches at the head of these bytes. -/
def Patches (table : HelperTable) (delta : BitVec 64) (bytes : List (BitVec 8)) : Prop :=
  ∃ addr, movabsCallAddr bytes = some addr ∧ IsHelper table (addr + delta)

/-- The offsets the scan stands on: from each to the next byte, or over the ten bytes of an instruction it patches. -/
inductive ScanReaches (table : HelperTable) (delta : BitVec 64) : List (BitVec 8) → Nat → Prop
  | here (bytes) : ScanReaches table delta bytes 0
  | next (b rest i) : ¬ Patches table delta (b :: rest) → ScanReaches table delta rest i →
      ScanReaches table delta (b :: rest) (i + 1)
  | skip (bytes i) : Patches table delta bytes → ScanReaches table delta (bytes.drop 10) i →
      ScanReaches table delta bytes (i + 10)

/-- The scan stands on `i` and finds a call through `addr` there. -/
def FoundAt (table : HelperTable) (delta : BitVec 64) (bytes : List (BitVec 8)) (i : Nat) (addr : BitVec 64) : Prop :=
  ScanReaches table delta bytes i ∧ movabsCallAddr (bytes.drop i) = some addr

end PgJitter
