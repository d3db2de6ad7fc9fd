import Mathlib.Data.List.Basic
import Mathlib.Data.Int.Notation

/-!
# Relocating helper addresses in copied ARM64 code

`pg_jitter_relocate_dylib_addrs` and the lookup of known helpers behind it (`src/pg_jitter_common.c`, the ARM64 branch). The
code words are a list; the table of helpers (the fixed ones and the direct functions) holds the worker's addresses, with `0`
for `NULL`. The outcome of the two `mprotect` calls around the scan is an input.

The last part is the other side: the instructions themselves, as the architecture encodes them.
-/

namespace PgJitter

/-- One instruction word. -/
abbrev Insn := BitVec 32

/-- The helpers a worker knows: `fixed_helpers` and the `jit_fn` column of `jit_direct_fns`. -/
structure HelperTable where
  /-- `fixed_helpers` -/
  fixedHelpers : List (BitVec 64)
  /-- `jit_direct_fns[].jit_fn` -/
  jitDirectFns : List (BitVec 64)
  deriving Repr, DecidableEq

/-- `pg_jitter_reloc_match_worker_addr`. -/
def relocMatchWorkerAddr (workerPtr leaderAddr delta : BitVec 64) : Option (BitVec 64) :=
  if workerPtr = 0#64 then none
  else if workerPtr - delta ≠ leaderAddr then none
  else some workerPtr

/-- `pg_jitter_reloc_lookup_known_helper`: the fixed helpers first, then the direct functions. -/
def relocLookupKnownHelper (table : HelperTable) (leaderAddr delta : BitVec 64) : Option (BitVec 64) :=
  match table.fixedHelpers.findSome? (fun p => relocMatchWorkerAddr p leaderAddr delta) with
  | some workerAddr => some workerAddr
  | none => table.jitDirectFns.findSome? (fun p => relocMatchWorkerAddr p leaderAddr delta)

/-- The register a MOVZ names: `w0 & 0x1F`. -/
def movzRd (w0 : Insn) : Insn := w0 &&& 0x1F#32

/-- The four tests for MOVZ and three MOVK into one register. -/
def isConstSequence (w0 w1 w2 w3 : Insn) : Bool :=
  let rd := movzRd w0
  w0 &&& 0xFFE00000#32 == 0xD2800000#32 &&
    w1 &&& 0xFFE0001F#32 == (0xF2A00000#32 ||| rd) &&
    w2 &&& 0xFFE0001F#32 == (0xF2C00000#32 ||| rd) &&
    w3 &&& 0xFFE0001F#32 == (0xF2E00000#32 ||| rd)

/-- The `imm16` field of one word, as the 64-bit address is put together from it. -/
def imm16 (w : Insn) : BitVec 64 := ((w >>> 5) &&& 0xFFFF#32).setWidth 64

/-- The address four words build. -/
def sequenceAddr (w0 w1 w2 w3 : Insn) : BitVec 64 :=
  imm16 w0 ||| imm16 w1 <<< 16 ||| imm16 w2 <<< 32 ||| imm16 w3 <<< 48

/-- `is_blr || is_br`, as the code tests the word after the sequence. -/
def isCallWord (rd w4 : Insn) : Bool :=
  w4 &&& 0xFFFFFC1F#32 == (0xD63F0000#32 ||| rd) || w4 &&& 0xFFFFFC1F#32 == (0xD61F0000#32 ||| rd)

/-- A word with a new `imm16`: bits `shift` to `shift + 15` of the new address. -/
def patchImm16 (w : Insn) (newAddr : BitVec 64) (shift : Nat) : Insn :=
  ((w &&& 0xFFE0001F#32).setWidth 64 ||| ((newAddr >>> shift) &&& 0xFFFF#64) <<< 5).setWidth 32

/-- What the scan leaves: the words, `patched` and `unknown_call_target`. -/
structure RelocScan where
  /-- The code words. -/
  insns : List Insn
  /-- How many sequences were patched. -/
  patched : Nat
  /-- A call through an address that no helper has was seen. -/
  unknownCallTarget : Bool
  deriving Repr, DecidableEq

/-- The word the loop stands on stays as it is. -/
def RelocScan.keep (w : Insn) (r : RelocScan) : RelocScan := { r with insns := w :: r.insns }

/-- The loop of `pg_jitter_relocate_dylib_addrs` from one index on: the list is what is left of the array there, a patched
sequence is left behind whole, and anything else moves the index by one. -/
def relocLoop (table : HelperTable) (delta : BitVec 64) : List Insn → RelocScan
  | w0 :: w1 :: w2 :: w3 :: rest =>
    if isConstSequence w0 w1 w2 w3 then
      -- past the end of the array the next instruction reads as 0
      if isCallWord (movzRd w0) (rest.headD 0) then
        match relocLookupKnownHelper table (sequenceAddr w0 w1 w2 w3) delta with
        | none =>
          let r := relocLoop table delta (w1 :: w2 :: w3 :: rest)
          { r.keep w0 with unknownCallTarget := true }
        | some newAddr =>
          let r := relocLoop table delta rest
          { r with
            insns := patchImm16 w0 newAddr 0 :: patchImm16 w1 newAddr 16 :: patchImm16 w2 newAddr 32 ::
              patchImm16 w3 newAddr 48 :: r.insns
            patched := r.patched + 1 }
      else (relocLoop table delta (w1 :: w2 :: w3 :: rest)).keep w0
    else (relocLoop table delta (w1 :: w2 :: w3 :: rest)).keep w0
  | insns => ⟨insns, 0, false⟩

/-- The `mprotect` calls: to write mode before the scan, back to execute mode after it. -/
structure MProtect where
  /-- `mprotect(…, PROT_READ | PROT_WRITE)` succeeds. -/
  toWrite : Bool
  /-- `mprotect(…, PROT_READ | PROT_EXEC)` succeeds. -/
  toExec : Bool
  deriving Repr, DecidableEq

/-- `pg_jitter_relocate_dylib_addrs` on ARM64: its result and the words of the buffer behind the handle. The first
`code_size / 4` words are scanned. -/
def relocateDylibAddrs (table : HelperTable) (mp : MProtect) (handle : Option (List Insn)) (codeSize : Nat)
    (leaderRefAddr workerRefAddr : BitVec 64) : ℤ × Option (List Insn) :=
  match handle with
  | none => (0, none)
  | some insns =>
    if leaderRefAddr = workerRefAddr then (0, some insns)
    else if mp.toWrite then
      let ninsns := codeSize / 4
      let r := relocLoop table (workerRefAddr - leaderRefAddr) (insns.take ninsns)
      let words := r.insns ++ insns.drop ninsns
      if mp.toExec then (if r.unknownCallTarget then -1 else (r.patched : ℤ), some words)
      else (-1, some words)
    else (-1, some insns)

/-! ## The instructions -/

/-- A wide move: its opcode with the `hw` field, the immediate and the register. -/
def moveWide (op : BitVec 11) (imm : BitVec 16) (rd : BitVec 5) : Insn := op ++ imm ++ rd

/-- `MOVZ Xd, #imm`. -/
def movz (imm : BitVec 16) (rd : BitVec 5) : Insn := moveWide (0b110100101#9 ++ 0#2) imm rd

/-- `MOVK Xd, #imm, LSL #(16 * hw)`. -/
def movk (hw : BitVec 2) (imm : BitVec 16) (rd : BitVec 5) : Insn := moveWide (0b111100101#9 ++ hw) imm rd

/-- A word of the branch-to-register group: `BLR` and `BR` have zeros in the low field, other values there name no
instruction. -/
def branchReg (op : BitVec 22) (rn low : BitVec 5) : Insn := op ++ rn ++ low

/-- The opcode bits of `BLR`. -/
def blrOp : BitVec 22 := 0b1101011000111111000000#22

/-- The opcode bits of `BR`. -/
def brOp : BitVec 22 := 0b1101011000011111000000#22

/-- `BLR Xn`. -/
def blr (rn : BitVec 5) : Insn := branchReg blrOp rn 0

/-- `BR Xn`. -/
def br (rn : BitVec 5) : Insn := branchReg brOp rn 0

/-- The 16 bits of a constant that `hw` selects. -/
def halfword (c : BitVec 64) (hw : Nat) : BitVec 16 := c.extractLsb' (16 * hw) 16

/-- MOVZ and three MOVK that build a constant in a register. -/
def buildConst (rd : BitVec 5) (c : BitVec 64) : List Insn :=
  [movz (halfword c 0) rd, movk 1 (halfword c 1) rd, movk 2 (halfword c 2) rd, movk 3 (halfword c 3) rd]

/-! ## What a relocation is for -/

/-- The words from index `i` on build the constant `c` in `Xd`. -/
def SeqAt (insns : List Insn) (i : Nat) (d : BitVec 5) (c : BitVec 64) : Prop :=
  ∃ rest, insns.drop i = buildConst d c ++ rest

/-- A call sequence: the constant is built in one of `X0` to `X30` and the next instruction branches through that register. -/
def CallAt (insns : List Insn) (i : Nat) (d : BitVec 5) (c : BitVec 64) : Prop :=
  SeqAt insns i d c ∧ d.toNat ≤ 30 ∧ (insns[i + 4]? = some (blr d) ∨ insns[i + 4]? = some (br d))

/-- An address of the worker's table; `NULL` is none. -/
def IsHelper (table : HelperTable) (addr : BitVec 64) : Prop :=
  addr ≠ 0#64 ∧ addr ∈ table.fixedHelpers ++ table.jitDirectFns

/-- A relocation of `insns` into `insns'` that returns `ret`: when it succeeds, the call sequences name the worker's helpers,
every other sequence and every other bit is as it was, and it does not succeed with a call of an unknown address. -/
structure Relocated (table : HelperTable) (delta : BitVec 64) (insns insns' : List Insn) (ret : ℤ) : Prop where
  calls : 0 ≤ ret → ∀ i d c, CallAt insns i d c → IsHelper table (c + delta) ∧ SeqAt insns' i d (c + delta)
  others : 0 ≤ ret → ∀ i d c, SeqAt insns i d c → ¬ CallAt insns i d c → SeqAt insns' i d c
  length : 0 ≤ ret → insns'.length = insns.length
  bits : 0 ≤ ret → ∀ k w w', insns[k]? = some w → insns'[k]? = some w' → ∀ b, w'.getLsbD b ≠ w.getLsbD b →
    ∃ i d c, CallAt insns i d c ∧ i ≤ k ∧ k < i + 4 ∧ 5 ≤ b ∧ b < 21
  refused : (∃ i d c, CallAt insns i d c ∧ ¬ IsHelper table (c + delta)) → ret < 0

end PgJitter
