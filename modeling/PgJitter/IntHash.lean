import PgJitter.DateTime
import PgJitter.InlineInt4

/-!
# Hash functions of the integer family

`jit_hashint2`, `jit_hashint4`, `jit_hashint8`, their extended forms and `jit_interval_hash` (`src/pg_jit_funcs.c`), with PostgreSQL's
`hash_bytes_uint32`, and the instructions that `emit_inline_funcexpr` (`src/pg_jitter_sljit.c`) emits for `JIT_INLINE_HASHINT4` and
`JIT_INLINE_HASHINT8`.
-/

namespace PgJitter

/-! ## The hash of a word -/

/-- `0x9e3779b9 + sizeof(uint32) + 3923095`. -/
def hashInit : BitVec 32 := 0x9e3779b9 + 4 + 3923095

/-- `hash_bytes_uint32`: the words are mixed by `final`. -/
def hashBytesUint32 (k : BitVec 32) : BitVec 32 :=
  let a := hashInit + k
  let b := hashInit
  let c := hashInit
  let c := (c ^^^ b) - b.rotateLeft 14
  let a := (a ^^^ c) - c.rotateLeft 11
  let b := (b ^^^ a) - a.rotateLeft 25
  let c := (c ^^^ b) - b.rotateLeft 16
  let a := (a ^^^ c) - c.rotateLeft 4
  let b := (b ^^^ a) - a.rotateLeft 14
  (c ^^^ b) - b.rotateLeft 24

/-! ## The native functions -/

/-- `jit_hashint2`. -/
def jitHashint2 (a : BitVec 64) : BitVec 32 := hashBytesUint32 ((a.setWidth 16).signExtend 32)

/-- `jit_hashint4`. -/
def jitHashint4 (a : BitVec 32) : BitVec 32 := hashBytesUint32 a

/-- The fold of `jit_hashint8`: the upper half, or its complement, onto the lower one. -/
def foldInt8 (val : BitVec 64) (hihalf : BitVec 32) : BitVec 32 := low32 val ^^^ if 0 ≤ val.toInt then hihalf else ~~~hihalf

/-- `jit_hashint8`. -/
def jitHashint8 (val : BitVec 64) : BitVec 64 := (hashBytesUint32 (foldInt8 val (low32 (val.sshiftRight 32)))).setWidth 64

section Extended

variable (hashBytesUint32Extended : BitVec 32 → BitVec 64 → BitVec 64)

/-- `jit_hashint2extended`. -/
def jitHashint2extended (val seed : BitVec 64) : BitVec 64 := hashBytesUint32Extended ((val.setWidth 16).signExtend 32) seed

/-- `jit_hashint4extended`. -/
def jitHashint4extended (val seed : BitVec 64) : BitVec 64 := hashBytesUint32Extended (low32 val) seed

/-- `jit_hashint8extended`: here the shift is of the unsigned value. -/
def jitHashint8extended (val seed : BitVec 64) : BitVec 64 :=
  hashBytesUint32Extended (foldInt8 val (low32 (val >>> 32))) seed

end Extended

/-! ## Intervals -/

/-- `int64_to_int128`. -/
def int64ToInt128 (v : BitVec 64) : BitVec 128 := v.signExtend 128

/-- `int128_add_int64_mul_int64`. -/
def int128AddInt64MulInt64 (i128 : BitVec 128) (x y : BitVec 64) : BitVec 128 := i128 + x.signExtend 128 * y.signExtend 128

/-- `int128_compare`. -/
def int128Compare (x y : BitVec 128) : Int := if x.slt y then -1 else if y.slt x then 1 else 0

/-- `int128_to_int64`. -/
def int128ToInt64 (v : BitVec 128) : BitVec 64 := v.setWidth 64

/-- The span of `jit_interval_cmp_internal` and `jit_interval_hash`. -/
def Interval.span128 (a : Interval) : BitVec 128 :=
  let days := a.month.signExtend 64 * 30 + a.day.signExtend 64
  int128AddInt64MulInt64 (int64ToInt128 a.time) days (BitVec.ofInt 64 usecsPerDay)

/-- `jit_interval_cmp_internal`. -/
def jitIntervalCmpInternal (a b : Interval) : Int := int128Compare a.span128 b.span128

/-- `jit_interval_eq`. -/
def jitIntervalEq (a b : Interval) : BitVec 32 := if jitIntervalCmpInternal a b = 0 then 1 else 0

/-- `jit_interval_hash`. -/
def jitIntervalHash (a : Interval) : BitVec 32 := low32 (jitHashint8 (int128ToInt64 a.span128))

/-! ## The emitted instructions -/

/-- The registers. -/
inductive HashReg where
  | r0
  | r1
  | r2
  | r3
  deriving DecidableEq, Repr

/-- The instructions, each with its destination first. -/
inductive HashInsn where
  /-- `SLJIT_ADD32` of a register and an immediate. -/
  | addImm32 (dst src : HashReg) (imm : BitVec 32)
  /-- `SLJIT_MOV32` of an immediate. -/
  | movImm32 (dst : HashReg) (imm : BitVec 32)
  /-- `SLJIT_XOR32`. -/
  | xor32 (dst a b : HashReg)
  /-- `SLJIT_ROTL32` by an immediate. -/
  | rotl32 (dst src : HashReg) (k : Nat)
  /-- `SLJIT_SUB32`. -/
  | sub32 (dst a b : HashReg)
  /-- `SLJIT_MOV_U32`. -/
  | movU32 (dst src : HashReg)
  /-- `SLJIT_LSHR` by an immediate. -/
  | lshr (dst src : HashReg) (k : Nat)
  /-- `SLJIT_ASHR` by an immediate. -/
  | ashr (dst src : HashReg) (k : Nat)
  deriving DecidableEq, Repr

/-- The values of the registers. -/
abbrev HashRegs := HashReg → Datum

/-- What an instruction does; a 32-bit operation leaves any upper half. -/
def HashInsn.exec (upper : BitVec 32) (regs : HashRegs) : HashInsn → HashRegs
  | addImm32 dst src imm => Function.update regs dst (upper ++ (low32 (regs src) + imm))
  | movImm32 dst imm => Function.update regs dst (upper ++ imm)
  | xor32 dst a b => Function.update regs dst (upper ++ (low32 (regs a) ^^^ low32 (regs b)))
  | rotl32 dst src k => Function.update regs dst (upper ++ (low32 (regs src)).rotateLeft k)
  | sub32 dst a b => Function.update regs dst (upper ++ (low32 (regs a) - low32 (regs b)))
  | movU32 dst src => Function.update regs dst ((low32 (regs src)).setWidth 64)
  | lshr dst src k => Function.update regs dst (regs src >>> k)
  | ashr dst src k => Function.update regs dst ((regs src).sshiftRight k)

/-- The run of instructions; the upper halves that they leave are those of `upper`, one for each instruction. -/
def runHash (upper : Nat → BitVec 32) : Nat → List HashInsn → HashRegs → HashRegs
  | _, [], regs => regs
  | n, insn :: rest, regs => runHash upper (n + 1) rest (insn.exec (upper n) regs)

/-- `EMIT_FINAL_ROUND`, and the three calls that it stands for. -/
def emitFinalRound (rx ry : HashReg) (rotK : Nat) : List HashInsn := [.xor32 rx rx ry, .rotl32 .r3 ry rotK, .sub32 rx rx .r3]

/-- The seven rounds. -/
def emitFinal : List HashInsn :=
  emitFinalRound .r2 .r1 14 ++ emitFinalRound .r0 .r2 11 ++ emitFinalRound .r1 .r0 25 ++ emitFinalRound .r2 .r1 16 ++
    emitFinalRound .r0 .r2 4 ++ emitFinalRound .r1 .r0 14 ++ emitFinalRound .r2 .r1 24

/-- `JIT_INLINE_HASHINT4`. -/
def emitHashint4 : List HashInsn :=
  [.addImm32 .r0 .r0 hashInit, .movImm32 .r1 hashInit, .movImm32 .r2 hashInit] ++ emitFinal ++ [.movU32 .r0 .r2]

/-- The fold of `JIT_INLINE_HASHINT8`. -/
def emitFoldInt8 : List HashInsn :=
  [.movU32 .r1 .r0, .lshr .r2 .r0 32, .ashr .r3 .r0 63, .xor32 .r2 .r2 .r3, .xor32 .r0 .r1 .r2]

/-- `JIT_INLINE_HASHINT8`. -/
def emitHashint8 : List HashInsn := emitFoldInt8 ++ emitHashint4

end PgJitter
