import PgJitter.Expr
import PgJitter.Lib.Assembly

/-!
# Inlined int4 operations

The int4 cases of `emit_inline_funcexpr` (`src/pg_jitter_sljit.c`): arithmetic, comparisons and the casts to int8 and int2, as code
on two registers that are loaded with whole Datums. Next to them, the native functions that the same table entries name
(`src/pg_jit_funcs.c`), which see the low 32 bits only.
-/

namespace PgJitter

open Assembly

/-! ## The native functions -/

/-- The cold-path helpers, which do not return. -/
inductive JitError where
  | int2Overflow
  | int4Overflow
  | divisionByZero
  deriving DecidableEq, Repr

/-- `PG_INT32_MIN`. -/
def pgInt32Min : BitVec 32 := BitVec.intMin 32

/-- `jit_int4pl`: `pg_add_s32_overflow`, then the sum. -/
def jitInt4pl (a b : BitVec 32) : Except JitError (BitVec 32) :=
  if BitVec.saddOverflow a b then .error .int4Overflow else .ok (a + b)

/-- `jit_int4mi`. -/
def jitInt4mi (a b : BitVec 32) : Except JitError (BitVec 32) :=
  if BitVec.ssubOverflow a b then .error .int4Overflow else .ok (a - b)

/-- `jit_int4mul`. -/
def jitInt4mul (a b : BitVec 32) : Except JitError (BitVec 32) :=
  if BitVec.smulOverflow a b then .error .int4Overflow else .ok (a * b)

/-- `jit_int4div`. -/
def jitInt4div (a b : BitVec 32) : Except JitError (BitVec 32) :=
  if b = 0 then .error .divisionByZero
  else if a = pgInt32Min ∧ b = -1 then .error .int4Overflow
  else .ok (a.sdiv b)

/-- `jit_int4mod`. -/
def jitInt4mod (a b : BitVec 32) : Except JitError (BitVec 32) :=
  if b = 0 then .error .divisionByZero
  else if a = pgInt32Min ∧ b = -1 then .ok 0
  else .ok (a.srem b)

/-- `DEF_CMP`: 1 or 0. -/
def defCmp (c : Bool) : Except JitError (BitVec 32) := .ok (if c then 1 else 0)

/-- `jit_int4eq`. -/
def jitInt4eq (a b : BitVec 32) := defCmp (a == b)

/-- `jit_int4ne`. -/
def jitInt4ne (a b : BitVec 32) := defCmp (a != b)

/-- `jit_int4lt`. -/
def jitInt4lt (a b : BitVec 32) := defCmp (a.slt b)

/-- `jit_int4le`. -/
def jitInt4le (a b : BitVec 32) := defCmp (a.sle b)

/-- `jit_int4gt`. -/
def jitInt4gt (a b : BitVec 32) := defCmp (b.slt a)

/-- `jit_int4ge`. -/
def jitInt4ge (a b : BitVec 32) := defCmp (b.sle a)

/-- `jit_int48_cast`. -/
def jitInt48Cast (a : BitVec 32) : Except JitError (BitVec 64) := .ok (a.signExtend 64)

/-- `jit_int42_cast`. -/
def jitInt42Cast (a : BitVec 32) : Except JitError (BitVec 32) :=
  if a.toInt < -32768 ∨ 32767 < a.toInt then .error .int2Overflow else .ok ((a.setWidth 16).signExtend 32)

/-! ## The instructions -/

/-- The two argument registers. -/
inductive SljitReg where
  | r0
  | r1
  deriving DecidableEq, Repr

/-- The 32-bit operations that set the overflow flag. -/
inductive SljitOp2 where
  | add32
  | sub32
  | mul32
  deriving DecidableEq, Repr

/-- The conditions of jumps and of flag reads. -/
inductive SljitCond where
  | notOverflow
  | equal
  | notEqual
  | sigLess
  | sigLessEqual
  | sigGreater
  | sigGreaterEqual
  deriving DecidableEq, Repr

/-- What a second operand is. -/
inductive SljitSrc where
  | reg (r : SljitReg)
  | imm (v : Datum)
  deriving DecidableEq, Repr

/-- An instruction. -/
inductive SljitInsn where
  /-- `sljit_emit_op2` of a 32-bit operation with `SLJIT_SET_OVERFLOW`: R0 := R0 op R1. -/
  | op2 (op : SljitOp2)
  /-- `sljit_emit_op2u` of `SLJIT_SUB32`: the flags of R0 minus an operand. -/
  | op2uSub32 (src : SljitSrc)
  /-- `sljit_emit_jump` on a flag. -/
  | jumpIf (c : SljitCond)
  /-- `sljit_emit_jump` with `SLJIT_JUMP`. -/
  | jump
  /-- `sljit_emit_cmp` without the 32-bit flag: whole registers are compared. -/
  | cmp (c : SljitCond) (r : SljitReg) (v : Datum)
  /-- `sljit_emit_op_flags` with `SLJIT_MOV` into R0. -/
  | opFlags (c : SljitCond)
  /-- `SLJIT_MOV` of an immediate into R0. -/
  | movImm (v : Datum)
  /-- `SLJIT_MOV_S32` into R0. -/
  | movS32 (src : SljitReg)
  /-- `SLJIT_MOV_S16` of R0 into itself. -/
  | movS16
  /-- `SLJIT_DIV_S32`. -/
  | divS32
  /-- `SLJIT_DIVMOD_S32`: the quotient in R0, the remainder in R1. -/
  | divmodS32
  /-- `EMIT_JIT_ERROR`. -/
  | error (e : JitError)
  deriving DecidableEq, Repr

/-- The registers, the flags as the conditions they make true, and the upper half that a 32-bit operation leaves in its
destination, which the platforms do not agree on. -/
structure SljitState where
  r0 : Datum
  r1 : Datum
  flags : SljitCond → Bool
  upper : BitVec 32

namespace SljitState

/-- The value of a register. -/
def reg (s : SljitState) : SljitReg → Datum
  | .r0 => s.r0
  | .r1 => s.r1

/-- The value of an operand. -/
def src (s : SljitState) : SljitSrc → Datum
  | .reg r => s.reg r
  | .imm v => v

/-- The register that a 32-bit operation leaves. -/
def of32 (s : SljitState) (v : BitVec 32) : Datum := s.upper ++ v

end SljitState

/-- The conditions a comparison of two words makes true. -/
def condOf {w : Nat} (a b : BitVec w) : SljitCond → Bool
  | .notOverflow => !BitVec.ssubOverflow a b
  | .equal => a == b
  | .notEqual => a != b
  | .sigLess => a.slt b
  | .sigLessEqual => a.sle b
  | .sigGreater => b.slt a
  | .sigGreaterEqual => b.sle a

/-- The low 32 bits of a register. -/
def low32 (d : Datum) : BitVec 32 := d.setWidth 32

/-- The result of a 32-bit operation. -/
def SljitOp2.result : SljitOp2 → BitVec 32 → BitVec 32 → BitVec 32
  | .add32, a, b => a + b
  | .sub32, a, b => a - b
  | .mul32, a, b => a * b

/-- Its overflow. -/
def SljitOp2.overflows : SljitOp2 → BitVec 32 → BitVec 32 → Bool
  | .add32, a, b => BitVec.saddOverflow a b
  | .sub32, a, b => BitVec.ssubOverflow a b
  | .mul32, a, b => BitVec.smulOverflow a b

/-- A machine division that the processor does not carry out. -/
def divTraps (a b : BitVec 32) : Bool := b == 0 || (a == pgInt32Min && b == -1)

/-- A jump that is taken or not. -/
def sljitJumpIf (c : Bool) (s : SljitState) : Outcome SljitState := if c then .jump s else .next s

/-- What an instruction does. A trap and an error end the run. -/
def SljitInsn.exec (i : SljitInsn) (s : SljitState) : Outcome SljitState :=
  match i with
  | op2 op =>
    let a := low32 s.r0
    let b := low32 s.r1
    .next { s with r0 := s.of32 (op.result a b), flags := fun c => c == .notOverflow && !op.overflows a b }
  | op2uSub32 src => .next { s with flags := condOf (low32 s.r0) (low32 (s.src src)) }
  | jumpIf c => sljitJumpIf (s.flags c) s
  | jump => .jump s
  | cmp c r v => sljitJumpIf (condOf (s.reg r) v c) s
  | opFlags c => .next { s with r0 := boolGetDatum (s.flags c) }
  | movImm v => .next { s with r0 := v }
  | movS32 r => .next { s with r0 := (low32 (s.reg r)).signExtend 64 }
  | movS16 => .next { s with r0 := (s.r0.setWidth 16).signExtend 64 }
  | divS32 =>
    if divTraps (low32 s.r0) (low32 s.r1) then .halt
    else .next { s with r0 := s.of32 ((low32 s.r0).sdiv (low32 s.r1)) }
  | divmodS32 =>
    if divTraps (low32 s.r0) (low32 s.r1) then .halt
    else
      .next
        { s with
          r0 := s.of32 ((low32 s.r0).sdiv (low32 s.r1))
          r1 := s.of32 ((low32 s.r0).srem (low32 s.r1)) }
  | error _ => .halt

/-- The code of one operation. -/
abbrev SljitProgram := Program SljitInsn

/-! ## The emission -/

/-- The int4 entries of `JitInlineOp`. -/
inductive JitInlineOp where
  | int4Add
  | int4Sub
  | int4Mul
  | int4Div
  | int4Mod
  | int4Eq
  | int4Ne
  | int4Lt
  | int4Le
  | int4Gt
  | int4Ge
  | int4ToInt8
  | int4ToInt2
  deriving DecidableEq, Repr

/-- `-1` and the other immediates, as the emitted code has them. -/
def sljitImm (k : Int) : Datum := BitVec.ofInt 64 k

/-- Addition, subtraction and multiplication. -/
def emitInt4Arith (op : SljitOp2) (P : SljitProgram) : SljitProgram :=
  let P := P.emit [.op2 op]
  let jOk := P.here
  let P := P.emit [.jumpIf .notOverflow]
  let P := P.emit [.error .int4Overflow]
  let P := P.setLabel jOk P.here
  P.emit [.movS32 .r0]

/-- The start of a division: the check of the divisor, then the flags of R0 against `PG_INT32_MIN`. -/
def emitInt4DivChecks (P : SljitProgram) : SljitProgram :=
  let jNotZero := P.here
  let P := P.emit [.cmp .notEqual .r1 (sljitImm 0)]
  let P := P.emit [.error .divisionByZero]
  let P := P.setLabel jNotZero P.here
  P.emit [.op2uSub32 (.imm (pgInt32Min.signExtend 64))]

/-- Division. -/
def emitInt4Div (P : SljitProgram) : SljitProgram :=
  let P := emitInt4DivChecks P
  let jNotMinmax := P.here
  let P := P.emit [.jumpIf .notEqual]
  let jNotNeg1 := P.here
  let P := P.emit [.cmp .notEqual .r1 (sljitImm (-1))]
  let P := P.emit [.error .int4Overflow]
  let P := P.setLabel jNotNeg1 P.here
  let P := P.setLabel jNotMinmax P.here
  let P := P.emit [.divS32]
  P.emit [.movS32 .r0]

/-- Modulo. -/
def emitInt4Mod (P : SljitProgram) : SljitProgram :=
  let P := emitInt4DivChecks P
  let jNotMinmax := P.here
  let P := P.emit [.jumpIf .notEqual]
  let jZeroResult := P.here
  let P := P.emit [.cmp .equal .r1 (sljitImm (-1))]
  let P := P.setLabel jNotMinmax P.here
  let P := P.emit [.divmodS32]
  -- the remainder is in R1
  let P := P.emit [.movS32 .r1]
  let jDone := P.here
  let P := P.emit [.jump]
  let P := P.setLabel jZeroResult P.here
  let P := P.emit [.movImm 0]
  P.setLabel jDone P.here

/-- A comparison: the flags of R0 minus R1, and the condition read from them. -/
def emitInt4Cmp (c : SljitCond) (P : SljitProgram) : SljitProgram :=
  let P := P.emit [.op2uSub32 (.reg .r1)]
  P.emit [.opFlags c]

/-- The cast to int2: two range checks on R0 and the truncation. -/
def emitInt4ToInt2 (P : SljitProgram) : SljitProgram :=
  let jHi := P.here
  let P := P.emit [.cmp .sigLessEqual .r0 (sljitImm 32767)]
  let P := P.emit [.error .int2Overflow]
  let P := P.setLabel jHi P.here
  let jLo := P.here
  let P := P.emit [.cmp .sigGreaterEqual .r0 (sljitImm (-32768))]
  let P := P.emit [.error .int2Overflow]
  let P := P.setLabel jLo P.here
  P.emit [.movS16]

/-- `emit_inline_funcexpr`. -/
def emitInlineFuncexpr : JitInlineOp → SljitProgram → SljitProgram
  | .int4Add => emitInt4Arith .add32
  | .int4Sub => emitInt4Arith .sub32
  | .int4Mul => emitInt4Arith .mul32
  | .int4Div => emitInt4Div
  | .int4Mod => emitInt4Mod
  | .int4Eq => emitInt4Cmp .equal
  | .int4Ne => emitInt4Cmp .notEqual
  | .int4Lt => emitInt4Cmp .sigLess
  | .int4Le => emitInt4Cmp .sigLessEqual
  | .int4Gt => emitInt4Cmp .sigGreater
  | .int4Ge => emitInt4Cmp .sigGreaterEqual
  | .int4ToInt8 => fun P => P.emit [.movS32 .r0]
  | .int4ToInt2 => emitInt4ToInt2

/-! ## What the code is to agree with -/

/-- The width of the native function's result. -/
def JitInlineOp.resultWidth : JitInlineOp → Nat
  | .int4ToInt8 => 64
  | _ => 32

/-- The native function of the table entry. -/
def JitInlineOp.jitFn : (op : JitInlineOp) → BitVec 32 → BitVec 32 → Except JitError (BitVec op.resultWidth)
  | .int4Add => jitInt4pl
  | .int4Sub => jitInt4mi
  | .int4Mul => jitInt4mul
  | .int4Div => jitInt4div
  | .int4Mod => jitInt4mod
  | .int4Eq => jitInt4eq
  | .int4Ne => jitInt4ne
  | .int4Lt => jitInt4lt
  | .int4Le => jitInt4le
  | .int4Gt => jitInt4gt
  | .int4Ge => jitInt4ge
  | .int4ToInt8 => fun a _ => jitInt48Cast a
  | .int4ToInt2 => fun a _ => jitInt42Cast a

/-- `Int32GetDatum`, which is also what the inlined operations leave. -/
def int32GetDatum (v : BitVec 32) : Datum := v.signExtend 64

/-- What a direct call to a native function with a 32-bit result leaves in the result slot. -/
def directCallDatum (v : BitVec 32) : Datum := v.setWidth 64

/-- The Datums that the program produces for an int4. -/
def IsInt4Image (v : BitVec 32) (d : Datum) : Prop := d = int32GetDatum v ∨ d = directCallDatum v

/-- How a run of the code ends. -/
inductive SljitEnd where
  /-- At the end of the code: R0 is stored. -/
  | stored (d : Datum)
  /-- In a cold-path helper. -/
  | raised (e : JitError)
  /-- In a division that the processor does not carry out. -/
  | trapped
  deriving DecidableEq, Repr

/-- A run of the code ends so. -/
inductive SljitEnds (P : SljitProgram) (a : Nat × SljitState) : SljitEnd → Prop where
  | stored {s : SljitState} (h : Runs SljitInsn.exec P a (P.here, s)) : SljitEnds P a (.stored s.r0)
  | raised {b : Nat × SljitState} {e : JitError} (h : Runs SljitInsn.exec P a b) (hi : P.code[b.1]? = some (.error e)) :
    SljitEnds P a (.raised e)
  | trapped {b : Nat × SljitState} (h : Runs SljitInsn.exec P a b)
    (hi : P.code[b.1]? = some .divS32 ∨ P.code[b.1]? = some .divmodS32)
    (ht : divTraps (low32 b.2.r0) (low32 b.2.r1) = true) : SljitEnds P a .trapped

/-- An end agrees with a native function: the same error, or a Datum with the function's result in its low bits. -/
def SljitEnd.Agrees {w : Nat} : SljitEnd → Except JitError (BitVec w) → Prop
  | .stored d, .ok v => d.setWidth w = v
  | .raised e, .error e' => e = e'
  | _, _ => False

end PgJitter
