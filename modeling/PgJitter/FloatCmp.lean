import PgJitter.CmpOp
import PgJitter.Expr
import PgJitter.Lib.Assembly
import Mathlib.Order.Hom.Basic
import Mathlib.Order.WithBot

/-!
# Float comparisons

The three implementations of the order of floats: the C helpers behind `jit_float8lt` and its kin, the btree three-way functions
(`src/pg_jit_funcs.c`), and the code that `emit_inline_funcexpr` emits for the six float8 comparisons (`src/pg_jitter_sljit.c`). A
float is a number of an ordered set or NaN, and every comparison of the machine is false on NaN. The float4 numbers are among the
float8 numbers, and the cast to double keeps their order.
-/

namespace PgJitter

open Assembly

/-- A float. -/
inductive PgFloat (α : Type) where
  | nan
  | num (a : α)
  deriving DecidableEq, Repr

namespace PgFloat

variable {α β : Type} [LinearOrder α] [LinearOrder β]

/-- `isnan`. -/
def isnan : PgFloat α → Bool
  | nan => true
  | num _ => false

/-- The machine's `<`. -/
def lt : PgFloat α → PgFloat α → Bool
  | num a, num b => decide (a < b)
  | _, _ => false

/-- The machine's `<=`. -/
def le : PgFloat α → PgFloat α → Bool
  | num a, num b => decide (a ≤ b)
  | _, _ => false

/-- The machine's `==`. -/
def eq : PgFloat α → PgFloat α → Bool
  | num a, num b => decide (a = b)
  | _, _ => false

/-- The cast to double. -/
def widen (w : α ↪o β) : PgFloat α → PgFloat β
  | nan => nan
  | num a => num (w a)

end PgFloat

section Functions

variable {α β : Type} [LinearOrder α] [LinearOrder β]

/-! ## The helpers and the operators -/

/-- `float8_cmp_jit`. -/
def float8CmpJit (a b : PgFloat β) : Int :=
  if a.isnan then if b.isnan then 0 else 1
  else if b.isnan then -1
  else if b.lt a then 1 else if a.lt b then -1 else 0

/-- `float4_cmp_jit`. -/
def float4CmpJit (a b : PgFloat α) : Int :=
  if a.isnan then if b.isnan then 0 else 1
  else if b.isnan then -1
  else if b.lt a then 1 else if a.lt b then -1 else 0

/-- `jit_float4eq`. -/
def jitFloat4eq (a b : PgFloat α) : Int := boolToInt (CmpOp.cond .eq (float4CmpJit a b))

/-- `jit_float4ne`. -/
def jitFloat4ne (a b : PgFloat α) : Int := boolToInt (CmpOp.cond .ne (float4CmpJit a b))

/-- `jit_float4lt`. -/
def jitFloat4lt (a b : PgFloat α) : Int := boolToInt (CmpOp.cond .lt (float4CmpJit a b))

/-- `jit_float4le`. -/
def jitFloat4le (a b : PgFloat α) : Int := boolToInt (CmpOp.cond .le (float4CmpJit a b))

/-- `jit_float4gt`. -/
def jitFloat4gt (a b : PgFloat α) : Int := boolToInt (CmpOp.cond .gt (float4CmpJit a b))

/-- `jit_float4ge`. -/
def jitFloat4ge (a b : PgFloat α) : Int := boolToInt (CmpOp.cond .ge (float4CmpJit a b))

/-- `jit_float8eq`. -/
def jitFloat8eq (a b : PgFloat β) : Int := boolToInt (CmpOp.cond .eq (float8CmpJit a b))

/-- `jit_float8ne`. -/
def jitFloat8ne (a b : PgFloat β) : Int := boolToInt (CmpOp.cond .ne (float8CmpJit a b))

/-- `jit_float8lt`. -/
def jitFloat8lt (a b : PgFloat β) : Int := boolToInt (CmpOp.cond .lt (float8CmpJit a b))

/-- `jit_float8le`. -/
def jitFloat8le (a b : PgFloat β) : Int := boolToInt (CmpOp.cond .le (float8CmpJit a b))

/-- `jit_float8gt`. -/
def jitFloat8gt (a b : PgFloat β) : Int := boolToInt (CmpOp.cond .gt (float8CmpJit a b))

/-- `jit_float8ge`. -/
def jitFloat8ge (a b : PgFloat β) : Int := boolToInt (CmpOp.cond .ge (float8CmpJit a b))

/-- `DEF_FLOAT48_CMP`. -/
def defFloat48Cmp (op : CmpOp) (w : α ↪o β) (a : PgFloat α) (b : PgFloat β) : Int :=
  boolToInt (op.cond (float8CmpJit (a.widen w) b))

/-- `jit_float48eq`. -/
def jitFloat48eq (w : α ↪o β) := defFloat48Cmp .eq w

/-- `jit_float48ne`. -/
def jitFloat48ne (w : α ↪o β) := defFloat48Cmp .ne w

/-- `jit_float48lt`. -/
def jitFloat48lt (w : α ↪o β) := defFloat48Cmp .lt w

/-- `jit_float48le`. -/
def jitFloat48le (w : α ↪o β) := defFloat48Cmp .le w

/-- `jit_float48gt`. -/
def jitFloat48gt (w : α ↪o β) := defFloat48Cmp .gt w

/-- `jit_float48ge`. -/
def jitFloat48ge (w : α ↪o β) := defFloat48Cmp .ge w

/-- `DEF_FLOAT84_CMP`. -/
def defFloat84Cmp (op : CmpOp) (w : α ↪o β) (a : PgFloat β) (b : PgFloat α) : Int :=
  boolToInt (op.cond (float8CmpJit a (b.widen w)))

/-- `jit_float84eq`. -/
def jitFloat84eq (w : α ↪o β) := defFloat84Cmp .eq w

/-- `jit_float84ne`. -/
def jitFloat84ne (w : α ↪o β) := defFloat84Cmp .ne w

/-- `jit_float84lt`. -/
def jitFloat84lt (w : α ↪o β) := defFloat84Cmp .lt w

/-- `jit_float84le`. -/
def jitFloat84le (w : α ↪o β) := defFloat84Cmp .le w

/-- `jit_float84gt`. -/
def jitFloat84gt (w : α ↪o β) := defFloat84Cmp .gt w

/-- `jit_float84ge`. -/
def jitFloat84ge (w : α ↪o β) := defFloat84Cmp .ge w

/-! ## The btree functions -/

/-- `jit_btfloat4cmp`. -/
def jitBtfloat4cmp (a b : PgFloat α) : Int := if b.lt a then 1 else if a.lt b then -1 else 0

/-- `jit_btfloat8cmp`. -/
def jitBtfloat8cmp (a b : PgFloat β) : Int := if b.lt a then 1 else if a.lt b then -1 else 0

/-- `jit_btfloat48cmp`. -/
def jitBtfloat48cmp (w : α ↪o β) (a : PgFloat α) (b : PgFloat β) : Int :=
  let da := a.widen w
  if b.lt da then 1 else if da.lt b then -1 else 0

/-- `jit_btfloat84cmp`. -/
def jitBtfloat84cmp (w : α ↪o β) (a : PgFloat β) (b : PgFloat α) : Int :=
  let db := b.widen w
  if db.lt a then 1 else if a.lt db then -1 else 0

/-! ## Both widths together -/

/-- A float of either width, as the operators and functions of the float operator family take them. -/
inductive AnyFloat (α β : Type) where
  | f4 (a : PgFloat α)
  | f8 (b : PgFloat β)
  deriving DecidableEq, Repr

/-- NaN of either width. -/
def AnyFloat.isnan : AnyFloat α β → Bool
  | f4 a => a.isnan
  | f8 b => b.isnan

/-- The three-way function for two widths. -/
def jitBtfloatcmp (w : α ↪o β) : AnyFloat α β → AnyFloat α β → Int
  | .f4 a, .f4 b => jitBtfloat4cmp a b
  | .f8 a, .f8 b => jitBtfloat8cmp a b
  | .f4 a, .f8 b => jitBtfloat48cmp w a b
  | .f8 a, .f4 b => jitBtfloat84cmp w a b

/-- The operator for two widths. -/
def jitFloatOp (w : α ↪o β) : CmpOp → AnyFloat α β → AnyFloat α β → Int
  | .eq, .f4 a, .f4 b => jitFloat4eq a b
  | .ne, .f4 a, .f4 b => jitFloat4ne a b
  | .lt, .f4 a, .f4 b => jitFloat4lt a b
  | .le, .f4 a, .f4 b => jitFloat4le a b
  | .gt, .f4 a, .f4 b => jitFloat4gt a b
  | .ge, .f4 a, .f4 b => jitFloat4ge a b
  | .eq, .f8 a, .f8 b => jitFloat8eq a b
  | .ne, .f8 a, .f8 b => jitFloat8ne a b
  | .lt, .f8 a, .f8 b => jitFloat8lt a b
  | .le, .f8 a, .f8 b => jitFloat8le a b
  | .gt, .f8 a, .f8 b => jitFloat8gt a b
  | .ge, .f8 a, .f8 b => jitFloat8ge a b
  | .eq, .f4 a, .f8 b => jitFloat48eq w a b
  | .ne, .f4 a, .f8 b => jitFloat48ne w a b
  | .lt, .f4 a, .f8 b => jitFloat48lt w a b
  | .le, .f4 a, .f8 b => jitFloat48le w a b
  | .gt, .f4 a, .f8 b => jitFloat48gt w a b
  | .ge, .f4 a, .f8 b => jitFloat48ge w a b
  | .eq, .f8 a, .f4 b => jitFloat84eq w a b
  | .ne, .f8 a, .f4 b => jitFloat84ne w a b
  | .lt, .f8 a, .f4 b => jitFloat84lt w a b
  | .le, .f8 a, .f4 b => jitFloat84le w a b
  | .gt, .f8 a, .f4 b => jitFloat84gt w a b
  | .ge, .f8 a, .f4 b => jitFloat84ge w a b

end Functions

/-! ## The instructions -/

/-- The two float registers. -/
inductive FloatReg where
  | fr0
  | fr1
  deriving DecidableEq, Repr

/-- The flags of a float comparison. -/
inductive FloatCond where
  | equal
  | notEqual
  | less
  | lessEqual
  | greater
  | greaterEqual
  | unordered
  | ordered
  deriving DecidableEq, Repr

/-- An instruction. -/
inductive FloatInsn where
  /-- `sljit_emit_fcopy` of the argument registers with `SLJIT_COPY_TO_F64`: R0 to FR0 and R1 to FR1. -/
  | copyToF64 (r : FloatReg)
  /-- `SLJIT_CMP_F64`. -/
  | cmpF64 (a b : FloatReg)
  /-- `sljit_emit_jump` on a flag. -/
  | jumpIf (c : FloatCond)
  /-- `sljit_emit_jump` with `SLJIT_JUMP`. -/
  | jump
  /-- `sljit_emit_op_flags` with `SLJIT_MOV` into R0. -/
  | opFlags (c : FloatCond)
  /-- `sljit_emit_cmp` of R0 with 0: `SLJIT_EQUAL`, or else `SLJIT_NOT_EQUAL`. -/
  | cmpZero (equal : Bool)
  /-- `SLJIT_MOV` of an immediate into R0. -/
  | movImm (v : Datum)
  deriving DecidableEq, Repr

/-- The registers, and the flags as the conditions they make true. -/
structure FloatState (β : Type) where
  r0 : Datum
  r1 : Datum
  fr0 : PgFloat β
  fr1 : PgFloat β
  flags : FloatCond → Bool

section Machine

variable {β : Type} [LinearOrder β]

/-- The value of a float register. -/
def FloatState.freg (s : FloatState β) : FloatReg → PgFloat β
  | .fr0 => s.fr0
  | .fr1 => s.fr1

/-- The conditions a comparison makes true. -/
def floatCondOf (a b : PgFloat β) : FloatCond → Bool
  | .equal => a.eq b
  | .notEqual => !a.eq b
  | .less => a.lt b
  | .lessEqual => a.le b
  | .greater => b.lt a
  | .greaterEqual => b.le a
  | .unordered => a.isnan || b.isnan
  | .ordered => !(a.isnan || b.isnan)

/-- A jump that is taken or not. -/
def floatJumpIf (c : Bool) (s : FloatState β) : Outcome (FloatState β) := if c then .jump s else .next s

/-- What an instruction does; `toF64` is the float that a Datum holds. -/
def FloatInsn.exec (toF64 : Datum → PgFloat β) (i : FloatInsn) (s : FloatState β) : Outcome (FloatState β) :=
  match i with
  | copyToF64 .fr0 => .next { s with fr0 := toF64 s.r0 }
  | copyToF64 .fr1 => .next { s with fr1 := toF64 s.r1 }
  | cmpF64 a b => .next { s with flags := floatCondOf (s.freg a) (s.freg b) }
  | jumpIf c => floatJumpIf (s.flags c) s
  | jump => .jump s
  | opFlags c => .next { s with r0 := boolGetDatum (s.flags c) }
  | cmpZero e => floatJumpIf ((s.r0 == 0) == e) s
  | movImm v => .next { s with r0 := v }

end Machine

/-! ## The emission -/

/-- The code of one comparison. -/
abbrev FloatProgram := Program FloatInsn

/-- The start of each comparison: the arguments, the jump for NaN, and the ordered comparison `c` with the jump past the rest. -/
def emitFloat8Ordered (c : FloatCond) (P : FloatProgram) : Nat × Nat × FloatProgram :=
  let P := P.emit [.copyToF64 .fr0, .copyToF64 .fr1, .cmpF64 .fr0 .fr1]
  let jNan := P.here
  let P := P.emit [.jumpIf .unordered]
  let P := P.emit [.cmpF64 .fr0 .fr1, .opFlags c]
  let jDone := P.here
  let P := P.emit [.jump]
  let P := P.setLabel jNan P.here
  (jNan, jDone, P)

/-- `JIT_INLINE_FLOAT8_EQ`. -/
def emitFloat8Eq (P : FloatProgram) : FloatProgram :=
  let (_, jDone, P) := emitFloat8Ordered .equal P
  let P := P.emit [.cmpF64 .fr0 .fr0, .opFlags .unordered]
  let jANotNan := P.here
  let P := P.emit [.cmpZero true]
  let P := P.emit [.cmpF64 .fr1 .fr1, .opFlags .unordered]
  let P := P.setLabel jANotNan P.here
  P.setLabel jDone P.here

/-- `JIT_INLINE_FLOAT8_NE`. -/
def emitFloat8Ne (P : FloatProgram) : FloatProgram :=
  let (_, jDone, P) := emitFloat8Ordered .notEqual P
  let P := P.emit [.cmpF64 .fr0 .fr0, .opFlags .unordered]
  let jANotNan := P.here
  let P := P.emit [.cmpZero true]
  let P := P.emit [.cmpF64 .fr1 .fr1, .opFlags .ordered]
  let jEnd := P.here
  let P := P.emit [.jump]
  let P := P.setLabel jANotNan P.here
  let P := P.emit [.movImm 1]
  let P := P.setLabel jEnd P.here
  P.setLabel jDone P.here

/-- `JIT_INLINE_FLOAT8_LT`. -/
def emitFloat8Lt (P : FloatProgram) : FloatProgram :=
  let (_, jDone, P) := emitFloat8Ordered .less P
  let P := P.emit [.cmpF64 .fr0 .fr0, .opFlags .ordered]
  P.setLabel jDone P.here

/-- `JIT_INLINE_FLOAT8_LE`. -/
def emitFloat8Le (P : FloatProgram) : FloatProgram :=
  let (_, jDone, P) := emitFloat8Ordered .lessEqual P
  let P := P.emit [.cmpF64 .fr0 .fr0, .opFlags .unordered]
  let jANan := P.here
  let P := P.emit [.cmpZero false]
  let P := P.emit [.movImm 1]
  let jEnd := P.here
  let P := P.emit [.jump]
  let P := P.setLabel jANan P.here
  let P := P.emit [.cmpF64 .fr1 .fr1, .opFlags .unordered]
  let P := P.setLabel jEnd P.here
  P.setLabel jDone P.here

/-- `JIT_INLINE_FLOAT8_GT`. -/
def emitFloat8Gt (P : FloatProgram) : FloatProgram :=
  let (_, jDone, P) := emitFloat8Ordered .greater P
  let P := P.emit [.cmpF64 .fr0 .fr0, .opFlags .unordered]
  let jANotNan := P.here
  let P := P.emit [.cmpZero true]
  let P := P.emit [.cmpF64 .fr1 .fr1, .opFlags .ordered]
  let P := P.setLabel jANotNan P.here
  P.setLabel jDone P.here

/-- `JIT_INLINE_FLOAT8_GE`. -/
def emitFloat8Ge (P : FloatProgram) : FloatProgram :=
  let (_, jDone, P) := emitFloat8Ordered .greaterEqual P
  let P := P.emit [.cmpF64 .fr0 .fr0, .opFlags .unordered]
  P.setLabel jDone P.here

/-- The float8 entries of `emit_inline_funcexpr`. -/
def emitFloat8Cmp : CmpOp → FloatProgram → FloatProgram
  | .eq => emitFloat8Eq
  | .ne => emitFloat8Ne
  | .lt => emitFloat8Lt
  | .le => emitFloat8Le
  | .gt => emitFloat8Gt
  | .ge => emitFloat8Ge

/-! ## What the functions are for -/

/-- A float in PostgreSQL's order, in which NaN equals itself and is the greatest. -/
def PgFloat.key {β : Type} : PgFloat β → WithTop β
  | .nan => ⊤
  | .num b => (b : WithTop β)

section Spec

variable {α β : Type} [LinearOrder α] [LinearOrder β]

/-- The code runs to its end and leaves a Datum in R0. -/
def FloatStores (toF64 : Datum → PgFloat β) (P : FloatProgram) (s : FloatState β) (d : Datum) : Prop :=
  ∃ s', Runs (FloatInsn.exec toF64) P (0, s) (P.here, s') ∧ s'.r0 = d

/-- On a set of floats of both widths, the three-way functions are one total preorder, with NaN equal to itself and above every
number, and the operators and the inlined comparisons say what it says. -/
structure BtfloatRight (w : α ↪o β) (toF64 : Datum → PgFloat β) (S : Set (AnyFloat α β)) : Prop where
  refl : ∀ a ∈ S, jitBtfloatcmp w a a = 0
  swap : ∀ a ∈ S, ∀ b ∈ S, jitBtfloatcmp w b a = -jitBtfloatcmp w a b
  trans : ∀ a ∈ S, ∀ b ∈ S, ∀ c ∈ S, jitBtfloatcmp w a b ≤ 0 → jitBtfloatcmp w b c ≤ 0 → jitBtfloatcmp w a c ≤ 0
  nanEq : ∀ a ∈ S, ∀ b ∈ S, a.isnan → b.isnan → jitBtfloatcmp w a b = 0
  nanTop : ∀ a ∈ S, ∀ b ∈ S, a.isnan → ¬ b.isnan → jitBtfloatcmp w a b > 0
  operator : ∀ a ∈ S, ∀ b ∈ S, ∀ op, jitFloatOp w op a b = boolToInt (op.cond (jitBtfloatcmp w a b))
  inlined : ∀ s : FloatState β, .f8 (toF64 s.r0) ∈ S → .f8 (toF64 s.r1) ∈ S → ∀ op,
    FloatStores toF64 (emitFloat8Cmp op .empty) s
      (boolGetDatum (op.cond (jitBtfloatcmp w (.f8 (toF64 s.r0)) (.f8 (toF64 s.r1)))))

end Spec

end PgJitter
