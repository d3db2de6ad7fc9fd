import PgJitter.CaseEmit
import PgJitter.CaseEval
import PgJitter.Lib.Backpatch
import Mathlib.Logic.Relation

/-!
# The code of an expression

What `sljit_compile_expr` (`src/pg_jitter_sljit.c`) emits for constants, columns, assignments, calls, the steps of AND, OR and NOT, the
jumps, the null tests and the CASE patterns, and the machine that runs it. A register holds a value, a pointer to one of the structures
that the executor allocated, or a function; a load or store through a pointer goes to a field of what it points to, and values and null
flags are memory of their own. A jump to a label inside the code of a step names a mark there, and a jump to another step is recorded
and bound at the end. The null checks of a strict call are such jumps to a mark: their entries in the array of recorded jumps are those
of `JumpEmit.strictCall`. The prologue and the FETCHSOME steps, which come before the other steps of an expression, are left out: where
the slots' columns are found is given.
-/

namespace PgJitter

open LeftScan Assembly Backpatch

/-! ## The machine -/

/-- What the code has pointers to: the `ExprState`, the `ExprContext`, the `isNull` argument, the fields of steps, a call's `fcinfo`, a
slot, and columns of a slot or of the result slot, from one on. -/
inductive Ptr where
  | state
  | econtext
  | isNull
  | resvalue (c : Cell)
  | resnull (c : Cell)
  | anynull (n : Nat)
  | fcinfo (n : Nat)
  | slot (src : VarSource)
  | values (src : VarSource) (k : Nat)
  | isnulls (src : VarSource) (k : Nat)
  | resultvals (k : Nat)
  | resultnulls (k : Nat)
  deriving DecidableEq, Repr

/-- A field behind a pointer: what it points to, the null flag after a value in one `NullableDatum`, an element further on, and the
fields of the structures. -/
inductive Field where
  | here
  | paired
  | elem (k : Nat)
  | resvalue
  | resnull
  | argValue (k : Nat)
  | argIsnull (k : Nat)
  | isnull
  | fncollation
  | caseValueDatum
  | caseValueIsNull
  | ttsValues
  | ttsIsnull
  deriving DecidableEq, Repr

/-- The memory of the values. -/
inductive WordPlace where
  | value (c : Cell)
  | caseValue
  | slotValue (src : VarSource) (k : Nat)
  | result (k : Nat)
  deriving DecidableEq, Repr

/-- The memory of the null flags. -/
inductive BytePlace where
  | isnull (c : Cell)
  | anynull (n : Nat)
  | fcIsnull (n : Nat)
  | caseIsnull
  | slotIsnull (src : VarSource) (k : Nat)
  | resultIsnull (k : Nat)
  | isNull
  deriving DecidableEq, Repr

/-- The value that a field is. -/
def Ptr.wordPlace : Ptr → Field → Option WordPlace
  | state, .resvalue => some (.value .state)
  | econtext, .caseValueDatum => some .caseValue
  | resvalue c, .here => some (.value c)
  | fcinfo n, .argValue k => some (.value (.arg n k))
  | values src b, .elem k => some (.slotValue src (b + k))
  | resultvals b, .elem k => some (.result (b + k))
  | _, _ => none

/-- The null flag that a field is; `paired` says where a null flag lies after its value. -/
def Ptr.bytePlace (paired : Cell → Bool) : Ptr → Field → Option BytePlace
  | state, .resnull => some (.isnull .state)
  | econtext, .caseValueIsNull => some .caseIsnull
  | isNull, .here => some .isNull
  | resvalue c, .paired => if paired c then some (.isnull c) else none
  | resnull c, .here => some (.isnull c)
  | anynull n, .here => some (.anynull n)
  | fcinfo n, .argIsnull k => some (.isnull (.arg n k))
  | fcinfo n, .isnull => some (.fcIsnull n)
  | isnulls src b, .elem k => some (.slotIsnull src (b + k))
  | resultnulls b, .elem k => some (.resultIsnull (b + k))
  | _, _ => none

/-- The pointer that a field is. -/
def Ptr.ptrPlace : Ptr → Field → Option Ptr
  | slot src, .ttsValues => some (values src 0)
  | slot src, .ttsIsnull => some (isnulls src 0)
  | _, _ => none

/-- The call whose collation a field is. -/
def Ptr.collationPlace : Ptr → Field → Option Nat
  | fcinfo n, .fncollation => some n
  | _, _ => none

/-- A pointer to an element further on. -/
def Ptr.advance (n : Nat) : Ptr → Option Ptr
  | values src b => some (values src (b + n))
  | isnulls src b => some (isnulls src (b + n))
  | resultvals b => some (resultvals (b + n))
  | resultnulls b => some (resultnulls (b + n))
  | _ => none

/-- What a register holds: a value, a pointer, a function, or the address of a descriptor; `undef` is anything that a call left there. -/
inductive RegWord (G : Type) where
  | datum (d : Datum)
  | ptr (p : Ptr)
  | fn (f : G)
  | desc (k : Nat)
  | undef
  deriving DecidableEq, Repr

/-- The saved registers: `S0`, `S1`, `S2`, `SREG_RESULTVALS`, `SREG_RESULTNULLS`, and those that cache the columns of a slot. -/
inductive SavedReg where
  | s0
  | s1
  | s2
  | resultvals
  | resultnulls
  | slotVals (src : VarSource)
  | slotNulls (src : VarSource)
  deriving DecidableEq, Repr

/-- What the saved registers hold, from the prologue and from FETCHSOME on. -/
def SavedReg.ptr : SavedReg → Ptr
  | s0 => .state
  | s1 => .econtext
  | s2 => .isNull
  | resultvals => .resultvals 0
  | resultnulls => .resultnulls 0
  | slotVals src => .values src 0
  | slotNulls src => .isnulls src 0

/-- The base of an address: a scratch register or a saved one. -/
inductive BaseReg where
  | r (k : Nat)
  | s (s : SavedReg)
  deriving DecidableEq, Repr

/-- A scratch register or an immediate. -/
inductive Operand where
  | reg (k : Nat)
  | imm (d : Datum)
  deriving DecidableEq, Repr

/-- The fields of a step that the code loads. -/
inductive StepField where
  | resvalue
  | resnull
  | anynull
  | fcinfo
  | fnAddr
  | constval
  | casetestValue
  | casetestIsnull
  deriving DecidableEq, Repr

/-- The instructions. -/
inductive Instr (G : Type) where
  /-- A field of a step, of `emit_load_step_field`. -/
  | stepField (dst opno : Nat) (f : StepField)
  /-- The same, for the address of a descriptor in `d.constval.value`. -/
  | stepDesc (dst opno : Nat)
  /-- `emit_load_econtext_slot` -/
  | econtextSlot (dst : Nat) (src : VarSource)
  /-- The columns of a slot as FETCHSOME left them on the stack: the values or the null flags. -/
  | stackSlot (dst : Nat) (src : VarSource) (isnull : Bool)
  | mov (dst : Nat) (x : Operand)
  | movSaved (dst : Nat) (s : SavedReg)
  | load (dst : Nat) (b : BaseReg) (f : Field)
  | loadU8 (dst : Nat) (b : BaseReg) (f : Field)
  | load32 (dst : Nat) (b : BaseReg) (f : Field)
  | store (b : BaseReg) (f : Field) (x : Operand)
  | storeU8 (b : BaseReg) (f : Field) (x : Operand)
  | or (dst src : Nat)
  | xor (dst : Nat) (d : Datum)
  /-- `SLJIT_SUB | SLJIT_SET_Z` -/
  | subSetZ (dst : Nat) (d : Datum)
  /-- The same, for the flag alone. -/
  | cmpSetZ (r : Nat) (d : Datum)
  /-- `SLJIT_EQUAL` into a register -/
  | flagEqual (dst : Nat)
  /-- A pointer so many elements further on. -/
  | addElems (dst : Nat) (b : BaseReg) (n : Nat)
  /-- `sljit_emit_cmp` with zero, for `SLJIT_EQUAL` or `SLJIT_NOT_EQUAL` -/
  | cmpZero (equal : Bool) (r : Nat)
  | jumpNotZero
  | jump
  | callFn (f : G) (nargs : Nat)
  | callReg (r nargs : Nat)
  /-- A call of the native function behind a function. -/
  | callNative (f : G) (nargs : Nat)
  /-- The instructions of `emit_inline_funcexpr` for a function. -/
  | inlineOp (f : G) (nargs : Nat)
  /-- A call of the helper for CASE patterns of a kind. -/
  | callHelper (info : CaseBSearchInfo)
  | ret

/-- The machine: the scratch registers, the zero flag and the memory. -/
structure Mach (G : Type) where
  regs : Nat → RegWord G
  zero : Bool
  words : WordPlace → Datum
  bytes : BytePlace → BitVec 8

/-- The native functions: what a direct call and an inlined operation give for the values in their registers, and the collation of a
call. -/
structure NativeFns (G : Type) where
  call : G → List Datum → Datum
  inlined : G → List Datum → Datum
  collation : Nat → Datum

/-- What the code runs on: where a null flag lies after its value, the functions, the steps as they are when it runs, and the patterns
with their descriptors and what their helpers return. -/
structure ExprTarget (G : Type) where
  paired : Cell → Bool
  env : ExprEnv G
  native : NativeFns G
  steps : List (ExprEvalStep G)
  patterns : List CasePattern
  helper : CasePattern → Datum → Datum

/-- A null flag as a byte. -/
def boolByte (b : Bool) : BitVec 8 := if b then 1 else 0

/-- A field of a step, as the code finds it. -/
def stepFieldWord {G : Type} (step : ExprEvalStep G) : StepField → RegWord G
  | .resvalue => .ptr (.resvalue step.resvalue)
  | .resnull => .ptr (.resnull step.resvalue)
  | .anynull =>
    match step.op with
    | .boolAndStep _ n _ => .ptr (.anynull n)
    | .boolOrStep _ n _ => .ptr (.anynull n)
    | _ => .undef
  | .fcinfo =>
    match step.op with
    | .funcExpr _ n _ => .ptr (.fcinfo n)
    | .funcExprStrict _ n _ => .ptr (.fcinfo n)
    | _ => .undef
  | .fnAddr =>
    match step.op with
    | .funcExpr f _ _ => .fn f
    | .funcExprStrict f _ _ => .fn f
    | _ => .undef
  | .constval =>
    match step.op with
    | .const c => .datum c.value
    | _ => .undef
  | .casetestValue =>
    match step.op with
    | .caseTestval (some c) => .ptr (.resvalue c)
    | _ => .undef
  | .casetestIsnull =>
    match step.op with
    | .caseTestval (some c) => .ptr (.resnull c)
    | _ => .undef

namespace Mach

variable {G : Type} (m : Mach G)

/-- Set a register. -/
def setReg (dst : Nat) (w : RegWord G) : Mach G := { m with regs := Function.update m.regs dst w }

/-- Write a value. -/
def setWord (p : WordPlace) (d : Datum) : Mach G := { m with words := Function.update m.words p d }

/-- Write a null flag. -/
def setByte (p : BytePlace) (b : BitVec 8) : Mach G := { m with bytes := Function.update m.bytes p b }

/-- A pointer in a register. -/
def base : BaseReg → Option Ptr
  | .r k =>
    match m.regs k with
    | .ptr p => some p
    | _ => none
  | .s s => some s.ptr

/-- A value in a register. -/
def datum (k : Nat) : Option Datum :=
  match m.regs k with
  | .datum d => some d
  | _ => none

/-- A value in a register, or an immediate. -/
def operand : Operand → Option Datum
  | .reg k => m.datum k
  | .imm d => some d

/-- What a register or an immediate is. -/
def word : Operand → RegWord G
  | .reg k => m.regs k
  | .imm d => .datum d

/-- The values in the first registers. -/
def args (n : Nat) : Option (List Datum) := (List.range n).mapM m.datum

/-- After a call: its result, and nothing that was in the scratch registers before. -/
def returned (d : Datum) : Mach G := { m with regs := fun k => if k = 0 then .datum d else .undef }

/-- A call by PostgreSQL's convention, of the `fcinfo` in `R0`: a function sets the null flag of a null result, and no other. -/
def callV1 (env : ExprEnv G) (f : G) (nargs : Nat) : Option (Mach G) :=
  match m.regs 0 with
  | .ptr (.fcinfo n) =>
    let r := env.call f ((List.range nargs).map fun k => ⟨m.words (.value (.arg n k)), m.bytes (.isnull (.arg n k)) != 0⟩)
    some ((if r.isnull then m.setByte (.fcIsnull n) 1 else m).returned r.value)
  | _ => none

end Mach

deriving instance DecidableEq for CaseBSearchInfo

/-- The descriptor whose address is in a step: the last one that was stored there. -/
def descriptorAt (patterns : List CasePattern) (opno : Nat) : Option Nat :=
  (patterns.zipIdx.reverse.find? fun pk => pk.1.startOpno + 2 == opno).map Prod.snd

section Exec

variable {G : Type} (t : ExprTarget G)

/-- Go on where there is a state. -/
def nextOf : Option (Mach G) → Outcome (Mach G)
  | some m => .next m
  | none => .halt

/-- Jump or go on. -/
def jumpWhen (taken : Bool) (m : Mach G) : Outcome (Mach G) := if taken then .jump m else .next m

/-- What an instruction does; where a register or a field is not of its kind, the run is over, as it is with `ret`. -/
def Instr.exec : Instr G → Mach G → Outcome (Mach G)
  | stepField dst opno f, m => nextOf ((t.steps[opno]?).map fun step => m.setReg dst (stepFieldWord step f))
  | stepDesc dst opno, m => nextOf ((descriptorAt t.patterns opno).map fun k => m.setReg dst (.desc k))
  | econtextSlot dst src, m => .next (m.setReg dst (.ptr (.slot src)))
  | stackSlot dst src isnull, m => .next (m.setReg dst (.ptr (if isnull then .isnulls src 0 else .values src 0)))
  | mov dst x, m => .next (m.setReg dst (m.word x))
  | movSaved dst s, m => .next (m.setReg dst (.ptr s.ptr))
  | load dst b f, m => nextOf <| (m.base b).bind fun p =>
      match p.ptrPlace f with
      | some q => some (m.setReg dst (.ptr q))
      | none => (p.wordPlace f).map fun w => m.setReg dst (.datum (m.words w))
  | loadU8 dst b f, m => nextOf <| (m.base b).bind fun p =>
      (p.bytePlace t.paired f).map fun w => m.setReg dst (.datum ((m.bytes w).setWidth 64))
  | load32 dst b f, m => nextOf <| (m.base b).bind fun p =>
      (p.collationPlace f).map fun n => m.setReg dst (.datum (t.native.collation n))
  | store b f x, m => nextOf <| (m.base b).bind fun p => (p.wordPlace f).bind fun w => (m.operand x).map fun d => m.setWord w d
  | storeU8 b f x, m => nextOf <| (m.base b).bind fun p =>
      (p.bytePlace t.paired f).bind fun w => (m.operand x).map fun d => m.setByte w (d.setWidth 8)
  | or dst src, m => nextOf <| (m.datum dst).bind fun a => (m.datum src).map fun b => m.setReg dst (.datum (a ||| b))
  | xor dst d, m => nextOf <| (m.datum dst).map fun a => m.setReg dst (.datum (a ^^^ d))
  | subSetZ dst d, m => nextOf <| (m.datum dst).map fun a => { m.setReg dst (.datum (a - d)) with zero := a - d == 0 }
  | cmpSetZ r d, m => nextOf <| (m.datum r).map fun a => { m with zero := a - d == 0 }
  | flagEqual dst, m => .next (m.setReg dst (.datum (if m.zero then 1 else 0)))
  | addElems dst b n, m => nextOf <| (m.base b).bind fun p => (p.advance n).map fun q => m.setReg dst (.ptr q)
  | cmpZero equal r, m =>
    match m.datum r with
    | some d => jumpWhen ((d == 0) == equal) m
    | none => .halt
  | jumpNotZero, m => jumpWhen (!m.zero) m
  | jump, m => .jump m
  | callFn f nargs, m => nextOf (m.callV1 t.env f nargs)
  | callReg r nargs, m =>
    match m.regs r with
    | .fn f => nextOf (m.callV1 t.env f nargs)
    | _ => .halt
  | callNative f nargs, m => nextOf ((m.args nargs).map fun ds => m.returned (t.native.call f ds))
  | inlineOp f nargs, m => nextOf ((m.args nargs).map fun ds => m.returned (t.native.inlined f ds))
  | callHelper info, m =>
    match m.datum 0, m.regs 1 with
    | some v, .desc k => nextOf ((t.patterns[k]?).bind fun p => if p.info = info then some (m.returned (t.helper p v)) else none)
    | _, _ => .halt
  | ret, _ => .halt

end Exec

/-! ## What the compiler looks up -/

/-- Where the columns of a slot are found: through the slot, on the stack, or in saved registers. -/
inductive SlotAccess where
  | econtext
  | stack
  | saved
  deriving DecidableEq, Repr

/-- `inline_op` of a direct function: none, one that `emit_inline_funcexpr` emits, or one that it leaves to the C code. -/
inductive InlineSupport where
  | none
  | emitted
  | refused
  deriving DecidableEq, Repr

/-- `JitDirectFn`: whether the function is inlined, whether it has a native function, its number of arguments, and whether a collation
is passed after them. -/
structure DirectFn where
  inlineOp : InlineSupport
  hasJitFn : Bool
  nargs : Nat
  collation : Bool
  deriving DecidableEq, Repr

/-- `jit_native_nargs`. -/
def DirectFn.nativeNargs (dfn : DirectFn) : Nat := dfn.nargs + if dfn.collation then 1 else 0

/-- What the compiler looks up: `sljit_shared_code_mode`, `sljit_inline_enabled`, where a null flag lies after its value, where the
columns of a slot are found, and `jit_find_direct_fn`. The texts' equality and the functions with a path of their own in the third tier
are no functions here. -/
structure CompileConfig (G : Type) where
  sharedCode : Bool
  inlineEnabled : Bool
  paired : Cell → Bool
  slotAccess : VarSource → SlotAccess
  direct : G → Option DirectFn

/-! ## Results of steps -/

section Emit

variable {G : Type}

/-- `emit_store_resvalue`, and `emit_store_resvalue_imm`. -/
def emitStoreResvalue (opno : Nat) (c : Cell) (x : Operand) : List (Instr G) :=
  if c = .state then [.store (.s .s0) .resvalue x] else [.stepField 1 opno .resvalue, .store (.r 1) .here x]

/-- `emit_store_resnull_false`, `emit_store_resnull_true` and `emit_store_resnull_reg`. -/
def emitStoreResnull (opno : Nat) (c : Cell) (x : Operand) : List (Instr G) :=
  if c = .state then [.storeU8 (.s .s0) .resnull x] else [.stepField 1 opno .resnull, .storeU8 (.r 1) .here x]

/-- `emit_store_res_pair_false`. -/
def emitStoreResPairFalse (cfg : CompileConfig G) (opno : Nat) (c : Cell) (r : Nat) : List (Instr G) :=
  if c = .state then [.store (.s .s0) .resvalue (.reg r), .storeU8 (.s .s0) .resnull (.imm 0)]
  else if cfg.paired c then [.stepField 1 opno .resvalue, .store (.r 1) .here (.reg r), .storeU8 (.r 1) .paired (.imm 0)]
  else emitStoreResvalue opno c (.reg r) ++ emitStoreResnull opno c (.imm 0)

/-- `emit_load_resvalue`. -/
def emitLoadResvalue (opno : Nat) (c : Cell) (dst : Nat) : List (Instr G) :=
  if c = .state then [.load dst (.s .s0) .resvalue] else [.stepField dst opno .resvalue, .load dst (.r dst) .here]

/-- `emit_load_resnull`. -/
def emitLoadResnull (opno : Nat) (c : Cell) (dst : Nat) : List (Instr G) :=
  if c = .state then [.loadU8 dst (.s .s0) .resnull] else [.stepField dst opno .resnull, .loadU8 dst (.r dst) .here]

/-! ## Columns -/

/-- The values of a slot, loaded into `R0` where they are in no saved register, and the base register they are then at. -/
def emitSlotValues (cfg : CompileConfig G) (src : VarSource) : List (Instr G) × BaseReg :=
  match cfg.slotAccess src with
  | .saved => ([], .s (.slotVals src))
  | .stack => ([.stackSlot 0 src false], .r 0)
  | .econtext => ([.econtextSlot 0 src, .load 0 (.r 0) .ttsValues], .r 0)

/-- The null flags of a slot. -/
def emitSlotIsnulls (cfg : CompileConfig G) (src : VarSource) : List (Instr G) × BaseReg :=
  match cfg.slotAccess src with
  | .saved => ([], .s (.slotNulls src))
  | .stack => ([.stackSlot 0 src true], .r 0)
  | .econtext => ([.econtextSlot 0 src, .load 0 (.r 0) .ttsIsnull], .r 0)

/-- One column of a batch of VAR steps, in the phase of the values. -/
def emitVarValue (steps : List (ExprEvalStep G)) (b : BaseReg) (opno : Nat) : List (Instr G) :=
  match steps[opno]? with
  | some ⟨.var _ attnum, c⟩ => .load 2 b (.elem attnum) :: emitStoreResvalue opno c (.reg 2)
  | _ => []

/-- One column of a batch of VAR steps, in the phase of the null flags. -/
def emitVarIsnull (steps : List (ExprEvalStep G)) (b : BaseReg) (opno : Nat) : List (Instr G) :=
  match steps[opno]? with
  | some ⟨.var _ attnum, c⟩ => .loadU8 2 b (.elem attnum) :: emitStoreResnull opno c (.reg 2)
  | _ => []

/-- A batch of VAR steps: first the values, then the null flags. -/
def emitVarBatch (cfg : CompileConfig G) (steps : List (ExprEvalStep G)) (src : VarSource) (opno next : Nat) : List (Instr G) :=
  let vals := emitSlotValues cfg src
  let nulls := emitSlotIsnulls cfg src
  vals.1 ++ (List.range' opno (next - opno)).flatMap (emitVarValue steps vals.2) ++ nulls.1 ++
    (List.range' opno (next - opno)).flatMap (emitVarIsnull steps nulls.2)

/-- A VAR step alone whose value and null flag lie in one `NullableDatum`. -/
def emitVarPaired (cfg : CompileConfig G) (src : VarSource) (attnum opno : Nat) : List (Instr G) :=
  let vals := emitSlotValues cfg src
  let nulls := emitSlotIsnulls cfg src
  vals.1 ++ [.load 2 vals.2 (.elem attnum), .stepField 1 opno .resvalue, .store (.r 1) .here (.reg 2)] ++ nulls.1 ++
    [.loadU8 2 nulls.2 (.elem attnum), .storeU8 (.r 1) .paired (.reg 2)]

/-- `EEOP_*_VAR`, with the steps of its batch. -/
def emitVar (cfg : CompileConfig G) (steps : List (ExprEvalStep G)) (src : VarSource) (attnum : Nat) (c : Cell) (opno next : Nat) :
    List (Instr G) :=
  if next - opno = 1 ∧ cfg.paired c ∧ c ≠ .state then emitVarPaired cfg src attnum opno else emitVarBatch cfg steps src opno next

/-- The columns of an ASSIGN_VAR step. -/
def assignVarAt (steps : List (ExprEvalStep G)) (i : Nat) : Option (Nat × Nat) :=
  match opAt steps i with
  | some (.assignVar _ attnum resultnum) => some (attnum, resultnum)
  | _ => none

/-- One column of a batch of ASSIGN_VAR steps, in the phase of the values. -/
def emitAssignValue (steps : List (ExprEvalStep G)) (b : BaseReg) (opno : Nat) : List (Instr G) :=
  match assignVarAt steps opno with
  | some (attnum, resultnum) => [.load 2 b (.elem attnum), .store (.s .resultvals) (.elem resultnum) (.reg 2)]
  | none => []

/-- One column of a batch of ASSIGN_VAR steps, in the phase of the null flags. -/
def emitAssignIsnull (steps : List (ExprEvalStep G)) (b : BaseReg) (opno : Nat) : List (Instr G) :=
  match assignVarAt steps opno with
  | some (attnum, resultnum) => [.loadU8 2 b (.elem attnum), .storeU8 (.s .resultnulls) (.elem resultnum) (.reg 2)]
  | none => []

/-- A batch of ASSIGN_VAR steps, one after another in either phase. -/
def emitAssignBatch (cfg : CompileConfig G) (steps : List (ExprEvalStep G)) (src : VarSource) (opno next : Nat) : List (Instr G) :=
  let vals := emitSlotValues cfg src
  let nulls := emitSlotIsnulls cfg src
  vals.1 ++ (List.range' opno (next - opno)).flatMap (emitAssignValue steps vals.2) ++ nulls.1 ++
    (List.range' opno (next - opno)).flatMap (emitAssignIsnull steps nulls.2)

/-- `is_sequential`. -/
def isSequential (steps : List (ExprEvalStep G)) (att0 res0 opno count : Nat) : Bool :=
  (List.range' 1 (count - 1)).all fun bi => assignVarAt steps (opno + bi) == some (att0 + bi, res0 + bi)

/-- A counted loop that copies elements from `R0` to `R1`, with its mark. -/
def emitCopyLoop (count mark : Nat) (copy : List (Instr G)) : List (Item (Instr G)) :=
  ops [.mov 3 (.imm (BitVec.ofNat 64 count))] ++
    ([.mark mark] ++
      (ops (copy ++ [.addElems 0 (.r 0) 1, .addElems 1 (.r 1) 1, .subSetZ 3 1]) ++ [.jumpTo .jumpNotZero mark]))

/-- A batch of ASSIGN_VAR steps for columns in a row: a loop for the values and a loop for the null flags. -/
def emitAssignLoop (cfg : CompileConfig G) (src : VarSource) (att0 res0 count : Nat) : List (Item (Instr G)) :=
  let vals := emitSlotValues cfg src
  let nulls := emitSlotIsnulls cfg src
  ops (vals.1 ++ [.addElems 0 vals.2 att0, .addElems 1 (.s .resultvals) res0]) ++
    emitCopyLoop count 0 [.load 2 (.r 0) (.elem 0), .store (.r 1) (.elem 0) (.reg 2)] ++
    ops (nulls.1 ++ [.addElems 0 nulls.2 att0, .addElems 1 (.s .resultnulls) res0]) ++
    emitCopyLoop count 1 [.loadU8 2 (.r 0) (.elem 0), .storeU8 (.r 1) (.elem 0) (.reg 2)]

/-- The least batch that is copied by loops. -/
def assignLoopMin : Nat := 32

/-- `EEOP_ASSIGN_*_VAR`, with the steps of its batch. -/
def emitAssignVar (cfg : CompileConfig G) (steps : List (ExprEvalStep G)) (src : VarSource) (attnum resultnum opno next : Nat) :
    List (Item (Instr G)) :=
  if assignLoopMin ≤ next - opno ∧ isSequential steps attnum resultnum opno (next - opno) = true then
    emitAssignLoop cfg src attnum resultnum (next - opno)
  else ops (emitAssignBatch cfg steps src opno next)

/-- `EEOP_ASSIGN_TMP`. -/
def emitAssignTmp (resultnum : Nat) : List (Instr G) :=
  [.load 0 (.s .s0) .resvalue, .loadU8 1 (.s .s0) .resnull, .storeU8 (.s .resultnulls) (.elem resultnum) (.reg 1),
    .store (.s .resultvals) (.elem resultnum) (.reg 0)]

/-! ## Calls -/

/-- The null checks of a strict call, which leave the `fcinfo` in `R1`: two to four flags are or-ed and checked at once. -/
def emitNullChecks (opno nargs nullPath : Nat) : List (Item (Instr G)) :=
  ops [.stepField 1 opno .fcinfo] ++
    if nargs ≤ 4 ∧ 1 < nargs then
      ops (.loadU8 0 (.r 1) (.argIsnull 0) ::
        (List.range' 1 (nargs - 1)).flatMap fun k => [.loadU8 2 (.r 1) (.argIsnull k), .or 0 2]) ++
        [.jumpTo (.cmpZero false 0) nullPath]
    else (List.range nargs).flatMap fun k => [.op (.loadU8 0 (.r 1) (.argIsnull k)), .jumpTo (.cmpZero false 0) nullPath]

/-- The arguments of an inlined operation: at most two, from the `fcinfo` in `R1` after null checks, else in `R2`. -/
def emitInlineArgs (strict : Bool) (opno nargs : Nat) : List (Instr G) :=
  let b : BaseReg := if strict then .r 1 else .r 2
  (if strict then [] else [.stepField 2 opno .fcinfo]) ++ .load 0 b (.argValue 0) ::
    if 2 ≤ nargs then [.load 1 b (.argValue 1)] else []

/-- The arguments of a direct call, with the `fcinfo` in the register after them. -/
def emitDirectArgs (strict : Bool) (opno : Nat) (dfn : DirectFn) : List (Instr G) :=
  (if strict then .mov dfn.nativeNargs (.reg 1) else .stepField dfn.nativeNargs opno .fcinfo) ::
    ((List.range dfn.nargs).map fun k => .load k (.r dfn.nativeNargs) (.argValue k)) ++
      if dfn.collation then [.load32 dfn.nargs (.r dfn.nativeNargs) .fncollation] else []

/-- A call by PostgreSQL's convention. -/
def emitV1Call (cfg : CompileConfig G) (strict : Bool) (opno : Nat) (c : Cell) (f : G) (nargs : Nat) : List (Instr G) :=
  (if strict then [.mov 0 (.reg 1)] else [.stepField 0 opno .fcinfo]) ++ [.storeU8 (.r 0) .isnull (.imm 0)] ++
    (if cfg.sharedCode then [.stepField 1 opno .fnAddr, .callReg 1 nargs] else [.callFn f nargs]) ++
    emitStoreResvalue opno c (.reg 0) ++ [.stepField 0 opno .fcinfo, .loadU8 0 (.r 0) .isnull] ++ emitStoreResnull opno c (.reg 0)

/-- The tiers of a call: inlined, direct, or by PostgreSQL's convention. -/
def emitCall (cfg : CompileConfig G) (strict : Bool) (opno : Nat) (c : Cell) (f : G) (nargs : Nat) : List (Instr G) :=
  match cfg.direct f with
  | none => emitV1Call cfg strict opno c f nargs
  | some dfn =>
    if cfg.inlineEnabled = true ∧ dfn.inlineOp ≠ .none then
      emitInlineArgs strict opno dfn.nargs ++
        if dfn.inlineOp = .emitted then .inlineOp f dfn.nargs :: emitStoreResPairFalse cfg opno c 0
        else emitV1Call cfg strict opno c f nargs
    else if dfn.hasJitFn = true then
      emitDirectArgs strict opno dfn ++ .callNative f dfn.nativeNargs :: emitStoreResPairFalse cfg opno c 0
    else emitV1Call cfg strict opno c f nargs

/-- `EEOP_FUNCEXPR_STRICT`: the null path after the call sets the null flag alone. -/
def emitStrictCall (cfg : CompileConfig G) (opno : Nat) (c : Cell) (f : G) (nargs : Nat) : List (Item (Instr G)) :=
  emitNullChecks opno nargs 0 ++ ops (emitCall cfg true opno c f nargs) ++ [.jumpTo .jump 1, .mark 0] ++
    ops (emitStoreResnull opno c (.imm 1)) ++ [.mark 1]

/-! ## Logic and jumps -/

/-- The steps of an AND (`stop = false`) or of an OR (`stop = true`): the mark `0` is that of the null handler, `1` goes on after it, and
`2` after the end of the chain. -/
def emitBoolStep (stop : Bool) (pos : BoolStepPos) (opno : Nat) (c : Cell) (jumpdone : Nat) : List (Item (Instr G)) :=
  (if pos = .first then ops [.stepField 0 opno .anynull, .storeU8 (.r 0) .here (.imm 0)] else []) ++
    ops (emitLoadResnull opno c 0) ++ [.jumpTo (.cmpZero false 0) 0] ++
    ops (emitLoadResvalue opno c 0) ++ [.jumpOut (.cmpZero (!stop) 0) jumpdone, .jumpTo .jump 1, .mark 0] ++
    ops [.stepField 0 opno .anynull, .storeU8 (.r 0) .here (.imm 1)] ++ [.mark 1] ++
    if pos = .last then
      ops [.stepField 0 opno .anynull, .loadU8 0 (.r 0) .here] ++ [.jumpTo (.cmpZero true 0) 2] ++
        ops (emitStoreResnull opno c (.imm 1) ++ emitStoreResvalue opno c (.imm 0)) ++ [.mark 2]
    else []

/-- `EEOP_BOOL_NOT_STEP`. -/
def emitBoolNot (opno : Nat) (c : Cell) : List (Instr G) :=
  emitLoadResvalue opno c 0 ++ [.cmpSetZ 0 0, .flagEqual 0] ++ emitStoreResvalue opno c (.reg 0)

/-- `EEOP_QUAL`: the mark `0` is that of the failure, and `1` goes on. -/
def emitQual (opno : Nat) (c : Cell) (jumpdone : Nat) : List (Item (Instr G)) :=
  ops (emitLoadResnull opno c 0) ++ [.jumpTo (.cmpZero false 0) 0] ++
    ops (emitLoadResvalue opno c 0) ++ [.jumpTo (.cmpZero false 0) 1, .mark 0] ++
    ops (emitStoreResnull opno c (.imm 0) ++ emitStoreResvalue opno c (.imm 0)) ++ [.jumpOut .jump jumpdone, .mark 1]

/-- `EEOP_JUMP_IF_NULL` (`null = true`) and `EEOP_JUMP_IF_NOT_NULL`. -/
def emitJumpIfNull (null : Bool) (opno : Nat) (c : Cell) (jumpdone : Nat) : List (Item (Instr G)) :=
  ops (emitLoadResnull opno c 0) ++ [.jumpOut (.cmpZero (!null) 0) jumpdone]

/-- `EEOP_JUMP_IF_NOT_TRUE`. -/
def emitJumpIfNotTrue (opno : Nat) (c : Cell) (jumpdone : Nat) : List (Item (Instr G)) :=
  ops (emitLoadResnull opno c 0) ++ [.jumpOut (.cmpZero false 0) jumpdone] ++
    ops (emitLoadResvalue opno c 0) ++ [.jumpOut (.cmpZero true 0) jumpdone]

/-- `EEOP_NULLTEST_ISNULL` and `EEOP_NULLTEST_ISNOTNULL`. -/
def emitNulltest (cfg : CompileConfig G) (isNotNull : Bool) (opno : Nat) (c : Cell) : List (Instr G) :=
  emitLoadResnull opno c 0 ++ (if isNotNull then [.xor 0 1] else []) ++ emitStoreResPairFalse cfg opno c 0

/-- `EEOP_CONST`. -/
def emitConst (cfg : CompileConfig G) (opno : Nat) (c : Cell) (k : NullableDatum) : List (Instr G) :=
  (if cfg.sharedCode then [.stepField 0 opno .constval] else [.mov 0 (.imm k.value)]) ++
    emitStoreResvalue opno c (.reg 0) ++ emitStoreResnull opno c (.imm (if k.isnull then 1 else 0))

/-- `EEOP_CASE_TESTVAL`: the test value that the step points to, or that of the expression context. -/
def emitCaseTestval (opno : Nat) (c : Cell) (value : Option Cell) : List (Instr G) :=
  match value with
  | some _ =>
    [.stepField 0 opno .casetestValue, .load 0 (.r 0) .here] ++ emitStoreResvalue opno c (.reg 0) ++
      [.stepField 0 opno .casetestIsnull, .loadU8 0 (.r 0) .here] ++ emitStoreResnull opno c (.reg 0)
  | none =>
    [.load 0 (.s .s1) .caseValueDatum] ++ emitStoreResvalue opno c (.reg 0) ++ [.loadU8 0 (.s .s1) .caseValueIsNull] ++
      emitStoreResnull opno c (.reg 0)

/-- `EEOP_DONE`. -/
def emitDone : List (Instr G) :=
  [.load 0 (.s .s0) .resvalue, .loadU8 1 (.s .s0) .resnull, .storeU8 (.s .s2) .here (.reg 1), .ret]

/-! ## Expressions -/

/-- What is emitted at a step, for the steps up to `next`: the `switch` of the main loop. -/
def emitStep (cfg : CompileConfig G) (steps : List (ExprEvalStep G)) (opno next : Nat) (step : ExprEvalStep G) :
    List (Item (Instr G)) :=
  let c := step.resvalue
  match step.op with
  | .done => ops emitDone
  | .const k => ops (emitConst cfg opno c k)
  | .var src attnum => ops (emitVar cfg steps src attnum c opno next)
  | .assignVar src attnum resultnum => emitAssignVar cfg steps src attnum resultnum opno next
  | .assignTmp resultnum => ops (emitAssignTmp resultnum)
  | .funcExpr f _ nargs => ops (emitCall cfg false opno c f nargs)
  | .funcExprStrict f _ nargs => emitStrictCall cfg opno c f nargs
  | .boolAndStep pos _ jumpdone => emitBoolStep false pos opno c jumpdone
  | .boolOrStep pos _ jumpdone => emitBoolStep true pos opno c jumpdone
  | .boolNotStep => ops (emitBoolNot opno c)
  | .qual jumpdone => emitQual opno c jumpdone
  | .jump jumpdone => [.jumpOut .jump jumpdone]
  | .jumpIfNull jumpdone => emitJumpIfNull true opno c jumpdone
  | .jumpIfNotNull jumpdone => emitJumpIfNull false opno c jumpdone
  | .jumpIfNotTrue jumpdone => emitJumpIfNotTrue opno c jumpdone
  | .nulltestIsNull => ops (emitNulltest cfg false opno c)
  | .nulltestIsNotNull => ops (emitNulltest cfg true opno c)
  | .caseTestval value => ops (emitCaseTestval opno c value)
  | .other _ _ => []

/-- The code of the steps from one on up to another, with a label for each of them. -/
def stepBlock (cfg : CompileConfig G) (steps : List (ExprEvalStep G)) (i next : Nat) : Block (Instr G) :=
  ⟨i, ((steps[i]?).map (emitStep cfg steps i next)).getD [], List.range' (i + 1) (next - (i + 1))⟩

/-- The call of a pattern, after the step that loads its value: a null value gives the default, which is never null. -/
def emitCase (p : CasePattern) (c cEnd : Cell) : List (Item (Instr G)) :=
  ops (emitLoadResnull p.startOpno c 0) ++ [.jumpTo (.cmpZero false 0) 0] ++
    ops (emitLoadResvalue p.startOpno c 0 ++ [.stepDesc 1 (p.startOpno + 2), .callHelper p.info] ++
      emitStoreResvalue p.endOpno cEnd (.reg 0) ++ emitStoreResnull p.endOpno cEnd (.imm 0)) ++
    [.jumpOut .jump p.elseEndOpno, .mark 0] ++
    ops (.mov 0 (.imm p.desc.defaultVal) :: emitStoreResvalue p.endOpno cEnd (.reg 0) ++ emitStoreResnull p.endOpno cEnd (.imm 0)) ++
    [.jumpOut .jump p.elseEndOpno]

/-- The code of a pattern, with a label for each of its steps. -/
def caseBlock (steps : List (ExprEvalStep G)) (p : CasePattern) : Block (Instr G) :=
  ⟨p.startOpno + 1,
    match resAt steps p.startOpno, resAt steps p.endOpno with
    | some c, some cEnd => emitCase p c cEnd
    | _, _ => [],
    List.range' (p.startOpno + 2) (min p.elseEndOpno steps.length - (p.startOpno + 2))⟩

/-- What is emitted for an event of the main loop. -/
def exprBlock (cfg : CompileConfig G) (steps : List (ExprEvalStep G)) : Event CasePattern → Block (Instr G)
  | .plain i next => stepBlock cfg steps i next
  | .taken p => caseBlock steps p

end Emit

section Compile

variable {G : Type} {α β : Type} [LinearOrder α] [LinearOrder β] (F : FloatFormats α β) (T : PgText) (fns : CaseFuncs G)

/-- The blocks of an expression. -/
def exprBlocks (cfg : CompileConfig G) (desc : Nat → Datum) (steps : List (ExprEvalStep G)) (m : EvalState) : List (Block (Instr G)) :=
  (emitExpr F T fns desc steps m).map (exprBlock cfg (caseBsearchPreScan F T fns desc steps m))

/-- The code of an expression. -/
def exprCode (cfg : CompileConfig G) (desc : Nat → Datum) (steps : List (ExprEvalStep G)) (m : EvalState) : Program (Instr G) :=
  assemble (exprBlocks F T fns cfg desc steps m)

end Compile

/-! ## What is asked of the code -/

/-- The same null flag, and the same value where it is not null. -/
def NullableDatum.Same (a b : NullableDatum) : Prop := a.isnull = b.isnull ∧ (a.isnull = false → a.value = b.value)

/-- A value and a null flag in memory are the ones meant, the value where it is not null. -/
def NullableDatum.In (d : NullableDatum) (v : Datum) (n : BitVec 8) : Prop := n = boolByte d.isnull ∧ (d.isnull = false → v = d.value)

/-- The functions do not look at the value of a null argument. -/
def ExprEnv.Blind {G : Type} (env : ExprEnv G) : Prop :=
  ∀ f args args', List.Forall₂ NullableDatum.Same args args' → (env.call f args).Same (env.call f args')

/-- A function that is called directly or inlined: it has the arguments of the call, and gives what the function gives, never null; for
a strict call no argument is null. An operation is inlined for at most two arguments, and refused for at most one. -/
structure DirectFn.Right {G : Type} (dfn : DirectFn) (cfg : CompileConfig G) (t : ExprTarget G) (strict : Bool) (f : G)
    (fcinfo nargs : Nat) : Prop where
  arity : dfn.nargs = nargs
  inlined : cfg.inlineEnabled = true → dfn.inlineOp = .emitted → nargs ≤ 2 ∧ ∀ args : List NullableDatum, args.length = nargs →
    (strict = true → ∀ a ∈ args, a.isnull = false) → t.env.call f args = ⟨t.native.inlined f (args.map NullableDatum.value), false⟩
  refused : cfg.inlineEnabled = true → dfn.inlineOp = .refused → nargs ≤ 1
  called : dfn.hasJitFn = true → ∀ args : List NullableDatum, args.length = nargs →
    (strict = true → ∀ a ∈ args, a.isnull = false) → t.env.call f args =
      ⟨t.native.call f (args.map NullableDatum.value ++ if dfn.collation then [t.native.collation fcinfo] else []), false⟩

/-- The locations that a step reads. -/
def ExprEvalStep.reads {G : Type} (step : ExprEvalStep G) : List Cell :=
  match step.op with
  | .done => [.state]
  | .assignTmp _ => [.state]
  | .funcExpr _ fcinfo nargs => (List.range nargs).map (.arg fcinfo)
  | .funcExprStrict _ fcinfo nargs => (List.range nargs).map (.arg fcinfo)
  | .boolAndStep _ _ _ => [step.resvalue]
  | .boolOrStep _ _ _ => [step.resvalue]
  | .boolNotStep => [step.resvalue]
  | .qual _ => [step.resvalue]
  | .jumpIfNull _ => [step.resvalue]
  | .jumpIfNotNull _ => [step.resvalue]
  | .jumpIfNotTrue _ => [step.resvalue]
  | .nulltestIsNull => [step.resvalue]
  | .nulltestIsNotNull => [step.resvalue]
  | .caseTestval (some c) => [c]
  | _ => []

/-- The flag of a chain of AND or OR steps. -/
def EvalOp.anynull? {G : Type} : EvalOp G → Option Nat
  | .boolAndStep _ n _ => some n
  | .boolOrStep _ n _ => some n
  | _ => none

/-- The column of the result slot that a step writes. -/
def EvalOp.column? {G : Type} : EvalOp G → Option Nat
  | .assignVar _ _ resultnum => some resultnum
  | .assignTmp resultnum => some resultnum
  | _ => none

section Asked

variable {G : Type} (steps : List (ExprEvalStep G))

/-- The location is read from a step on. -/
def LiveFrom (pc : Nat) (c : Cell) : Prop := ∃ (j : Nat) (step : ExprEvalStep G), pc ≤ j ∧ steps[j]? = some step ∧ c ∈ step.reads

/-- The flag of a chain of AND or OR steps is in use from a step on. -/
def FlagFrom (pc n : Nat) : Prop := ∃ (j : Nat) (op : EvalOp G), pc ≤ j ∧ opAt steps j = some op ∧ op.anynull? = some n

/-- The step arrays of the executor, of the opcodes that are modelled: jumps go forward and to a step, the last step is DONE, the last
step of a chain goes on at the next step, where the flag of the chain is no longer in use, and the number of steps is an `int`. -/
structure PlanSteps : Prop where
  known : ∀ i n targets, opAt steps i ≠ some (.other n targets)
  forward : ForwardJumps steps
  toStep : ∀ i op, opAt steps i = some op → ∀ t ∈ op.targets, t < steps.length
  ends : opAt steps (steps.length - 1) = some .done
  last : ∀ i n jumpdone, opAt steps i = some (.boolAndStep .last n jumpdone) ∨ opAt steps i = some (.boolOrStep .last n jumpdone) →
    jumpdone = i + 1 ∧ ¬ FlagFrom steps (i + 1) n
  short : steps.length < 2 ^ 31

/-- The functions that are called directly or inlined are right. -/
structure CallsRight (cfg : CompileConfig G) (t : ExprTarget G) : Prop where
  plain : ∀ i f fcinfo nargs, opAt steps i = some (.funcExpr f fcinfo nargs) → ∀ dfn, cfg.direct f = some dfn →
    dfn.Right cfg t false f fcinfo nargs
  strict : ∀ i f fcinfo nargs, opAt steps i = some (.funcExprStrict f fcinfo nargs) → ∀ dfn, cfg.direct f = some dfn →
    dfn.Right cfg t true f fcinfo nargs

/-- The interpreter comes to a step with a state. -/
def ComesTo (env : ExprEnv G) (s₀ : EvalState) (pc : Nat) (s : EvalState) : Prop :=
  Relation.ReflTransGen (InterpStep env steps) (0, s₀) (pc, s)

/-- The steps of a pattern are by themselves: only they jump into it, its second step reads what the first one has loaded, and what they
write, but for the result, is not in use after them. -/
structure CasePattern.ByItself (c : Cell) (p : CasePattern) : Prop where
  entered : ∀ i op, opAt steps i = some op → ∀ t ∈ op.targets, p.startOpno < t → t < p.elseEndOpno → p.startOpno < i
  loaded : ∀ c', resAt steps p.startOpno = some c' → LiveFrom steps (p.startOpno + 1) c'
  cells : ∀ j c', p.startOpno < j → j < p.elseEndOpno → resAt steps j = some c' → c' = c ∨ ¬ LiveFrom steps p.elseEndOpno c'
  flags : ∀ j op n, p.startOpno < j → j < p.elseEndOpno → opAt steps j = some op → op.anynull? = some n →
    ¬ FlagFrom steps p.elseEndOpno n
  columns : ∀ j op, p.startOpno < j → j < p.elseEndOpno → opAt steps j = some op → op.column? = none

section

variable {α β : Type} [LinearOrder α] [LinearOrder β] (F : FloatFormats α β) (T : PgText) (fns : CaseFuncs G)

/-- A pattern that can be replaced: its call gives what its steps give, for the values that come up, and its steps are by themselves. -/
structure CasePattern.Replaceable (env : ExprEnv G) (m s₀ : EvalState) (c : Cell) (isValue : Datum → Prop) (p : CasePattern) :
    Prop where
  result : resAt steps p.endOpno = some c
  agrees : p.Agrees F T env steps m c isValue
  values : ∀ s v, ComesTo steps env s₀ p.startOpno s → (opAt steps p.startOpno).bind (EvalOp.loaded env s) = some ⟨v, false⟩ →
    isValue v
  byItself : p.ByItself steps c

/-- A simple pattern that can be replaced: its steps are as the executor compiles them, each branch compares the variable with a constant
of its type, and they are by themselves. -/
structure CasePattern.SimpleReplaceable (addr : CmpType → CaseCmp → Nat) (env : ExprEnv G) (m s₀ : EvalState) (c : Cell)
    (p : CasePattern) : Prop where
  compiled : CompiledSimple steps c p
  compares : p.ComparesVariables fns steps
  typed : ∀ s v, ComesTo steps env s₀ p.startOpno s → (opAt steps p.startOpno).bind (EvalOp.loaded env s) = some ⟨v, false⟩ →
    p.Typed fns addr steps m v
  byItself : p.ByItself steps c

/-- A range pattern that can be replaced: its steps are as the executor compiles them, each WHEN is true in a range of numbers of its
type, and they are by themselves. -/
structure CasePattern.RangeReplaceable (addr : CmpType → CaseCmp → Nat) (env : ExprEnv G) (m s₀ : EvalState) (c : Cell)
    (p : CasePattern) : Prop where
  compiled : CompiledRange steps c p
  ranges : p.IsRanges fns steps m c
  typed : ∀ s v, ComesTo steps env s₀ p.startOpno s → (opAt steps p.startOpno).bind (EvalOp.loaded env s) = some ⟨v, false⟩ →
    p.TypedRange fns addr steps m v
  byItself : p.ByItself steps c

/-- The code runs on what it was compiled for: where null flags lie, the steps with the descriptors of the patterns, and the helpers. -/
structure ExprTarget.RunsOn (cfg : CompileConfig G) (desc : Nat → Datum) (m : EvalState) (t : ExprTarget G) : Prop where
  paired : cfg.paired = t.paired
  stored : t.steps = caseBsearchPreScan F T fns desc steps m
  found : t.patterns = detectCaseBsearch F T fns steps m
  helpers : ∀ p v, t.helper p v = p.helperResult F T v

end

end Asked

/-- The memory holds what the interpreter starts from. -/
structure Mach.Holds {G : Type} (m : Mach G) (env : ExprEnv G) (s : EvalState) : Prop where
  cells : ∀ c, (s.cells c).In (m.words (.value c)) (m.bytes (.isnull c))
  result : ∀ k, (s.result k).In (m.words (.result k)) (m.bytes (.resultIsnull k))
  anynull : ∀ n, m.bytes (.anynull n) = boolByte (s.anynull n)
  slots : ∀ src k, m.words (.slotValue src k) = (env.slot src k).value ∧
    m.bytes (.slotIsnull src k) = boolByte (env.slot src k).isnull
  caseValue : m.words .caseValue = env.caseValue.value ∧ m.bytes .caseIsnull = boolByte env.caseValue.isnull

/-- What the code returns, in `R0` and in `isNull`, and the columns of the result are those of the interpreter. -/
structure Mach.Returns {G : Type} (m : Mach G) (s : EvalState) : Prop where
  isNull : m.bytes .isNull = boolByte (s.cells .state).isnull
  value : (s.cells .state).isnull = false → m.regs 0 = .datum (s.cells .state).value
  result : ∀ k, (s.result k).In (m.words (.result k)) (m.bytes (.resultIsnull k))

end PgJitter
