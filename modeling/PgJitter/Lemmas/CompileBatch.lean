import PgJitter.Lemmas.CompileSteps

/-!
# Helpers for `CompileExpr.lean`: batches of columns

The code of a batch goes over its steps twice, for the values and for the null flags; the interpreter takes one step after another. Values
and null flags are memory of their own, so that both come to the same.
-/

namespace PgJitter
namespace CompileExprAux

open Assembly Backpatch

variable {G : Type} {t : ExprTarget G} {cfg : CompileConfig G} {live : Cell → Prop} {flags : Nat → Prop} {m : Mach G} {s : EvalState}
  {opno next : Nat} {src : VarSource}

/-! ## Phases -/

theorem base_setReg {b : BaseReg} {k : Nat} (hb : b ≠ .r k) (w : RegWord G) : (m.setReg k w).base b = m.base b := by
  cases b with
  | s s => rfl
  | r j =>
    have hne : j ≠ k := fun heq => hb (congrArg BaseReg.r heq)
    simp only [Mach.base, regs_setReg, if_neg hne]

theorem base_setWord (m : Mach G) (p : WordPlace) (d : Datum) (b : BaseReg) : (m.setWord p d).base b = m.base b := by
  cases b <;> rfl

theorem base_setByte (m : Mach G) (p : BytePlace) (n : BitVec 8) (b : BaseReg) : (m.setByte p n).base b = m.base b := by
  cases b <;> rfl

theorem base_viaR1 {b : BaseReg} (hb : b ≠ .r 1) (c : Cell) (p : Ptr) : (viaR1 m c p).base b = m.base b := by
  rw [viaR1]
  split
  · rfl
  · exact base_setReg hb _

/-- One instruction list after another, over a list of steps, each with the base register at hand. -/
theorem phase_run {E : Nat → List (Instr G)} {W : Nat → (WordPlace → Datum) → WordPlace → Datum}
    {B : Nat → (BytePlace → BitVec 8) → BytePlace → BitVec 8} {b : BaseReg} {p : Ptr} {js : List Nat}
    (h : ∀ j ∈ js, ∀ m : Mach G, m.base b = some p → ∃ m', execOps (Instr.exec t) (E j) m = some m' ∧ m'.words = W j m.words ∧
      m'.bytes = B j m.bytes ∧ m'.base b = some p) (hb : m.base b = some p) :
    ∃ m', execOps (Instr.exec t) (js.flatMap E) m = some m' ∧ m'.words = js.foldl (fun w j => W j w) m.words ∧
      m'.bytes = js.foldl (fun n j => B j n) m.bytes := by
  induction js generalizing m with
  | nil => exact ⟨m, rfl, rfl, rfl⟩
  | cons j js ih =>
    obtain ⟨m₁, hrun₁, hw₁, hb₁, hbase⟩ := h j List.mem_cons_self m hb
    obtain ⟨m₂, hrun₂, hw₂, hb₂⟩ := ih (fun j' hj' => h j' (List.mem_cons_of_mem j hj')) hbase
    exact ⟨m₂, execOps_trans hrun₁ hrun₂, by rw [hw₂, hw₁]; rfl, by rw [hb₂, hb₁]; rfl⟩

/-- The values of a slot are at their base register. -/
theorem slotValues_run (cfg : CompileConfig G) (m : Mach G) (src : VarSource) :
    ∃ m', execOps (Instr.exec t) (emitSlotValues cfg src).1 m = some m' ∧ m'.words = m.words ∧ m'.bytes = m.bytes ∧
      (∀ k, k ≠ 0 → m'.regs k = m.regs k) ∧ m'.base (emitSlotValues cfg src).2 = some (.values src 0) := by
  rw [emitSlotValues]
  cases cfg.slotAccess src with
  | saved => exact ⟨m, rfl, rfl, rfl, fun _ _ => rfl, rfl⟩
  | stack => exact ⟨m.setReg 0 (.ptr (.values src 0)), rfl, rfl, rfl, fun k hk => by rw [regs_setReg, if_neg hk], rfl⟩
  | econtext =>
    have hload : Instr.exec t (.load 0 (.r 0) .ttsValues) (m.setReg 0 (.ptr (.slot src))) =
        .next ((m.setReg 0 (.ptr (.slot src))).setReg 0 (.ptr (.values src 0))) := exec_loadPtr (base_r rfl) rfl
    refine ⟨_, (execOps_cons rfl _).trans (execOps_cons hload _), rfl, rfl, fun k hk => ?_, rfl⟩
    rw [regs_setReg, if_neg hk, regs_setReg, if_neg hk]

/-- The null flags of a slot are at their base register. -/
theorem slotIsnulls_run (cfg : CompileConfig G) (m : Mach G) (src : VarSource) :
    ∃ m', execOps (Instr.exec t) (emitSlotIsnulls cfg src).1 m = some m' ∧ m'.words = m.words ∧ m'.bytes = m.bytes ∧
      (∀ k, k ≠ 0 → m'.regs k = m.regs k) ∧ m'.base (emitSlotIsnulls cfg src).2 = some (.isnulls src 0) := by
  rw [emitSlotIsnulls]
  cases cfg.slotAccess src with
  | saved => exact ⟨m, rfl, rfl, rfl, fun _ _ => rfl, rfl⟩
  | stack => exact ⟨m.setReg 0 (.ptr (.isnulls src 0)), rfl, rfl, rfl, fun k hk => by rw [regs_setReg, if_neg hk], rfl⟩
  | econtext =>
    have hload : Instr.exec t (.load 0 (.r 0) .ttsIsnull) (m.setReg 0 (.ptr (.slot src))) =
        .next ((m.setReg 0 (.ptr (.slot src))).setReg 0 (.ptr (.isnulls src 0))) := exec_loadPtr (base_r rfl) rfl
    refine ⟨_, (execOps_cons rfl _).trans (execOps_cons hload _), rfl, rfl, fun k hk => ?_, rfl⟩
    rw [regs_setReg, if_neg hk, regs_setReg, if_neg hk]

/-- The base registers of a slot's columns are `R0` or saved. -/
theorem slotValues_ne (cfg : CompileConfig G) (src : VarSource) {k : Nat} (hk : k ≠ 0) : (emitSlotValues cfg src).2 ≠ .r k := by
  rw [emitSlotValues]
  cases cfg.slotAccess src with
  | saved => exact fun h => by cases h
  | stack => exact fun h => hk (BaseReg.r.inj h).symm
  | econtext => exact fun h => hk (BaseReg.r.inj h).symm

theorem slotIsnulls_ne (cfg : CompileConfig G) (src : VarSource) {k : Nat} (hk : k ≠ 0) : (emitSlotIsnulls cfg src).2 ≠ .r k := by
  rw [emitSlotIsnulls]
  cases cfg.slotAccess src with
  | saved => exact fun h => by cases h
  | stack => exact fun h => hk (BaseReg.r.inj h).symm
  | econtext => exact fun h => hk (BaseReg.r.inj h).symm

theorem exec_loadValue {b : BaseReg} (hb : m.base b = some (.values src 0)) (dst attnum : Nat) :
    Instr.exec t (.load dst b (.elem attnum)) m = .next (m.setReg dst (.datum (m.words (.slotValue src attnum)))) :=
  exec_load hb rfl (by rw [Ptr.wordPlace, Nat.zero_add])

theorem exec_loadIsnull {b : BaseReg} (hb : m.base b = some (.isnulls src 0)) (dst attnum : Nat) :
    Instr.exec t (.loadU8 dst b (.elem attnum)) m =
      .next (m.setReg dst (.datum ((m.bytes (.slotIsnull src attnum)).setWidth 64))) :=
  exec_loadU8 hb (by rw [Ptr.bytePlace, Nat.zero_add])

/-! ## VAR -/

/-- The steps are VAR steps of one slot: their columns and their locations. -/
def VarsAt (steps : List (ExprEvalStep G)) (src : VarSource) (col : Nat → Nat) (cell : Nat → Cell) (js : List Nat) : Prop :=
  ∀ j ∈ js, steps[j]? = some ⟨.var src (col j), cell j⟩

section Var

variable {col : Nat → Nat} {cell : Nat → Cell} {js : List Nat}

/-- What the interpreter does at some VAR steps. -/
def varState (env : ExprEnv G) (src : VarSource) (col : Nat → Nat) (cell : Nat → Cell) (js : List Nat) (s : EvalState) : EvalState :=
  js.foldl (fun s j => s.store (cell j) (env.slot src (col j))) s

/-- The value of one column. -/
theorem varValue_run {b : BaseReg} (hb₁ : b ≠ .r 1) (hb₂ : b ≠ .r 2) {j : Nat} (hj : t.steps[j]? = some ⟨.var src (col j), cell j⟩)
    (hbase : m.base b = some (.values src 0)) :
    ∃ m', execOps (Instr.exec t) (emitVarValue t.steps b j) m = some m' ∧
      m'.words = Function.update m.words (.value (cell j)) (m.words (.slotValue src (col j))) ∧ m'.bytes = m.bytes ∧
      m'.base b = some (.values src 0) := by
  have hload := exec_loadValue (t := t) hbase 2 (col j)
  have hrun := run_storeResvalue (x := .reg 2) (m := m.setReg 2 (.datum (m.words (.slotValue src (col j))))) hj (by decide : (2 : Nat) ≠ 1)
    (operand_reg (by rw [regs_setReg, if_pos rfl]))
  rw [emitVarValue, hj]
  refine ⟨_, (execOps_cons hload _).trans hrun, ?_, ?_, ?_⟩
  · rw [words_setWord, words_viaR1, words_setReg]
  · rw [bytes_setWord, bytes_viaR1, bytes_setReg]
  · rw [base_setWord, base_viaR1 hb₁, base_setReg hb₂, hbase]

/-- The null flag of one column. -/
theorem varIsnull_run {b : BaseReg} (hb₁ : b ≠ .r 1) (hb₂ : b ≠ .r 2) {j : Nat} (hj : t.steps[j]? = some ⟨.var src (col j), cell j⟩)
    (hbase : m.base b = some (.isnulls src 0)) :
    ∃ m', execOps (Instr.exec t) (emitVarIsnull t.steps b j) m = some m' ∧ m'.words = m.words ∧
      m'.bytes = Function.update m.bytes (.isnull (cell j)) (m.bytes (.slotIsnull src (col j))) ∧
      m'.base b = some (.isnulls src 0) := by
  have hload := exec_loadIsnull (t := t) hbase 2 (col j)
  have hrun := run_storeResnull (x := .reg 2) (m := m.setReg 2 (.datum ((m.bytes (.slotIsnull src (col j))).setWidth 64))) hj
    (by decide : (2 : Nat) ≠ 1) (operand_reg (by rw [regs_setReg, if_pos rfl]))
  rw [emitVarIsnull, hj]
  refine ⟨_, (execOps_cons hload _).trans hrun, ?_, ?_, ?_⟩
  · rw [words_setByte, words_viaR1, words_setReg]
  · rw [bytes_setByte, bytes_viaR1, bytes_setReg, BitVec.setWidth_setWidth_of_le _ (by decide), BitVec.setWidth_eq]
  · rw [base_setByte, base_viaR1 hb₁, base_setReg hb₂, hbase]

/-- The memory after both phases is that of the interpreter after all steps. -/
theorem varState_sim {m' : Mach G} (hsim : Sim t.env live flags m s)
    (hw : m'.words = js.foldl (fun w j => Function.update w (.value (cell j)) (w (.slotValue src (col j)))) m.words)
    (hb : m'.bytes = js.foldl (fun n j => Function.update n (.isnull (cell j)) (n (.slotIsnull src (col j)))) m.bytes) :
    Sim t.env live flags m' (varState t.env src col cell js s) := by
  induction js generalizing m s with
  | nil => exact hsim.congr hw hb
  | cons j js ih =>
    obtain ⟨hvalue, hisnull⟩ := hsim.slots src (col j)
    have hfirst : Sim t.env live flags ((m.setWord (.value (cell j)) (m.words (.slotValue src (col j)))).setByte (.isnull (cell j))
        (m.bytes (.slotIsnull src (col j)))) (s.store (cell j) (t.env.slot src (col j))) :=
      hsim.store rfl rfl ⟨hisnull, fun _ => hvalue⟩
    exact ih hfirst hw hb

/-- A batch of VAR steps. -/
theorem varBatch_run (cfg : CompileConfig G) (hsim : Sim t.env live flags m s)
    (hjs : VarsAt t.steps src col cell (List.range' opno (next - opno))) :
    ∃ m', execOps (Instr.exec t) (emitVarBatch cfg t.steps src opno next) m = some m' ∧
      Sim t.env live flags m' (varState t.env src col cell (List.range' opno (next - opno)) s) := by
  obtain ⟨m₁, hrun₁, hw₁, hb₁, -, hbase₁⟩ := slotValues_run (t := t) cfg m src
  obtain ⟨m₂, hrun₂, hw₂, hb₂⟩ := phase_run (t := t) (E := emitVarValue t.steps (emitSlotValues cfg src).2)
    (W := fun j w => Function.update w (.value (cell j)) (w (.slotValue src (col j)))) (B := fun _ n => n)
    (fun j hj m hb => varValue_run (slotValues_ne cfg src Nat.one_ne_zero) (slotValues_ne cfg src (Nat.succ_ne_zero 1)) (hjs j hj) hb)
      hbase₁
  obtain ⟨m₃, hrun₃, hw₃, hb₃, -, hbase₃⟩ := slotIsnulls_run (t := t) cfg m₂ src
  obtain ⟨m₄, hrun₄, hw₄, hb₄⟩ := phase_run (t := t) (E := emitVarIsnull t.steps (emitSlotIsnulls cfg src).2) (W := fun _ w => w)
    (B := fun j n => Function.update n (.isnull (cell j)) (n (.slotIsnull src (col j))))
    (fun j hj m hb => varIsnull_run (slotIsnulls_ne cfg src Nat.one_ne_zero) (slotIsnulls_ne cfg src (Nat.succ_ne_zero 1)) (hjs j hj) hb)
      hbase₃
  rw [List.foldl_fixed] at hb₂ hw₄
  refine ⟨m₄, execOps_trans (execOps_trans (execOps_trans hrun₁ hrun₂) hrun₃) hrun₄, varState_sim hsim ?_ ?_⟩
  · rw [hw₄, hw₃, hw₂, hw₁]
  · rw [hb₄, hb₃, hb₂, hb₁]

/-- A VAR step alone, into one `NullableDatum`. -/
theorem varPaired_run (cfg : CompileConfig G) (hsim : Sim t.env live flags m s) {attnum : Nat} {c : Cell} (hpaired : t.paired c = true)
    (hstep : t.steps[opno]? = some ⟨.var src attnum, c⟩) :
    ∃ m', execOps (Instr.exec t) (emitVarPaired cfg src attnum opno) m = some m' ∧
      Sim t.env live flags m' (s.store c (t.env.slot src attnum)) := by
  obtain ⟨m₁, hrun₁, hw₁, hb₁, -, hbase₁⟩ := slotValues_run (t := t) cfg m src
  have hrun₂ : execOps (Instr.exec t) [.load 2 (emitSlotValues cfg src).2 (.elem attnum), .stepField 1 opno .resvalue,
      .store (.r 1) .here (.reg 2)] m₁ =
        some (((m₁.setReg 2 (.datum (m₁.words (.slotValue src attnum)))).setReg 1 (.ptr (.resvalue c))).setWord
        (.value c) (m₁.words (.slotValue src attnum))) := by
    have hreg : ((m₁.setReg 2 (.datum (m₁.words (.slotValue src attnum)))).setReg 1 (.ptr (.resvalue c))).regs 2 =
        .datum (m₁.words (.slotValue src attnum)) := by rw [regs_setReg, if_neg (by decide), regs_setReg, if_pos rfl]
    rw [execOps_cons (exec_loadValue hbase₁ 2 attnum), execOps_cons (exec_stepField hstep _)]
    exact execOps_cons (exec_store (base_r (p := .resvalue c) (by rw [regs_setReg, if_pos rfl])) rfl (operand_reg hreg)) _
  generalize hm₂ : ((m₁.setReg 2 (.datum (m₁.words (.slotValue src attnum)))).setReg 1 (.ptr (.resvalue c))).setWord
    (.value c) (m₁.words (.slotValue src attnum)) = m₂ at hrun₂
  have hone : m₂.regs 1 = .ptr (.resvalue c) := by rw [← hm₂, regs_setWord, regs_setReg, if_pos rfl]
  obtain ⟨m₃, hrun₃, hw₃, hb₃, hkept, hbase₃⟩ := slotIsnulls_run (t := t) cfg m₂ src
  have hrun₄ : execOps (Instr.exec t) [.loadU8 2 (emitSlotIsnulls cfg src).2 (.elem attnum), .storeU8 (.r 1) .paired (.reg 2)] m₃ =
      some ((m₃.setReg 2 (.datum ((m₃.bytes (.slotIsnull src attnum)).setWidth 64))).setByte (.isnull c)
        (((m₃.bytes (.slotIsnull src attnum)).setWidth 64).setWidth 8)) := by
    have hptr : (m₃.setReg 2 (.datum ((m₃.bytes (.slotIsnull src attnum)).setWidth 64))).regs 1 = .ptr (.resvalue c) := by
      rw [regs_setReg, if_neg (by decide), hkept 1 Nat.one_ne_zero, hone]
    have hplace : (Ptr.resvalue c).bytePlace t.paired .paired = some (.isnull c) := by rw [Ptr.bytePlace, if_pos hpaired]
    rw [execOps_cons (exec_loadIsnull hbase₃ 2 attnum)]
    exact execOps_cons (exec_storeU8 (base_r hptr) hplace (operand_reg (by rw [regs_setReg, if_pos rfl]))) _
  obtain ⟨hvalue, hisnull⟩ := hsim.slots src attnum
  have hw₂ : m₂.words = Function.update m₁.words (.value c) (m₁.words (.slotValue src attnum)) := by rw [← hm₂]; rfl
  have hb₂ : m₂.bytes = m₁.bytes := by rw [← hm₂]; rfl
  refine ⟨_, execOps_trans (execOps_trans (execOps_trans hrun₁ hrun₂) hrun₃) hrun₄,
    hsim.store (v := m.words (.slotValue src attnum)) (n := m.bytes (.slotIsnull src attnum)) ?_ ?_ ⟨hisnull, fun _ => hvalue⟩⟩
  · rw [words_setByte, words_setReg, hw₃, hw₂, hw₁]
  · rw [bytes_setByte, bytes_setReg, hb₃, hb₂, hb₁, BitVec.setWidth_setWidth_of_le _ (by decide), BitVec.setWidth_eq]

/-- VAR steps of one slot. -/
theorem var_arrives (hpaired : cfg.paired = t.paired) (hsim : Sim t.env live flags m s)
    (hjs : VarsAt t.steps src col cell (List.range' opno (next - opno))) :
    Arrives t live flags next (runItems (Instr.exec t) (.running m) (ops (emitVar cfg t.steps src (col opno) (cell opno) opno next))) next
      (varState t.env src col cell (List.range' opno (next - opno)) s) := by
  rw [emitVar]
  split
  · rename_i hone
    have hfirst := hjs opno (List.mem_range'_1.2 ⟨Nat.le_refl _, by omega⟩)
    obtain ⟨m', hrun, hsim'⟩ := varPaired_run cfg hsim (hpaired ▸ hone.2.1) hfirst
    rw [hone.1]
    exact arrives_ops hrun hsim'
  · obtain ⟨m', hrun, hsim'⟩ := varBatch_run cfg hsim hjs
    exact arrives_ops hrun hsim'

end Var

/-! ## ASSIGN_VAR -/

/-- The steps are ASSIGN_VAR steps of one slot: the columns that are read and the columns that are written. -/
def AssignsAt (steps : List (ExprEvalStep G)) (src : VarSource) (col res : Nat → Nat) (js : List Nat) : Prop :=
  ∀ j ∈ js, opAt steps j = some (.assignVar src (col j) (res j))

section Assign

variable {col res : Nat → Nat} {js : List Nat}

/-- What the interpreter does at some ASSIGN_VAR steps. -/
def assignState (env : ExprEnv G) (src : VarSource) (col res : Nat → Nat) (js : List Nat) (s : EvalState) : EvalState :=
  js.foldl (fun s j => s.assign (res j) (env.slot src (col j))) s

theorem AssignsAt.assignVarAt {steps : List (ExprEvalStep G)} (h : AssignsAt steps src col res js) {j : Nat} (hj : j ∈ js) :
    PgJitter.assignVarAt steps j = some (col j, res j) := by
  rw [PgJitter.assignVarAt, h j hj]

/-- The value of one column. -/
theorem assignValue_run {b : BaseReg} (hb₂ : b ≠ .r 2) {j : Nat} (hj : assignVarAt t.steps j = some (col j, res j))
    (hbase : m.base b = some (.values src 0)) :
    ∃ m', execOps (Instr.exec t) (emitAssignValue t.steps b j) m = some m' ∧
      m'.words = Function.update m.words (.result (res j)) (m.words (.slotValue src (col j))) ∧ m'.bytes = m.bytes ∧
      m'.base b = some (.values src 0) := by
  have hload := exec_loadValue (t := t) hbase 2 (col j)
  have hstore : Instr.exec t (.store (.s .resultvals) (.elem (res j)) (.reg 2)) (m.setReg 2 (.datum (m.words (.slotValue src (col j))))) =
      .next ((m.setReg 2 (.datum (m.words (.slotValue src (col j))))).setWord (.result (res j)) (m.words (.slotValue src (col j)))) :=
    exec_store (base_s _ .resultvals) (wordPlace_resultvals (res j)) (operand_reg (by rw [regs_setReg, if_pos rfl]))
  rw [emitAssignValue, hj]
  refine ⟨_, (execOps_cons hload _).trans (execOps_cons hstore _), rfl, rfl, ?_⟩
  rw [base_setWord, base_setReg hb₂, hbase]

/-- The null flag of one column. -/
theorem assignIsnull_run {b : BaseReg} (hb₂ : b ≠ .r 2) {j : Nat} (hj : assignVarAt t.steps j = some (col j, res j))
    (hbase : m.base b = some (.isnulls src 0)) :
    ∃ m', execOps (Instr.exec t) (emitAssignIsnull t.steps b j) m = some m' ∧ m'.words = m.words ∧
      m'.bytes = Function.update m.bytes (.resultIsnull (res j)) (m.bytes (.slotIsnull src (col j))) ∧
      m'.base b = some (.isnulls src 0) := by
  have hload := exec_loadIsnull (t := t) hbase 2 (col j)
  have hstore : Instr.exec t (.storeU8 (.s .resultnulls) (.elem (res j)) (.reg 2))
        (m.setReg 2 (.datum ((m.bytes (.slotIsnull src (col j))).setWidth 64))) =
      .next ((m.setReg 2 (.datum ((m.bytes (.slotIsnull src (col j))).setWidth 64))).setByte (.resultIsnull (res j))
        (((m.bytes (.slotIsnull src (col j))).setWidth 64).setWidth 8)) :=
    exec_storeU8 (base_s _ .resultnulls) (bytePlace_resultnulls t.paired (res j)) (operand_reg (by rw [regs_setReg, if_pos rfl]))
  rw [emitAssignIsnull, hj]
  refine ⟨_, (execOps_cons hload _).trans (execOps_cons hstore _), rfl, ?_, ?_⟩
  · rw [bytes_setByte, bytes_setReg, BitVec.setWidth_setWidth_of_le _ (by decide), BitVec.setWidth_eq]
  · rw [base_setByte, base_setReg hb₂, hbase]

/-- The memory after both phases is that of the interpreter after all steps. -/
theorem assignState_sim {m' : Mach G} (hsim : Sim t.env live flags m s)
    (hw : m'.words = js.foldl (fun w j => Function.update w (.result (res j)) (w (.slotValue src (col j)))) m.words)
    (hb : m'.bytes = js.foldl (fun n j => Function.update n (.resultIsnull (res j)) (n (.slotIsnull src (col j)))) m.bytes) :
    Sim t.env live flags m' (assignState t.env src col res js s) := by
  induction js generalizing m s with
  | nil => exact hsim.congr hw hb
  | cons j js ih =>
    obtain ⟨hvalue, hisnull⟩ := hsim.slots src (col j)
    have hfirst : Sim t.env live flags ((m.setWord (.result (res j)) (m.words (.slotValue src (col j)))).setByte (.resultIsnull (res j))
        (m.bytes (.slotIsnull src (col j)))) (s.assign (res j) (t.env.slot src (col j))) :=
      hsim.assign rfl rfl ⟨hisnull, fun _ => hvalue⟩
    exact ih hfirst hw hb

/-- A batch of ASSIGN_VAR steps, one after another. -/
theorem assignBatch_run (cfg : CompileConfig G) (hsim : Sim t.env live flags m s)
    (hjs : AssignsAt t.steps src col res (List.range' opno (next - opno))) :
    ∃ m', execOps (Instr.exec t) (emitAssignBatch cfg t.steps src opno next) m = some m' ∧
      Sim t.env live flags m' (assignState t.env src col res (List.range' opno (next - opno)) s) := by
  obtain ⟨m₁, hrun₁, hw₁, hb₁, -, hbase₁⟩ := slotValues_run (t := t) cfg m src
  obtain ⟨m₂, hrun₂, hw₂, hb₂⟩ := phase_run (t := t) (E := emitAssignValue t.steps (emitSlotValues cfg src).2)
    (W := fun j w => Function.update w (.result (res j)) (w (.slotValue src (col j)))) (B := fun _ n => n)
    (fun j hj m hb => assignValue_run (slotValues_ne cfg src (Nat.succ_ne_zero 1)) (hjs.assignVarAt hj) hb) hbase₁
  obtain ⟨m₃, hrun₃, hw₃, hb₃, -, hbase₃⟩ := slotIsnulls_run (t := t) cfg m₂ src
  obtain ⟨m₄, hrun₄, hw₄, hb₄⟩ := phase_run (t := t) (E := emitAssignIsnull t.steps (emitSlotIsnulls cfg src).2) (W := fun _ w => w)
    (B := fun j n => Function.update n (.resultIsnull (res j)) (n (.slotIsnull src (col j))))
    (fun j hj m hb => assignIsnull_run (slotIsnulls_ne cfg src (Nat.succ_ne_zero 1)) (hjs.assignVarAt hj) hb) hbase₃
  rw [List.foldl_fixed] at hb₂ hw₄
  refine ⟨m₄, execOps_trans (execOps_trans (execOps_trans hrun₁ hrun₂) hrun₃) hrun₄, assignState_sim hsim ?_ ?_⟩
  · rw [hw₄, hw₃, hw₂, hw₁]
  · rw [hb₄, hb₃, hb₂, hb₁]

end Assign

/-! ## Loops -/

/-- The body of a counted loop, which goes back to its mark. -/
def loopBody (mark : Nat) (copy : List (Instr G)) : List (Item (Instr G)) :=
  ops (copy ++ [.addElems 0 (.r 0) 1, .addElems 1 (.r 1) 1, .subSetZ 3 1]) ++ [.jumpTo .jumpNotZero mark]

/-- Code that copies one element from what `R0` points to, to what `R1` points to. -/
def Copies (t : ExprTarget G) (copy : List (Instr G)) (src dst : Nat → Ptr) (W : Nat → (WordPlace → Datum) → WordPlace → Datum)
    (B : Nat → (BytePlace → BitVec 8) → BytePlace → BitVec 8) : Prop :=
  ∀ j (m : Mach G), m.regs 0 = .ptr (src j) → m.regs 1 = .ptr (dst j) → ∃ m', execOps (Instr.exec t) copy m = some m' ∧
    m'.words = W j m.words ∧ m'.bytes = B j m.bytes ∧ m'.regs 0 = .ptr (src j) ∧ m'.regs 1 = .ptr (dst j) ∧ m'.regs 3 = m.regs 3

section Loop

variable {P : Program (Instr G)} {labels : Nat → Option Nat} {loc : Nat → Nat} {mark : Nat} {copy : List (Instr G)} {src dst : Nat → Ptr}
  {W : Nat → (WordPlace → Datum) → WordPlace → Datum} {B : Nat → (BytePlace → BitVec 8) → BytePlace → BitVec 8}
  (hcopy : Copies t copy src dst W B) (hsrc : ∀ j, (src j).advance 1 = some (src (j + 1)))
  (hdst : ∀ j, (dst j).advance 1 = some (dst (j + 1)))

include hcopy hsrc hdst

/-- One turn of a loop: it copies an element, and goes back to the mark but for the last turn. -/
theorem loopBody_run (mark : Nat) {k j : Nat} (hk : k + 1 < 2 ^ 64) (h0 : m.regs 0 = .ptr (src j)) (h1 : m.regs 1 = .ptr (dst j))
    (h3 : m.regs 3 = .datum (BitVec.ofNat 64 (k + 1))) :
    ∃ m', runItems (Instr.exec t) (.running m) (loopBody mark copy) = (if k = 0 then .running m' else .skipping mark m') ∧
      m'.words = W j m.words ∧ m'.bytes = B j m.bytes ∧ m'.regs 0 = .ptr (src (j + 1)) ∧ m'.regs 1 = .ptr (dst (j + 1)) ∧
      m'.regs 3 = .datum (BitVec.ofNat 64 k) := by
  obtain ⟨m₁, hrun₁, hw₁, hb₁, h0₁, h1₁, h3₁⟩ := hcopy j m h0 h1
  have hsub : BitVec.ofNat 64 (k + 1) - 1 = BitVec.ofNat 64 k := by
    rw [BitVec.ofNat_add]
    exact BitVec.add_sub_cancel _ _
  have hzero : (BitVec.ofNat 64 k == 0) = decide (k = 0) := by
    rw [Bool.eq_iff_iff, beq_iff_eq, decide_eq_true_iff, ← BitVec.toNat_inj, BitVec.toNat_ofNat, Nat.mod_eq_of_lt (by omega)]
    rfl
  have hinc₀ : Instr.exec t (.addElems 0 (.r 0) 1) m₁ = .next (m₁.setReg 0 (.ptr (src (j + 1)))) := exec_addElems (base_r h0₁) (hsrc j)
  have hinc₁ : Instr.exec t (.addElems 1 (.r 1) 1) (m₁.setReg 0 (.ptr (src (j + 1)))) =
      .next ((m₁.setReg 0 (.ptr (src (j + 1)))).setReg 1 (.ptr (dst (j + 1)))) :=
    exec_addElems (base_r (by rw [regs_setReg, if_neg (by decide), h1₁])) (hdst j)
  have hdec : Instr.exec t (.subSetZ 3 1) ((m₁.setReg 0 (.ptr (src (j + 1)))).setReg 1 (.ptr (dst (j + 1)))) =
      .next { ((m₁.setReg 0 (.ptr (src (j + 1)))).setReg 1 (.ptr (dst (j + 1)))).setReg 3 (.datum (BitVec.ofNat 64 k)) with
        zero := decide (k = 0) } := by
    have hreg : ((m₁.setReg 0 (.ptr (src (j + 1)))).setReg 1 (.ptr (dst (j + 1)))).regs 3 = .datum (BitVec.ofNat 64 (k + 1)) := by
      rw [regs_setReg, if_neg (by decide), regs_setReg, if_neg (by decide), h3₁, h3]
    simp only [Instr.exec, datum_reg hreg, Option.map_some, nextOf, hsub, hzero]
  have hrun := execOps_trans hrun₁ ((execOps_cons hinc₀ _).trans ((execOps_cons hinc₁ _).trans (execOps_cons hdec [])))
  refine ⟨{ ((m₁.setReg 0 (.ptr (src (j + 1)))).setReg 1 (.ptr (dst (j + 1)))).setReg 3 (.datum (BitVec.ofNat 64 k)) with
    zero := decide (k = 0) }, ?_, hw₁, hb₁, rfl, rfl, rfl⟩
  rw [loopBody, runItems_append, runItems_ops hrun, runItems_cons, runItems_nil]
  split
  · rename_i hk0
    exact item_jumpTo_next (by simp only [Instr.exec, hk0, jumpWhen, decide_true, Bool.not_true, Bool.false_eq_true, if_false])
  · rename_i hk0
    exact item_jumpTo_jump (by simp only [Instr.exec, hk0, jumpWhen, decide_false, Bool.not_false, if_true])

/-- All turns of a loop. -/
theorem loop_runs (hat : At P labels loc (loc mark) (loopBody mark copy)) {k j : Nat} (hk : k + 1 < 2 ^ 64)
    (h0 : m.regs 0 = .ptr (src j)) (h1 : m.regs 1 = .ptr (dst j)) (h3 : m.regs 3 = .datum (BitVec.ofNat 64 (k + 1))) :
    ∃ m', Runs (Instr.exec t) P (loc mark, m) (loc mark + size (loopBody (G := G) mark copy), m') ∧
      m'.words = (List.range' j (k + 1)).foldl (fun w j => W j w) m.words ∧
      m'.bytes = (List.range' j (k + 1)).foldl (fun n j => B j n) m.bytes := by
  induction k generalizing j m with
  | zero =>
    obtain ⟨m₁, hrun, hw, hb, -⟩ := loopBody_run hcopy hsrc hdst mark hk h0 h1 h3
    exact ⟨m₁, runs_through hat hrun, hw, hb⟩
  | succ k ih =>
    obtain ⟨m₁, hrun, hw, hb, h0₁, h1₁, h3₁⟩ := loopBody_run hcopy hsrc hdst mark hk h0 h1 h3
    obtain ⟨m₂, hruns, hw₂, hb₂⟩ := ih (by omega) h0₁ h1₁ h3₁
    refine ⟨m₂, (runs_back hat hrun).trans hruns, ?_, ?_⟩
    · rw [hw₂, hw]
      rfl
    · rw [hb₂, hb]
      rfl

/-- A counted loop. -/
theorem copyLoop_runs {pos count : Nat} (hat : At P labels loc pos (emitCopyLoop count mark copy)) (hcount : 0 < count)
    (hlt : count < 2 ^ 64) {j : Nat} (h0 : m.regs 0 = .ptr (src j)) (h1 : m.regs 1 = .ptr (dst j)) :
    ∃ m', Runs (Instr.exec t) P (pos, m) (pos + size (emitCopyLoop (G := G) count mark copy), m') ∧
      m'.words = (List.range' j count).foldl (fun w j => W j w) m.words ∧
      m'.bytes = (List.range' j count).foldl (fun n j => B j n) m.bytes := by
  obtain ⟨k, rfl⟩ : ∃ k, count = k + 1 := ⟨count - 1, by omega⟩
  obtain ⟨hmov, hloop⟩ := stands_append.1 hat
  obtain ⟨hmark, hbody⟩ : loc mark = pos + 1 ∧ At P labels loc (pos + 1) (loopBody mark copy) := hloop
  have hmovRun : runItems (Instr.exec t) (.running m) (ops [.mov 3 (.imm (BitVec.ofNat 64 (k + 1)))]) =
      .running (m.setReg 3 (.datum (BitVec.ofNat 64 (k + 1)))) := runItems_ops (execOps_cons (exec_movImm 3 _) _)
  have hstart : Runs (Instr.exec t) P (pos, m) (loc mark, m.setReg 3 (.datum (BitVec.ofNat 64 (k + 1)))) := by
    rw [hmark]
    exact runs_through hmov hmovRun
  obtain ⟨m', hruns, hw, hb⟩ := loop_runs hcopy hsrc hdst (m := m.setReg 3 (.datum (BitVec.ofNat 64 (k + 1)))) (hmark ▸ hbody) hlt
    (by rw [regs_setReg, if_neg (by decide), h0]) (by rw [regs_setReg, if_neg (by decide), h1]) (by rw [regs_setReg, if_pos rfl])
  have hend : pos + size (emitCopyLoop (G := G) (k + 1) mark copy) = loc mark + size (loopBody (G := G) mark copy) := by
    rw [hmark, emitCopyLoop, size_append, size_append, loopBody, Nat.add_assoc]
    simp only [ops, List.map_cons, List.map_nil, size_cons, size_nil, Item.size, Nat.zero_add, Nat.add_zero]
  rw [hend]
  exact ⟨m', hstart.trans hruns, hw, hb⟩

end Loop

/-! ## Columns in a row -/

section Row

variable {P : Program (Instr G)} {labels : Nat → Option Nat} {loc : Nat → Nat} {pos att0 res0 count : Nat}

/-- The values of columns in a row. -/
theorem copies_values (src : VarSource) (att0 res0 : Nat) :
    Copies t [.load 2 (.r 0) (.elem 0), .store (.r 1) (.elem 0) (.reg 2)] (fun j => .values src (att0 + j))
      (fun j => .resultvals (res0 + j))
      (fun j w => Function.update w (.result (res0 + j)) (w (.slotValue src (att0 + j)))) (fun _ n => n) := by
  intro j m h0 h1
  have hload : Instr.exec t (.load 2 (.r 0) (.elem 0)) m = .next (m.setReg 2 (.datum (m.words (.slotValue src (att0 + j))))) :=
    exec_load (base_r h0) rfl rfl
  have hstore : Instr.exec t (.store (.r 1) (.elem 0) (.reg 2)) (m.setReg 2 (.datum (m.words (.slotValue src (att0 + j))))) =
      .next ((m.setReg 2 (.datum (m.words (.slotValue src (att0 + j))))).setWord (.result (res0 + j))
        (m.words (.slotValue src (att0 + j)))) :=
    exec_store (base_r (by rw [regs_setReg, if_neg (by decide), h1])) rfl (operand_reg (by rw [regs_setReg, if_pos rfl]))
  refine ⟨_, (execOps_cons hload _).trans (execOps_cons hstore _), rfl, rfl, ?_, ?_, ?_⟩
  · rw [regs_setWord, regs_setReg, if_neg (by decide), h0]
  · rw [regs_setWord, regs_setReg, if_neg (by decide), h1]
  · rw [regs_setWord, regs_setReg, if_neg (by decide)]

/-- The null flags of columns in a row. -/
theorem copies_isnulls (src : VarSource) (att0 res0 : Nat) :
    Copies t [.loadU8 2 (.r 0) (.elem 0), .storeU8 (.r 1) (.elem 0) (.reg 2)] (fun j => .isnulls src (att0 + j))
      (fun j => .resultnulls (res0 + j)) (fun _ w => w)
      (fun j n => Function.update n (.resultIsnull (res0 + j)) (n (.slotIsnull src (att0 + j)))) := by
  intro j m h0 h1
  have hload : Instr.exec t (.loadU8 2 (.r 0) (.elem 0)) m =
      .next (m.setReg 2 (.datum ((m.bytes (.slotIsnull src (att0 + j))).setWidth 64))) := exec_loadU8 (base_r h0) rfl
  have hstore : Instr.exec t (.storeU8 (.r 1) (.elem 0) (.reg 2))
        (m.setReg 2 (.datum ((m.bytes (.slotIsnull src (att0 + j))).setWidth 64))) =
      .next ((m.setReg 2 (.datum ((m.bytes (.slotIsnull src (att0 + j))).setWidth 64))).setByte (.resultIsnull (res0 + j))
        (((m.bytes (.slotIsnull src (att0 + j))).setWidth 64).setWidth 8)) :=
    exec_storeU8 (base_r (by rw [regs_setReg, if_neg (by decide), h1])) rfl (operand_reg (by rw [regs_setReg, if_pos rfl]))
  refine ⟨_, (execOps_cons hload _).trans (execOps_cons hstore _), rfl, ?_, ?_, ?_, ?_⟩
  · rw [bytes_setByte, bytes_setReg, BitVec.setWidth_setWidth_of_le _ (by decide), BitVec.setWidth_eq]
  · rw [regs_setByte, regs_setReg, if_neg (by decide), h0]
  · rw [regs_setByte, regs_setReg, if_neg (by decide), h1]
  · rw [regs_setByte, regs_setReg, if_neg (by decide)]

/-- The addresses of the first columns, in `R0` and in `R1`. -/
theorem rowStart_run {b : BaseReg} {p p' q' : Ptr} {k n : Nat} {s : SavedReg} (hb : m.base b = some p) (hp : p.advance k = some p')
    (hq : s.ptr.advance n = some q') :
    execOps (Instr.exec t) [.addElems 0 b k, .addElems 1 (.s s) n] m = some ((m.setReg 0 (.ptr p')).setReg 1 (.ptr q')) :=
  (execOps_cons (exec_addElems hb hp) _).trans (execOps_cons (exec_addElems (base_s _ s) hq) _)

/-- A batch for columns in a row, by loops. -/
theorem assignLoop_runs (cfg : CompileConfig G) (hsim : Sim t.env live flags m s)
    (hat : At P labels loc pos (emitAssignLoop cfg src att0 res0 count)) (hcount : 0 < count) (hlt : count < 2 ^ 64) :
    ∃ m', Runs (Instr.exec t) P (pos, m) (pos + size (emitAssignLoop cfg src att0 res0 count), m') ∧
      Sim t.env live flags m' (assignState t.env src (att0 + ·) (res0 + ·) (List.range' 0 count) s) := by
  obtain ⟨hat₃, hat₄⟩ := stands_append.1 hat
  obtain ⟨hat₂, hat₃⟩ := stands_append.1 hat₃
  obtain ⟨hat₁, hat₂⟩ := stands_append.1 hat₂
  obtain ⟨m₁, hrun₁, hw₁, hb₁, -, hbase₁⟩ := slotValues_run (t := t) cfg m src
  have hfrom₁ : (Ptr.values src 0).advance att0 = some (.values src (att0 + 0)) := by rw [Ptr.advance, Nat.zero_add, Nat.add_zero]
  have hto₁ : SavedReg.resultvals.ptr.advance res0 = some (.resultvals (res0 + 0)) := by
    rw [SavedReg.ptr, Ptr.advance, Nat.zero_add, Nat.add_zero]
  have hstart₁ := execOps_trans hrun₁ (rowStart_run (t := t) hbase₁ hfrom₁ hto₁)
  obtain ⟨m₂, hruns₂, hw₂, hb₂⟩ := copyLoop_runs (copies_values src att0 res0) (fun _ => rfl) (fun _ => rfl) hat₂ hcount hlt
    (m := (m₁.setReg 0 (.ptr (.values src (att0 + 0)))).setReg 1 (.ptr (.resultvals (res0 + 0)))) (j := 0)
    (by rw [regs_setReg, if_neg (by decide), regs_setReg, if_pos rfl]) (by rw [regs_setReg, if_pos rfl])
  obtain ⟨m₃, hrun₃, hw₃, hb₃, -, hbase₃⟩ := slotIsnulls_run (t := t) cfg m₂ src
  have hfrom₃ : (Ptr.isnulls src 0).advance att0 = some (.isnulls src (att0 + 0)) := by rw [Ptr.advance, Nat.zero_add, Nat.add_zero]
  have hto₃ : SavedReg.resultnulls.ptr.advance res0 = some (.resultnulls (res0 + 0)) := by
    rw [SavedReg.ptr, Ptr.advance, Nat.zero_add, Nat.add_zero]
  have hstart₃ := execOps_trans hrun₃ (rowStart_run (t := t) hbase₃ hfrom₃ hto₃)
  obtain ⟨m₄, hruns₄, hw₄, hb₄⟩ := copyLoop_runs (copies_isnulls src att0 res0) (fun _ => rfl) (fun _ => rfl) hat₄ hcount hlt
    (m := (m₃.setReg 0 (.ptr (.isnulls src (att0 + 0)))).setReg 1 (.ptr (.resultnulls (res0 + 0)))) (j := 0)
    (by rw [regs_setReg, if_neg (by decide), regs_setReg, if_pos rfl]) (by rw [regs_setReg, if_pos rfl])
  have hruns₁ := runs_through hat₁ (runItems_ops hstart₁)
  have hruns₃ := runs_through hat₃ (runItems_ops hstart₃)
  rw [List.foldl_fixed] at hb₂ hw₄
  refine ⟨m₄, ?_, assignState_sim hsim ?_ ?_⟩
  · simp only [emitAssignLoop, size_append, ← Nat.add_assoc] at hruns₁ hruns₂ hruns₃ hruns₄ ⊢
    exact ((hruns₁.trans hruns₂).trans hruns₃).trans hruns₄
  · rw [hw₄, words_setReg, words_setReg, hw₃, hw₂, words_setReg, words_setReg, hw₁]
  · rw [hb₄, bytes_setReg, bytes_setReg, hb₃, hb₂, bytes_setReg, bytes_setReg, hb₁]

end Row

end CompileExprAux
end PgJitter
