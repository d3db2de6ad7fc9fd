import PgJitter.CompileExpr

/-!
# Helpers for `CompileExpr.lean`: what the code of a step does

One lemma for each instruction and each sequence that `sljit_compile_expr` emits by a helper of its own; `Sim` says that the machine
holds what the interpreter holds, and each opcode keeps it.
-/

namespace PgJitter
namespace CompileExprAux

open Assembly Backpatch

variable {G : Type}

/-! ## Null flags as bytes -/

theorem boolByte_beq_zero (b : Bool) : ((boolByte b).setWidth 64 == (0 : Datum)) = !b := by cases b <;> rfl

theorem boolByte_bne_zero (b : Bool) : (boolByte b != 0) = b := by cases b <;> rfl

theorem boolByte_setWidth (b : Bool) : ((boolByte b).setWidth 64).setWidth 8 = boolByte b := by cases b <;> rfl

theorem boolByte_or (a b : Bool) : (boolByte a).setWidth 64 ||| (boolByte b).setWidth 64 = (boolByte (a || b)).setWidth 64 := by
  cases a <;> cases b <;> rfl

/-- A null flag is a boolean value. -/
theorem boolByte_datum (b : Bool) : (boolByte b).setWidth 64 = boolGetDatum b := by cases b <;> rfl

theorem boolGetDatum_xor (b : Bool) : boolGetDatum b ^^^ 1 = boolGetDatum (!b) := by cases b <;> rfl

/-! ## Registers and memory -/

section Mach

variable (m : Mach G) (k : Nat) (w : RegWord G) (p : WordPlace) (d : Datum) (q : BytePlace) (b : BitVec 8)

@[simp] theorem regs_setReg (j : Nat) : (m.setReg k w).regs j = if j = k then w else m.regs j := Function.update_apply ..

@[simp] theorem words_setReg : (m.setReg k w).words = m.words := rfl

@[simp] theorem bytes_setReg : (m.setReg k w).bytes = m.bytes := rfl

@[simp] theorem zero_setReg : (m.setReg k w).zero = m.zero := rfl

@[simp] theorem regs_setWord : (m.setWord p d).regs = m.regs := rfl

@[simp] theorem words_setWord : (m.setWord p d).words = Function.update m.words p d := rfl

@[simp] theorem bytes_setWord : (m.setWord p d).bytes = m.bytes := rfl

@[simp] theorem regs_setByte : (m.setByte q b).regs = m.regs := rfl

@[simp] theorem words_setByte : (m.setByte q b).words = m.words := rfl

@[simp] theorem bytes_setByte : (m.setByte q b).bytes = Function.update m.bytes q b := rfl

@[simp] theorem words_returned : (m.returned d).words = m.words := rfl

@[simp] theorem bytes_returned : (m.returned d).bytes = m.bytes := rfl

@[simp] theorem regs_returned_zero : (m.returned d).regs 0 = .datum d := rfl

@[simp] theorem base_s (s : SavedReg) : m.base (.s s) = some s.ptr := rfl

@[simp] theorem operand_imm : m.operand (.imm d) = some d := rfl

variable {m k}

theorem base_r {p : Ptr} (h : m.regs k = .ptr p) : m.base (.r k) = some p := by simp only [Mach.base, h]

theorem datum_reg {d : Datum} (h : m.regs k = .datum d) : m.datum k = some d := by simp only [Mach.datum, h]

theorem operand_reg {d : Datum} (h : m.regs k = .datum d) : m.operand (.reg k) = some d := datum_reg h

end Mach

/-! ## Instructions -/

section Exec

variable {t : ExprTarget G} {m : Mach G} {dst opno : Nat} {b : BaseReg} {f : Field} {p : Ptr} {x : Operand} {d : Datum}

attribute [local simp] Instr.exec nextOf

theorem exec_stepField {step : ExprEvalStep G} (hstep : t.steps[opno]? = some step) (f : StepField) :
    Instr.exec t (.stepField dst opno f) m = .next (m.setReg dst (stepFieldWord step f)) := by
  simp [hstep]

theorem exec_load (hb : m.base b = some p) (hp : p.ptrPlace f = none) {w : WordPlace} (hw : p.wordPlace f = some w) :
    Instr.exec t (.load dst b f) m = .next (m.setReg dst (.datum (m.words w))) := by
  simp [hb, hp, hw]

theorem exec_loadPtr (hb : m.base b = some p) {q : Ptr} (hp : p.ptrPlace f = some q) :
    Instr.exec t (.load dst b f) m = .next (m.setReg dst (.ptr q)) := by
  simp [hb, hp]

theorem exec_loadU8 (hb : m.base b = some p) {w : BytePlace} (hw : p.bytePlace t.paired f = some w) :
    Instr.exec t (.loadU8 dst b f) m = .next (m.setReg dst (.datum ((m.bytes w).setWidth 64))) := by
  simp [hb, hw]

theorem exec_load32 (hb : m.base b = some p) {n : Nat} (hp : p.collationPlace f = some n) :
    Instr.exec t (.load32 dst b f) m = .next (m.setReg dst (.datum (t.native.collation n))) := by
  simp [hb, hp]

theorem exec_store (hb : m.base b = some p) {w : WordPlace} (hw : p.wordPlace f = some w) (hx : m.operand x = some d) :
    Instr.exec t (.store b f x) m = .next (m.setWord w d) := by
  simp [hb, hw, hx]

theorem exec_storeU8 (hb : m.base b = some p) {w : BytePlace} (hw : p.bytePlace t.paired f = some w) (hx : m.operand x = some d) :
    Instr.exec t (.storeU8 b f x) m = .next (m.setByte w (d.setWidth 8)) := by
  simp [hb, hw, hx]

theorem exec_addElems (hb : m.base b = some p) {n : Nat} {q : Ptr} (hp : p.advance n = some q) :
    Instr.exec t (.addElems dst b n) m = .next (m.setReg dst (.ptr q)) := by
  simp [hb, hp]

theorem exec_movImm (k : Nat) (d : Datum) : Instr.exec t (.mov k (.imm d)) m = .next (m.setReg k (.datum d)) := rfl

/-- The values of the result slot. -/
theorem wordPlace_resultvals (k : Nat) : SavedReg.resultvals.ptr.wordPlace (.elem k) = some (.result k) := by
  rw [SavedReg.ptr, Ptr.wordPlace, Nat.zero_add]

/-- The null flags of the result slot. -/
theorem bytePlace_resultnulls (paired : Cell → Bool) (k : Nat) :
    SavedReg.resultnulls.ptr.bytePlace paired (.elem k) = some (.resultIsnull k) := by
  rw [SavedReg.ptr, Ptr.bytePlace, Nat.zero_add]

/-- A comparison with zero. -/
theorem exec_cmpZero {r : Nat} (hr : m.regs r = .datum d) (equal : Bool) :
    Instr.exec t (.cmpZero equal r) m = if (d == 0) = equal then .jump m else .next m := by
  simp [datum_reg hr, jumpWhen]

end Exec

/-! ## Results of steps -/

section Results

variable {t : ExprTarget G} {m : Mach G} {opno : Nat} {step : ExprEvalStep G}

/-- `R1` has the address of a location, where it is not that of the state. -/
def viaR1 (m : Mach G) (c : Cell) (p : Ptr) : Mach G := if c = .state then m else m.setReg 1 (.ptr p)

@[simp] theorem words_viaR1 (m : Mach G) (c : Cell) (p : Ptr) : (viaR1 m c p).words = m.words := by
  rw [viaR1]
  split <;> rfl

@[simp] theorem bytes_viaR1 (m : Mach G) (c : Cell) (p : Ptr) : (viaR1 m c p).bytes = m.bytes := by
  rw [viaR1]
  split <;> rfl

theorem regs_viaR1 (m : Mach G) (c : Cell) (p : Ptr) {k : Nat} (hk : k ≠ 1) : (viaR1 m c p).regs k = m.regs k := by
  rw [viaR1]
  split
  · rfl
  · rw [regs_setReg, if_neg hk]

/-- What is stored does not lie in `R1`. -/
def NotR1 : Operand → Prop
  | .reg k => k ≠ 1
  | .imm _ => True

/-- A value or an immediate is still there. -/
theorem operand_viaR1 {c : Cell} {p : Ptr} {x : Operand} (hx : NotR1 x) {d : Datum} (h : m.operand x = some d) :
    (viaR1 m c p).operand x = some d := by
  cases x with
  | imm => exact h
  | reg k =>
    rw [← h]
    simp only [Mach.operand, Mach.datum, regs_viaR1 m c p hx]

theorem run_loadResvalue (hstep : t.steps[opno]? = some step) (dst : Nat) :
    execOps (Instr.exec t) (emitLoadResvalue opno step.resvalue dst) m =
      some (m.setReg dst (.datum (m.words (.value step.resvalue)))) := by
  rw [emitLoadResvalue]
  split
  · rename_i hc
    rw [hc]
    exact execOps_cons (exec_load (base_s m .s0) rfl rfl) _
  · refine (execOps_cons (exec_stepField hstep _) _).trans ?_
    refine (execOps_cons (exec_load (base_r (by rw [regs_setReg, if_pos rfl]; rfl)) rfl rfl) _).trans ?_
    exact congrArg some (congrArg (fun r => ({ m with regs := r } : Mach G)) (Function.update_idem ..))

theorem run_loadResnull (hstep : t.steps[opno]? = some step) (dst : Nat) :
    execOps (Instr.exec t) (emitLoadResnull opno step.resvalue dst) m =
      some (m.setReg dst (.datum ((m.bytes (.isnull step.resvalue)).setWidth 64))) := by
  rw [emitLoadResnull]
  split
  · rename_i hc
    rw [hc]
    exact execOps_cons (exec_loadU8 (base_s m .s0) rfl) _
  · refine (execOps_cons (exec_stepField hstep _) _).trans ?_
    refine (execOps_cons (exec_loadU8 (base_r (by rw [regs_setReg, if_pos rfl]; rfl)) rfl) _).trans ?_
    exact congrArg some (congrArg (fun r => ({ m with regs := r } : Mach G)) (Function.update_idem ..))

theorem run_storeResvalue (hstep : t.steps[opno]? = some step) {x : Operand} (hx : NotR1 x) {d : Datum}
    (h : m.operand x = some d) :
    execOps (Instr.exec t) (emitStoreResvalue opno step.resvalue x) m =
      some ((viaR1 m step.resvalue (.resvalue step.resvalue)).setWord (.value step.resvalue) d) := by
  have hop := operand_viaR1 (c := step.resvalue) (p := .resvalue step.resvalue) hx h
  rw [emitStoreResvalue]
  rw [viaR1] at hop ⊢
  split at hop
  · rename_i hc
    rw [if_pos hc, if_pos hc, hc]
    exact execOps_cons (exec_store (base_s m .s0) rfl hop) _
  · rename_i hc
    rw [if_neg hc, if_neg hc]
    refine (execOps_cons (exec_stepField hstep _) _).trans ?_
    exact execOps_cons (exec_store (base_r (by rw [regs_setReg, if_pos rfl])) rfl hop) _

theorem run_storeResnull (hstep : t.steps[opno]? = some step) {x : Operand} (hx : NotR1 x) {d : Datum}
    (h : m.operand x = some d) :
    execOps (Instr.exec t) (emitStoreResnull opno step.resvalue x) m =
      some ((viaR1 m step.resvalue (.resnull step.resvalue)).setByte (.isnull step.resvalue) (d.setWidth 8)) := by
  have hop := operand_viaR1 (c := step.resvalue) (p := .resnull step.resvalue) hx h
  rw [emitStoreResnull]
  rw [viaR1] at hop ⊢
  split at hop
  · rename_i hc
    rw [if_pos hc, if_pos hc, hc]
    exact execOps_cons (exec_storeU8 (base_s m .s0) rfl hop) _
  · rename_i hc
    rw [if_neg hc, if_neg hc]
    refine (execOps_cons (exec_stepField hstep _) _).trans ?_
    exact execOps_cons (exec_storeU8 (base_r (by rw [regs_setReg, if_pos rfl])) rfl hop) _

/-- A result that is not null. -/
theorem run_storeResPairFalse {cfg : CompileConfig G} (hpaired : cfg.paired = t.paired) (hstep : t.steps[opno]? = some step) {r : Nat}
    (hr : r ≠ 1) {d : Datum} (h : m.regs r = .datum d) :
    ∃ m', execOps (Instr.exec t) (emitStoreResPairFalse cfg opno step.resvalue r) m = some m' ∧
      m'.words = Function.update m.words (.value step.resvalue) d ∧
      m'.bytes = Function.update m.bytes (.isnull step.resvalue) 0 := by
  rw [emitStoreResPairFalse]
  split
  · rename_i hc
    rw [hc]
    refine ⟨(m.setWord (.value .state) d).setByte (.isnull .state) 0, ?_, rfl, rfl⟩
    refine (execOps_cons (exec_store (base_s m .s0) rfl (operand_reg h)) _).trans ?_
    exact execOps_cons (exec_storeU8 (base_s _ .s0) rfl (operand_imm _ 0)) _
  · split
    · rename_i hc hp
      rw [hpaired] at hp
      refine ⟨((m.setReg 1 (.ptr (.resvalue step.resvalue))).setWord (.value step.resvalue) d).setByte (.isnull step.resvalue) 0,
        ?_, rfl, rfl⟩
      refine (execOps_cons (exec_stepField hstep _) _).trans ?_
      have hreg : (m.setReg 1 (.ptr (.resvalue step.resvalue))).regs r = .datum d := by
        rw [regs_setReg, if_neg hr]
        exact h
      refine (execOps_cons (exec_store (base_r rfl) rfl (operand_reg hreg)) _).trans ?_
      refine execOps_cons (exec_storeU8 (base_r rfl) ?_ (operand_imm _ 0)) _
      rw [Ptr.bytePlace, if_pos hp]
    · refine ⟨_, execOps_trans (run_storeResvalue (x := .reg r) hstep hr (operand_reg h))
        (run_storeResnull (x := .imm 0) hstep trivial (operand_imm _ 0)), ?_, ?_⟩
      · rw [words_setByte, words_viaR1, words_setWord, words_viaR1]
      · rw [bytes_setByte, bytes_viaR1, bytes_setWord, bytes_viaR1]
        rfl

/-- A null flag and then its value, both immediate. -/
theorem run_storeNullValue (hstep : t.steps[opno]? = some step) (n d : Datum) :
    ∃ m', execOps (Instr.exec t) (emitStoreResnull opno step.resvalue (.imm n) ++ emitStoreResvalue opno step.resvalue (.imm d)) m =
        some m' ∧ m'.words = Function.update m.words (.value step.resvalue) d ∧
      m'.bytes = Function.update m.bytes (.isnull step.resvalue) (n.setWidth 8) := by
  refine ⟨_, execOps_trans (run_storeResnull (x := .imm n) hstep trivial (operand_imm _ n))
    (run_storeResvalue (x := .imm d) hstep trivial (operand_imm _ d)), ?_, ?_⟩
  · rw [words_setWord, words_viaR1, words_setByte, words_viaR1]
  · rw [bytes_setWord, bytes_viaR1, bytes_setByte, bytes_viaR1]

/-- Code that puts a value in a register and leaves the memory. -/
def Loads (t : ExprTarget G) (m : Mach G) (is : List (Instr G)) (k : Nat) (d : Datum) : Prop :=
  ∃ m', execOps (Instr.exec t) is m = some m' ∧ m'.words = m.words ∧ m'.bytes = m.bytes ∧ m'.regs k = .datum d

variable {is : List (Instr G)} {k : Nat} {d : Datum}

theorem loads_resvalue (hstep : t.steps[opno]? = some step) (k : Nat) :
    Loads t m (emitLoadResvalue opno step.resvalue k) k (m.words (.value step.resvalue)) :=
  ⟨_, run_loadResvalue hstep k, rfl, rfl, by rw [regs_setReg, if_pos rfl]⟩

theorem loads_resnull (hstep : t.steps[opno]? = some step) (k : Nat) :
    Loads t m (emitLoadResnull opno step.resvalue k) k ((m.bytes (.isnull step.resvalue)).setWidth 64) :=
  ⟨_, run_loadResnull hstep k, rfl, rfl, by rw [regs_setReg, if_pos rfl]⟩

/-- A value that is loaded and stored. -/
theorem Loads.store (h : Loads t m is k d) (hk : k ≠ 1) (hstep : t.steps[opno]? = some step) :
    ∃ m', execOps (Instr.exec t) (is ++ emitStoreResvalue opno step.resvalue (.reg k)) m = some m' ∧
      m'.words = Function.update m.words (.value step.resvalue) d ∧ m'.bytes = m.bytes := by
  obtain ⟨m₁, hrun, hw, hb, hr⟩ := h
  refine ⟨_, execOps_trans hrun (run_storeResvalue (x := .reg k) hstep hk (operand_reg hr)), ?_, ?_⟩
  · rw [words_setWord, words_viaR1, hw]
  · rw [bytes_setWord, bytes_viaR1, hb]

/-- A value that is loaded and stored, with a null flag after it. -/
theorem Loads.storeNull (h : Loads t m is k d) (hk : k ≠ 1) (hstep : t.steps[opno]? = some step) (n : Datum) :
    ∃ m', execOps (Instr.exec t) (is ++ emitStoreResvalue opno step.resvalue (.reg k) ++ emitStoreResnull opno step.resvalue (.imm n)) m =
        some m' ∧ m'.words = Function.update m.words (.value step.resvalue) d ∧
      m'.bytes = Function.update m.bytes (.isnull step.resvalue) (n.setWidth 8) := by
  obtain ⟨m₁, hrun, hw, hb⟩ := h.store hk hstep
  refine ⟨_, execOps_trans hrun (run_storeResnull (x := .imm n) hstep trivial (operand_imm _ n)), ?_, ?_⟩
  · rw [words_setByte, words_viaR1, hw]
  · rw [bytes_setByte, bytes_viaR1, hb]

/-- A value that is loaded and stored, not null. -/
theorem Loads.storePair (h : Loads t m is k d) (hk : k ≠ 1) {cfg : CompileConfig G} (hpaired : cfg.paired = t.paired)
    (hstep : t.steps[opno]? = some step) :
    ∃ m', execOps (Instr.exec t) (is ++ emitStoreResPairFalse cfg opno step.resvalue k) m = some m' ∧
      m'.words = Function.update m.words (.value step.resvalue) d ∧
      m'.bytes = Function.update m.bytes (.isnull step.resvalue) 0 := by
  obtain ⟨m₁, hrun, hw, hb, hr⟩ := h
  obtain ⟨m₂, hrun', hw', hb'⟩ := run_storeResPairFalse hpaired hstep hk hr
  exact ⟨m₂, execOps_trans hrun hrun', hw ▸ hw', hb ▸ hb'⟩

end Results

/-! ## What the machine holds -/

/-- The machine holds what the interpreter holds: the locations that are still to be read, the columns of the result, the flags that are
still in use, and what no step writes. -/
structure Sim (env : ExprEnv G) (live : Cell → Prop) (flags : Nat → Prop) (m : Mach G) (s : EvalState) : Prop where
  cells : ∀ c, live c → (s.cells c).In (m.words (.value c)) (m.bytes (.isnull c))
  result : ∀ k, (s.result k).In (m.words (.result k)) (m.bytes (.resultIsnull k))
  anynull : ∀ n, flags n → m.bytes (.anynull n) = boolByte (s.anynull n)
  slots : ∀ src k, m.words (.slotValue src k) = (env.slot src k).value ∧
    m.bytes (.slotIsnull src k) = boolByte (env.slot src k).isnull
  caseValue : m.words .caseValue = env.caseValue.value ∧ m.bytes .caseIsnull = boolByte env.caseValue.isnull

section Sim

variable {env : ExprEnv G} {live : Cell → Prop} {flags : Nat → Prop} {m m' : Mach G} {s : EvalState}

/-- What is read and used later is less. -/
theorem Sim.mono (h : Sim env live flags m s) {live' : Cell → Prop} {flags' : Nat → Prop} (hlive : ∀ c, live' c → live c)
    (hflags : ∀ n, flags' n → flags n) : Sim env live' flags' m s :=
  ⟨fun c hc => h.cells c (hlive c hc), h.result, fun n hn => h.anynull n (hflags n hn), h.slots, h.caseValue⟩

/-- Only the memory counts. -/
theorem Sim.congr (h : Sim env live flags m s) (hw : m'.words = m.words) (hb : m'.bytes = m.bytes) : Sim env live flags m' s := by
  obtain ⟨hcells, hresult, hanynull, hslots, hcaseValue⟩ := h
  rw [← hw, ← hb] at hcells hresult hslots hcaseValue
  rw [← hb] at hanynull
  exact ⟨hcells, hresult, hanynull, hslots, hcaseValue⟩

/-- A location is written. -/
theorem Sim.store (h : Sim env live flags m s) {c : Cell} {d : NullableDatum} {v : Datum} {n : BitVec 8}
    (hw : m'.words = Function.update m.words (.value c) v) (hb : m'.bytes = Function.update m.bytes (.isnull c) n) (hd : d.In v n) :
    Sim env live flags m' (s.store c d) := by
  refine ⟨fun c' hc' => ?_, fun k => ?_, fun k hk => ?_, fun src k => ?_, ?_⟩
  · by_cases heq : c' = c
    · subst heq
      rw [hw, hb, EvalState.cells_store, Function.update_self, Function.update_self, Function.update_self]
      exact hd
    · have hv : WordPlace.value c' ≠ .value c := fun hbad => heq (WordPlace.value.inj hbad)
      have hn : BytePlace.isnull c' ≠ .isnull c := fun hbad => heq (BytePlace.isnull.inj hbad)
      rw [hw, hb, EvalState.cells_store, Function.update_of_ne heq, Function.update_of_ne hv, Function.update_of_ne hn]
      exact h.cells c' hc'
  · rw [hw, hb, EvalState.result_store, Function.update_of_ne (by simp), Function.update_of_ne (by simp)]
    exact h.result k
  · rw [hb, EvalState.anynull_store, Function.update_of_ne (by simp)]
    exact h.anynull k hk
  · rw [hw, hb, Function.update_of_ne (by simp), Function.update_of_ne (by simp)]
    exact h.slots src k
  · rw [hw, hb, Function.update_of_ne (by simp), Function.update_of_ne (by simp)]
    exact h.caseValue

/-- A column of the result is written. -/
theorem Sim.assign (h : Sim env live flags m s) {k : Nat} {d : NullableDatum} {v : Datum} {n : BitVec 8}
    (hw : m'.words = Function.update m.words (.result k) v) (hb : m'.bytes = Function.update m.bytes (.resultIsnull k) n)
    (hd : d.In v n) : Sim env live flags m' (s.assign k d) := by
  refine ⟨fun c hc => ?_, fun k' => ?_, fun k' hk' => ?_, fun src k' => ?_, ?_⟩
  · rw [hw, hb, EvalState.cells_assign, Function.update_of_ne (by simp), Function.update_of_ne (by simp)]
    exact h.cells c hc
  · by_cases heq : k' = k
    · subst heq
      rw [hw, hb, EvalState.result_assign, Function.update_self, Function.update_self, Function.update_self]
      exact hd
    · have hv : WordPlace.result k' ≠ .result k := fun hbad => heq (WordPlace.result.inj hbad)
      have hn : BytePlace.resultIsnull k' ≠ .resultIsnull k := fun hbad => heq (BytePlace.resultIsnull.inj hbad)
      rw [hw, hb, EvalState.result_assign, Function.update_of_ne heq, Function.update_of_ne hv, Function.update_of_ne hn]
      exact h.result k'
  · rw [hb, EvalState.anynull_assign, Function.update_of_ne (by simp)]
    exact h.anynull k' hk'
  · rw [hw, hb, Function.update_of_ne (by simp), Function.update_of_ne (by simp)]
    exact h.slots src k'
  · rw [hw, hb, Function.update_of_ne (by simp), Function.update_of_ne (by simp)]
    exact h.caseValue

/-- A flag is written, on both sides or where it is not used any more. -/
theorem Sim.flag (h : Sim env live flags m s) {s' : EvalState} {n : Nat} {b : BitVec 8} (hw : m'.words = m.words)
    (hb : m'.bytes = Function.update m.bytes (.anynull n) b) {flags' : Nat → Prop} (hflags : ∀ k, flags' k → flags k)
    (hcells : s'.cells = s.cells) (hresult : s'.result = s.result) (hothers : ∀ k, k ≠ n → s'.anynull k = s.anynull k)
    (hn : flags' n → b = boolByte (s'.anynull n)) : Sim env live flags' m' s' := by
  refine ⟨fun c hc => ?_, fun k => ?_, fun k hk => ?_, fun src k => ?_, ?_⟩
  · rw [hw, hb, hcells, Function.update_of_ne (by simp)]
    exact h.cells c hc
  · rw [hw, hb, hresult, Function.update_of_ne (by simp)]
    exact h.result k
  · by_cases heq : k = n
    · subst heq
      rw [hb, Function.update_self]
      exact hn hk
    · have hne : BytePlace.anynull k ≠ .anynull n := fun hbad => heq (BytePlace.anynull.inj hbad)
      rw [hb, hothers k heq, Function.update_of_ne hne]
      exact h.anynull k (hflags k hk)
  · rw [hw, hb, Function.update_of_ne (by simp)]
    exact h.slots src k
  · rw [hw, hb, Function.update_of_ne (by simp)]
    exact h.caseValue

/-- The null flag of a call is written. -/
theorem Sim.fcIsnull (h : Sim env live flags m s) {n : Nat} {b : BitVec 8} (hw : m'.words = m.words)
    (hb : m'.bytes = Function.update m.bytes (.fcIsnull n) b) : Sim env live flags m' s := by
  refine ⟨fun c hc => ?_, fun k => ?_, fun k hk => ?_, fun src k => ?_, ?_⟩
  · rw [hw, hb, Function.update_of_ne (by simp)]
    exact h.cells c hc
  · rw [hw, hb, Function.update_of_ne (by simp)]
    exact h.result k
  · rw [hb, Function.update_of_ne (by simp)]
    exact h.anynull k hk
  · rw [hw, hb, Function.update_of_ne (by simp)]
    exact h.slots src k
  · rw [hw, hb, Function.update_of_ne (by simp)]
    exact h.caseValue

/-- The null flag of a location. -/
theorem Sim.isnull (h : Sim env live flags m s) {c : Cell} (hc : live c) : m.bytes (.isnull c) = boolByte (s.cells c).isnull :=
  (h.cells c hc).1

/-- The value of a location that is not null. -/
theorem Sim.value (h : Sim env live flags m s) {c : Cell} (hc : live c) (hnull : (s.cells c).isnull = false) :
    m.words (.value c) = (s.cells c).value := (h.cells c hc).2 hnull

end Sim

end CompileExprAux
end PgJitter
