import PgJitter.Lemmas.CompileExpr

/-!
# Helpers for `CompileExpr.lean`: one step

The code of every opcode that is no call and no batch brings the machine to the step that the interpreter goes to.
-/

namespace PgJitter
namespace CompileExprAux

open Assembly Backpatch

variable {G : Type} {t : ExprTarget G} {cfg : CompileConfig G} {live : Cell → Prop} {flags : Nat → Prop} {m : Mach G} {s : EvalState}
  {opno next : Nat} {step : ExprEvalStep G}

/-- The code of a step brings the machine to the step that the interpreter goes to, and it holds what the interpreter holds there. -/
def Arrives (t : ExprTarget G) (live : Cell → Prop) (flags : Nat → Prop) (next : Nat) (st : Status (Mach G)) (pc : Nat)
    (s : EvalState) : Prop :=
  ∃ m, Sim t.env live flags m s ∧ (st = .running m ∧ pc = next ∨ st = .left pc m)

/-- Code without jumps. -/
theorem arrives_ops {is : List (Instr G)} {m' : Mach G} {s' : EvalState} (hrun : execOps (Instr.exec t) is m = some m')
    (hsim : Sim t.env live flags m' s') : Arrives t live flags next (runItems (Instr.exec t) (.running m) (ops is)) next s' :=
  ⟨m', hsim, .inl ⟨runItems_ops hrun, rfl⟩⟩

/-! ## Values -/

/-- A constant is stored. -/
theorem const_arrives (hsim : Sim t.env live flags m s) (hstep : t.steps[opno]? = some step) {k : NullableDatum}
    (hop : step.op = .const k) :
    Arrives t live flags next (runItems (Instr.exec t) (.running m) (ops (emitConst cfg opno step.resvalue k))) next
      (s.store step.resvalue k) := by
  have hload : Loads t m (if cfg.sharedCode then [.stepField 0 opno .constval] else [.mov 0 (.imm k.value)]) 0 k.value := by
    split
    · refine ⟨_, execOps_cons (exec_stepField hstep _) _, rfl, rfl, ?_⟩
      rw [regs_setReg, if_pos rfl, stepFieldWord, hop]
    · exact ⟨_, execOps_cons (exec_movImm 0 k.value) _, rfl, rfl, rfl⟩
  obtain ⟨m', hrun, hw, hb⟩ := hload.storeNull Nat.zero_ne_one hstep (if k.isnull then 1 else 0)
  refine arrives_ops hrun (hsim.store hw hb ⟨?_, fun _ => rfl⟩)
  cases k.isnull <;> rfl

/-- A result is assigned to a column of the result slot. -/
theorem assignTmp_arrives (hsim : Sim t.env live flags m s) (hlive : live .state) (resultnum : Nat) :
    Arrives t live flags next (runItems (Instr.exec t) (.running m) (ops (emitAssignTmp resultnum))) next
      (s.assign resultnum (s.cells .state)) := by
  have hrun : execOps (Instr.exec t) (emitAssignTmp resultnum) m =
      some ((((m.setReg 0 (.datum (m.words (.value .state)))).setReg 1 (.datum ((m.bytes (.isnull .state)).setWidth 64))).setByte
        (.resultIsnull resultnum) (((m.bytes (.isnull .state)).setWidth 64).setWidth 8)).setWord (.result resultnum)
          (m.words (.value .state))) := by
    refine (execOps_cons (exec_load (base_s m .s0) rfl rfl) _).trans ?_
    refine (execOps_cons (exec_loadU8 (base_s _ .s0) rfl) _).trans ?_
    refine (execOps_cons (exec_storeU8 (base_s _ .resultnulls) (bytePlace_resultnulls t.paired resultnum) (operand_reg rfl)) _).trans ?_
    exact execOps_cons (exec_store (base_s _ .resultvals) (wordPlace_resultvals resultnum) (operand_reg rfl)) _
  refine arrives_ops hrun (hsim.assign rfl rfl ⟨?_, fun hnull => hsim.value hlive hnull⟩)
  rw [hsim.isnull hlive, boolByte_setWidth]

/-- A truth value is negated, and a null stays. -/
theorem boolNot_arrives (hsim : Sim t.env live flags m s) (hlive : live step.resvalue) (hstep : t.steps[opno]? = some step) :
    Arrives t live flags next (runItems (Instr.exec t) (.running m) (ops (emitBoolNot opno step.resvalue))) next
      (s.store step.resvalue
        ⟨boolGetDatum (!datumGetBool (s.cells step.resvalue).value), (s.cells step.resvalue).isnull⟩) := by
  have hnot : ∀ d : Datum, (if d - 0 == 0 then (1 : Datum) else 0) = boolGetDatum (!datumGetBool d) := by
    intro d
    have hd : d - 0 = d := BitVec.sub_zero d
    rw [hd, datumGetBool, boolGetDatum, bne, Bool.not_not]
  have hload : Loads t m (emitLoadResvalue opno step.resvalue 0 ++ [.cmpSetZ 0 0, .flagEqual 0]) 0
      (boolGetDatum (!datumGetBool (m.words (.value step.resvalue)))) := by
    refine ⟨_, execOps_trans (run_loadResvalue hstep 0) rfl, rfl, rfl, ?_⟩
    rw [← hnot]
    rfl
  obtain ⟨m', hrun, hw, hb⟩ := hload.store Nat.zero_ne_one hstep
  refine arrives_ops hrun (hsim.store hw (hb.trans (Function.update_eq_self _ _).symm) ⟨hsim.isnull hlive, fun hnull => ?_⟩)
  rw [hsim.value hlive hnull]

/-- A null test leaves its answer, which is not null. -/
theorem nulltest_arrives (hpaired : cfg.paired = t.paired) (hsim : Sim t.env live flags m s) (hlive : live step.resvalue)
    (hstep : t.steps[opno]? = some step) (isNotNull : Bool) (next : Nat) :
    Arrives t live flags next (runItems (Instr.exec t) (.running m) (ops (emitNulltest cfg isNotNull opno step.resvalue))) next
      (s.store step.resvalue ⟨boolGetDatum ((s.cells step.resvalue).isnull ^^ isNotNull), false⟩) := by
  have hload : Loads t m (emitLoadResnull opno step.resvalue 0 ++ (if isNotNull then [.xor 0 1] else [])) 0
      (boolGetDatum ((s.cells step.resvalue).isnull ^^ isNotNull)) := by
    cases isNotNull with
    | false =>
      rw [if_neg Bool.false_ne_true, List.append_nil, Bool.xor_false, ← boolByte_datum, ← hsim.isnull hlive]
      exact loads_resnull hstep 0
    | true =>
      rw [if_pos rfl, Bool.xor_true, ← boolGetDatum_xor, ← boolByte_datum, ← hsim.isnull hlive]
      exact ⟨_, execOps_trans (run_loadResnull hstep 0) rfl, rfl, rfl, rfl⟩
  obtain ⟨m', hrun, hw, hb⟩ := hload.storePair Nat.zero_ne_one hpaired hstep
  exact arrives_ops hrun (hsim.store hw hb ⟨rfl, fun _ => rfl⟩)

/-- The value of a CASE is copied, from its cell or from the context. -/
theorem caseTestval_arrives (hsim : Sim t.env live flags m s) (hstep : t.steps[opno]? = some step) {value : Option Cell}
    (hop : step.op = .caseTestval value) (hlive : ∀ c, value = some c → live c) :
    Arrives t live flags next (runItems (Instr.exec t) (.running m) (ops (emitCaseTestval opno step.resvalue value))) next
      (s.store step.resvalue (value.elim t.env.caseValue s.cells)) := by
  -- A value that is stored, and then a null flag that is loaded and stored.
  have htwo : ∀ {is js : List (Instr G)} {d : Datum} {n : BitVec 8}, Loads t m is 0 d →
      (∀ m₁ : Mach G, m₁.bytes = m.bytes → Loads t m₁ js 0 (n.setWidth 64)) →
      ∃ m', execOps (Instr.exec t) (is ++ emitStoreResvalue opno step.resvalue (.reg 0) ++ js ++
          emitStoreResnull opno step.resvalue (.reg 0)) m = some m' ∧
        m'.words = Function.update m.words (.value step.resvalue) d ∧
        m'.bytes = Function.update m.bytes (.isnull step.resvalue) n := by
    intro is js d n hvalue hisnull
    obtain ⟨m₁, hrun₁, hw₁, hb₁⟩ := hvalue.store Nat.zero_ne_one hstep
    obtain ⟨m₂, hrun₂, hw₂, hb₂, hr₂⟩ := hisnull m₁ hb₁
    refine ⟨_, execOps_trans (execOps_trans hrun₁ hrun₂)
      (run_storeResnull (x := .reg 0) hstep Nat.zero_ne_one (operand_reg hr₂)), ?_, ?_⟩
    · rw [words_setByte, words_viaR1, hw₂, hw₁]
    · rw [bytes_setByte, bytes_viaR1, hb₂, hb₁, BitVec.setWidth_setWidth_of_le _ (by decide), BitVec.setWidth_eq]
  cases value with
  | some c =>
    have hvalue : Loads t m [.stepField 0 opno .casetestValue, .load 0 (.r 0) .here] 0 (m.words (.value c)) := by
      refine ⟨_, (execOps_cons (exec_stepField hstep _) _).trans (execOps_cons (exec_load (p := .resvalue c) (base_r ?_) rfl rfl) _),
        rfl, rfl, rfl⟩
      rw [regs_setReg, if_pos rfl, stepFieldWord, hop]
    have hisnull : ∀ m₁ : Mach G, m₁.bytes = m.bytes →
        Loads t m₁ [.stepField 0 opno .casetestIsnull, .loadU8 0 (.r 0) .here] 0 ((m.bytes (.isnull c)).setWidth 64) := by
      intro m₁ hb₁
      have hload : Instr.exec t (.loadU8 0 (.r 0) .here) (m₁.setReg 0 (stepFieldWord step .casetestIsnull)) =
          .next ((m₁.setReg 0 (stepFieldWord step .casetestIsnull)).setReg 0 (.datum ((m₁.bytes (.isnull c)).setWidth 64))) :=
        exec_loadU8 (base_r (by rw [regs_setReg, if_pos rfl, stepFieldWord, hop])) rfl
      exact ⟨_, (execOps_cons (exec_stepField hstep _) _).trans (execOps_cons hload _), rfl, rfl, by rw [← hb₁, regs_setReg, if_pos rfl]⟩
    obtain ⟨m', hrun, hw, hb⟩ := htwo hvalue hisnull
    exact arrives_ops hrun (hsim.store hw hb (hsim.cells c (hlive c rfl)))
  | none =>
    have hvalue : Loads t m [.load 0 (.s .s1) .caseValueDatum] 0 (m.words .caseValue) :=
      ⟨_, execOps_cons (exec_load (base_s m .s1) rfl rfl) _, rfl, rfl, rfl⟩
    have hisnull : ∀ m₁ : Mach G, m₁.bytes = m.bytes →
        Loads t m₁ [.loadU8 0 (.s .s1) .caseValueIsNull] 0 ((m.bytes .caseIsnull).setWidth 64) := by
      intro m₁ hb₁
      have hload : Instr.exec t (.loadU8 0 (.s .s1) .caseValueIsNull) m₁ =
          .next (m₁.setReg 0 (.datum ((m₁.bytes .caseIsnull).setWidth 64))) := exec_loadU8 (base_s m₁ .s1) rfl
      exact ⟨_, execOps_cons hload _, rfl, rfl, by rw [← hb₁, regs_setReg, if_pos rfl]⟩
    obtain ⟨m', hrun, hw, hb⟩ := htwo hvalue hisnull
    exact arrives_ops hrun (hsim.store hw hb ⟨hsim.caseValue.2, fun _ => hsim.caseValue.1⟩)

/-! ## Jumps -/

theorem beq_zero (d : Datum) : (d == 0) = !datumGetBool d := by rw [datumGetBool, bne, Bool.not_not]

/-- A comparison with zero that jumps. -/
theorem cmpZero_jump {r : Nat} {d : Datum} {equal : Bool} (hr : m.regs r = .datum d) (h : (d == 0) = equal) :
    Instr.exec t (.cmpZero equal r) m = .jump m := by
  rw [exec_cmpZero hr, if_pos h]

/-- A comparison with zero that goes on. -/
theorem cmpZero_next {r : Nat} {d : Datum} {equal : Bool} (hr : m.regs r = .datum d) (h : (d == 0) = !equal) :
    Instr.exec t (.cmpZero equal r) m = .next m := by
  rw [exec_cmpZero hr, h, if_neg (Bool.not_ne_self equal)]

/-- A jump. -/
theorem exec_jump (t : ExprTarget G) (m : Mach G) : Instr.exec t .jump m = .jump m := rfl

/-- A null flag that is set jumps. -/
theorem null_jump {r : Nat} (hr : m.regs r = .datum ((boolByte true).setWidth 64)) : Instr.exec t (.cmpZero false r) m = .jump m :=
  cmpZero_jump hr rfl

/-- The failure of a qualification. -/
theorem qualFail_arrives (hsim : Sim t.env live flags m s) (hstep : t.steps[opno]? = some step) (jumpdone next : Nat) :
    Arrives t live flags next
      (runItems (Instr.exec t) (.running m)
        (ops (emitStoreResnull opno step.resvalue (.imm 0) ++ emitStoreResvalue opno step.resvalue (.imm 0)) ++
          [.jumpOut .jump jumpdone, .mark 1])) jumpdone (s.store step.resvalue ⟨boolGetDatum false, false⟩) := by
  obtain ⟨m', hrun, hw, hb⟩ := run_storeNullValue (m := m) hstep 0 0
  rw [runItems_append, runItems_ops hrun, runItems_cons, item_jumpOut_jump (exec_jump t m'), runItems_left]
  exact ⟨m', hsim.store hw hb ⟨rfl, fun _ => rfl⟩, .inr rfl⟩

section Loaded

variable (hsim : Sim t.env live flags m s) (hlive : live step.resvalue) (hstep : t.steps[opno]? = some step)

include hsim hlive hstep

/-- The null flag of the step's location, loaded. -/
theorem load_isnull : ∃ m', execOps (Instr.exec t) (emitLoadResnull opno step.resvalue 0) m = some m' ∧ Sim t.env live flags m' s ∧
    m'.regs 0 = .datum ((boolByte (s.cells step.resvalue).isnull).setWidth 64) := by
  obtain ⟨m', hrun, hw, hb, hr⟩ := loads_resnull (m := m) hstep 0
  exact ⟨m', hrun, hsim.congr hw hb, hsim.isnull hlive ▸ hr⟩

/-- The value of the step's location, loaded, where it is not null. -/
theorem load_value (hnull : (s.cells step.resvalue).isnull = false) :
    ∃ m', execOps (Instr.exec t) (emitLoadResvalue opno step.resvalue 0) m = some m' ∧ Sim t.env live flags m' s ∧
      m'.regs 0 = .datum (s.cells step.resvalue).value := by
  obtain ⟨m', hrun, hw, hb, hr⟩ := loads_resvalue (m := m) hstep 0
  exact ⟨m', hrun, hsim.congr hw hb, hsim.value hlive hnull ▸ hr⟩

/-- A jump on null, or on what is not null. -/
theorem jumpIfNull_arrives (null : Bool) (jumpdone next : Nat) :
    Arrives t live flags next (runItems (Instr.exec t) (.running m) (emitJumpIfNull null opno step.resvalue jumpdone))
      (if (s.cells step.resvalue).isnull = null then jumpdone else next) s := by
  obtain ⟨m', hrun, hsim', hr⟩ := load_isnull hsim hlive hstep
  rw [emitJumpIfNull, runItems_append, runItems_ops hrun, runItems_cons, runItems_nil]
  refine ⟨m', hsim', ?_⟩
  by_cases hnull : (s.cells step.resvalue).isnull = null
  · rw [if_pos hnull]
    exact .inr (item_jumpOut_jump (cmpZero_jump hr (by rw [boolByte_beq_zero, hnull])))
  · rw [if_neg hnull]
    exact .inl ⟨item_jumpOut_next (cmpZero_next hr (by rw [boolByte_beq_zero, Bool.eq_not_of_ne hnull])), rfl⟩

/-- A jump on null and on false. -/
theorem jumpIfNotTrue_arrives (jumpdone : Nat) :
    Arrives t live flags next (runItems (Instr.exec t) (.running m) (emitJumpIfNotTrue opno step.resvalue jumpdone))
      (if ((s.cells step.resvalue).isnull || !datumGetBool (s.cells step.resvalue).value) = true then jumpdone else next) s := by
  obtain ⟨m₁, hrun₁, hsim₁, hr₁⟩ := load_isnull hsim hlive hstep
  simp only [emitJumpIfNotTrue, runItems_append, runItems_ops hrun₁, runItems_cons, runItems_nil]
  cases hnull : (s.cells step.resvalue).isnull with
  | true =>
    rw [item_jumpOut_jump (cmpZero_jump hr₁ (by rw [boolByte_beq_zero, hnull]; rfl)), runItems_left]
    exact ⟨m₁, hsim₁, .inr rfl⟩
  | false =>
    obtain ⟨m₂, hrun₂, hsim₂, hr₂⟩ := load_value hsim₁ hlive hstep hnull
    rw [item_jumpOut_next (cmpZero_next hr₁ (by rw [boolByte_beq_zero, hnull])), runItems_ops hrun₂]
    refine ⟨m₂, hsim₂, ?_⟩
    cases hvalue : datumGetBool (s.cells step.resvalue).value with
    | true => exact .inl ⟨item_jumpOut_next (cmpZero_next hr₂ (by rw [beq_zero, hvalue])), rfl⟩
    | false => exact .inr (item_jumpOut_jump (cmpZero_jump hr₂ (by rw [beq_zero, hvalue, Bool.not_false])))

/-- A qualification that is null or false stores false and jumps; one that is true goes on. -/
theorem qual_arrives (jumpdone next : Nat) :
    if ((s.cells step.resvalue).isnull || !datumGetBool (s.cells step.resvalue).value) = true then
      Arrives t live flags next (runItems (Instr.exec t) (.running m) (emitQual opno step.resvalue jumpdone)) jumpdone
        (s.store step.resvalue ⟨boolGetDatum false, false⟩)
    else Arrives t live flags next (runItems (Instr.exec t) (.running m) (emitQual opno step.resvalue jumpdone)) next s := by
  obtain ⟨m₁, hrun₁, hsim₁, hr₁⟩ := load_isnull hsim hlive hstep
  have hfail := fun m₂ (hsim₂ : Sim t.env live flags m₂ s) => qualFail_arrives hsim₂ hstep jumpdone next
  simp only [runItems_append, runItems_cons, runItems_nil] at hfail
  simp only [emitQual, runItems_append, runItems_ops hrun₁, runItems_cons, runItems_nil]
  cases hnull : (s.cells step.resvalue).isnull with
  | true =>
    rw [Bool.true_or, if_pos rfl, item_jumpTo_jump (cmpZero_jump hr₁ (by rw [boolByte_beq_zero, hnull]; rfl))]
    simp only [runItems_skipping_ops, item_skipping_jumpTo, item_skipping_mark_self]
    exact hfail m₁ hsim₁
  | false =>
    obtain ⟨m₂, hrun₂, hsim₂, hr₂⟩ := load_value hsim₁ hlive hstep hnull
    rw [item_jumpTo_next (cmpZero_next hr₁ (by rw [boolByte_beq_zero, hnull])), runItems_ops hrun₂]
    cases hvalue : datumGetBool (s.cells step.resvalue).value with
    | true =>
      rw [item_jumpTo_jump (cmpZero_jump hr₂ (by rw [beq_zero, hvalue]; rfl))]
      simp only [Bool.false_or, Bool.not_true, Bool.false_eq_true, if_false, runItems_skipping_ops, item_skipping_jumpOut,
        item_skipping_mark_of_ne Nat.zero_ne_one, item_skipping_mark_self]
      exact ⟨m₂, hsim₂, .inl ⟨rfl, rfl⟩⟩
    | false =>
      rw [item_jumpTo_next (cmpZero_next hr₂ (by rw [beq_zero, hvalue]))]
      exact hfail m₂ hsim₂

end Loaded

/-! ## AND and OR -/

section Chain

variable {n : Nat} (hflag : stepFieldWord step .anynull = .ptr (.anynull n)) (hstep : t.steps[opno]? = some step)

include hflag hstep

/-- The flag of a chain is set or cleared. -/
theorem run_setAnynull (b : Datum) :
    ∃ m', execOps (Instr.exec t) [.stepField 0 opno .anynull, .storeU8 (.r 0) .here (.imm b)] m = some m' ∧ m'.words = m.words ∧
      m'.bytes = Function.update m.bytes (.anynull n) (b.setWidth 8) := by
  refine ⟨_, (execOps_cons (exec_stepField hstep _) _).trans (execOps_cons (exec_storeU8 (p := .anynull n) (base_r ?_) rfl
    (operand_imm _ b)) _), rfl, rfl⟩
  rw [regs_setReg, if_pos rfl, hflag]

/-- The flag of a chain is loaded. -/
theorem run_loadAnynull :
    ∃ m', execOps (Instr.exec t) [.stepField 0 opno .anynull, .loadU8 0 (.r 0) .here] m = some m' ∧ m'.words = m.words ∧
      m'.bytes = m.bytes ∧ m'.regs 0 = .datum ((m.bytes (.anynull n)).setWidth 64) := by
  refine ⟨_, (execOps_cons (exec_stepField hstep _) _).trans (execOps_cons (exec_loadU8 (p := .anynull n) (base_r ?_) rfl) _),
    rfl, rfl, rfl⟩
  rw [regs_setReg, if_pos rfl, hflag]

/-- The end of a chain: a null before makes the result null. -/
theorem boolEnd_runs (a : Bool) (ha : m.bytes (.anynull n) = boolByte a) :
    ∃ m', runItems (Instr.exec t) (.running m)
        (ops [.stepField 0 opno .anynull, .loadU8 0 (.r 0) .here] ++ [.jumpTo (.cmpZero true 0) 2] ++
          ops (emitStoreResnull opno step.resvalue (.imm 1) ++ emitStoreResvalue opno step.resvalue (.imm 0)) ++ [.mark 2]) =
        .running m' ∧
      m'.words = (if a then Function.update m.words (.value step.resvalue) 0 else m.words) ∧
      m'.bytes = (if a then Function.update m.bytes (.isnull step.resvalue) 1 else m.bytes) := by
  obtain ⟨m₁, hrun₁, hw₁, hb₁, hr₁⟩ := run_loadAnynull (m := m) hflag hstep
  rw [ha] at hr₁
  simp only [runItems_append, runItems_ops hrun₁, runItems_cons, runItems_nil]
  cases a with
  | true =>
    obtain ⟨m₂, hrun₂, hw₂, hb₂⟩ := run_storeNullValue (m := m₁) hstep 1 0
    rw [item_jumpTo_next (cmpZero_next hr₁ rfl), runItems_ops hrun₂, item_running_mark]
    exact ⟨m₂, rfl, hw₁ ▸ hw₂, hb₁ ▸ hb₂⟩
  | false =>
    have hcmp : Instr.exec t (.cmpZero true 0) m₁ = .jump m₁ := cmpZero_jump hr₁ rfl
    rw [item_jumpTo_jump hcmp, runItems_skipping_ops, item_skipping_mark_self]
    exact ⟨m₁, rfl, hw₁, hb₁⟩

end Chain

/-- The part of an AND or OR step between the clearing of the flag and the end of the chain. -/
def boolCheck (stop : Bool) (opno : Nat) (c : Cell) (jumpdone : Nat) : List (Item (Instr G)) :=
  ops (emitLoadResnull opno c 0) ++ [.jumpTo (.cmpZero false 0) 0] ++
    ops (emitLoadResvalue opno c 0) ++ [.jumpOut (.cmpZero (!stop) 0) jumpdone, .jumpTo .jump 1, .mark 0] ++
    ops [.stepField 0 opno .anynull, .storeU8 (.r 0) .here (.imm 1)] ++ [.mark 1]

section Check

variable (hsim : Sim t.env live flags m s) (hlive : live step.resvalue) (hstep : t.steps[opno]? = some step) (stop : Bool)
  (jumpdone : Nat)

include hsim hlive hstep

/-- A null sets the flag. -/
theorem boolCheck_null {n : Nat} (hflag : stepFieldWord step .anynull = .ptr (.anynull n))
    (hnull : (s.cells step.resvalue).isnull = true) :
    ∃ m', runItems (Instr.exec t) (.running m) (boolCheck stop opno step.resvalue jumpdone) = .running m' ∧
      m'.words = m.words ∧ m'.bytes = Function.update m.bytes (.anynull n) 1 := by
  obtain ⟨m₁, hrun₁, hw₁, hb₁, hr₁⟩ := loads_resnull (m := m) hstep 0
  rw [hsim.isnull hlive, hnull] at hr₁
  obtain ⟨m₂, hrun₂, hw₂, hb₂⟩ := run_setAnynull (m := m₁) hflag hstep 1
  simp only [boolCheck, runItems_append, runItems_ops hrun₁, runItems_cons, runItems_nil, item_jumpTo_jump (null_jump hr₁)]
  simp only [runItems_skipping_ops, item_skipping_jumpOut, item_skipping_jumpTo, item_skipping_mark_self, runItems_ops hrun₂,
    item_running_mark]
  exact ⟨m₂, rfl, hw₂.trans hw₁, hb₁ ▸ hb₂⟩

/-- A value that decides the chain leaves it. -/
theorem boolCheck_decided (hnull : (s.cells step.resvalue).isnull = false)
    (hvalue : datumGetBool (s.cells step.resvalue).value = stop) :
    ∃ m', runItems (Instr.exec t) (.running m) (boolCheck stop opno step.resvalue jumpdone) = .left jumpdone m' ∧
      Sim t.env live flags m' s := by
  obtain ⟨m₁, hrun₁, hsim₁, hr₁⟩ := load_isnull hsim hlive hstep
  obtain ⟨m₂, hrun₂, hsim₂, hr₂⟩ := load_value hsim₁ hlive hstep hnull
  simp only [boolCheck, runItems_append, runItems_ops hrun₁, runItems_cons, runItems_nil]
  rw [item_jumpTo_next (cmpZero_next hr₁ (by rw [boolByte_beq_zero, hnull])), runItems_ops hrun₂,
    item_jumpOut_jump (cmpZero_jump hr₂ (by rw [beq_zero, hvalue]))]
  simp only [item_left, runItems_left]
  exact ⟨m₂, rfl, hsim₂⟩

/-- Any other value goes on. -/
theorem boolCheck_open (hnull : (s.cells step.resvalue).isnull = false)
    (hvalue : datumGetBool (s.cells step.resvalue).value = !stop) :
    ∃ m', runItems (Instr.exec t) (.running m) (boolCheck stop opno step.resvalue jumpdone) = .running m' ∧
      Sim t.env live flags m' s := by
  obtain ⟨m₁, hrun₁, hsim₁, hr₁⟩ := load_isnull hsim hlive hstep
  obtain ⟨m₂, hrun₂, hsim₂, hr₂⟩ := load_value hsim₁ hlive hstep hnull
  simp only [boolCheck, runItems_append, runItems_ops hrun₁, runItems_cons, runItems_nil]
  rw [item_jumpTo_next (cmpZero_next hr₁ (by rw [boolByte_beq_zero, hnull])), runItems_ops hrun₂,
    item_jumpOut_next (cmpZero_next hr₂ (by rw [beq_zero, hvalue])), item_jumpTo_jump (exec_jump t m₂)]
  simp only [runItems_skipping_ops, item_skipping_mark_of_ne Nat.zero_ne_one, item_skipping_mark_self]
  exact ⟨m₂, rfl, hsim₂⟩

end Check

/-- A step of a chain before its last one. -/
theorem boolStep_arrives (hsim : Sim t.env live flags m s) (hlive : live step.resvalue) (hstep : t.steps[opno]? = some step) {n : Nat}
    (hflag : stepFieldWord step .anynull = .ptr (.anynull n)) {pos : BoolStepPos} (hpos : pos ≠ .last) (stop : Bool)
    (jumpdone pc : Nat) :
    Arrives t live flags (pc + 1) (runItems (Instr.exec t) (.running m) (emitBoolStep stop pos opno step.resvalue jumpdone))
      (execBoolStep stop pos n jumpdone step.resvalue pc s).1 (execBoolStep stop pos n jumpdone step.resvalue pc s).2 := by
  -- The first step clears the flag on both sides; from there on the first and the other steps are alike.
  have hclear : ∃ m₁, runItems (Instr.exec t) (.running m)
        (if pos = .first then ops [.stepField 0 opno .anynull, .storeU8 (.r 0) .here (.imm 0)] else []) = .running m₁ ∧
      Sim t.env live flags m₁ (if pos = .first then s.setAnynull n false else s) := by
    split
    · obtain ⟨m₁, hrun, hw, hb⟩ := run_setAnynull (m := m) hflag hstep 0
      refine ⟨m₁, runItems_ops hrun, hsim.flag hw hb (fun _ h => h) rfl rfl (fun k hk => Function.update_of_ne hk _ _) fun _ => ?_⟩
      rw [EvalState.anynull_setAnynull, Function.update_self]
      rfl
    · exact ⟨m, rfl, hsim⟩
  obtain ⟨m₁, hrun₁, hsim₁⟩ := hclear
  have hcells : ∀ c, (if pos = .first then s.setAnynull n false else s).cells c = s.cells c := by
    intro c
    split <;> rfl
  have hitems : emitBoolStep (G := G) stop pos opno step.resvalue jumpdone =
      (if pos = .first then ops [.stepField 0 opno .anynull, .storeU8 (.r 0) .here (.imm 0)] else []) ++
        boolCheck stop opno step.resvalue jumpdone := by
    rw [emitBoolStep, if_neg hpos, List.append_nil, boolCheck]
    simp only [List.append_assoc]
  have hexec : execBoolStep stop pos n jumpdone step.resvalue pc s =
      if (s.cells step.resvalue).isnull then (pc + 1, (if pos = .first then s.setAnynull n false else s).setAnynull n true)
      else if datumGetBool (s.cells step.resvalue).value = stop then
        (jumpdone, if pos = .first then s.setAnynull n false else s)
      else (pc + 1, if pos = .first then s.setAnynull n false else s) := by
    cases pos with
    | first => rfl
    | step => rfl
    | last => exact absurd rfl hpos
  rw [hitems, runItems_append, hrun₁, hexec]
  cases hnull : (s.cells step.resvalue).isnull with
  | true =>
    obtain ⟨m₂, hrun₂, hw₂, hb₂⟩ := boolCheck_null hsim₁ hlive hstep stop jumpdone hflag (by rw [hcells, hnull])
    refine ⟨m₂, hsim₁.flag hw₂ hb₂ (fun _ h => h) rfl rfl (fun k hk => Function.update_of_ne hk _ _) fun _ => ?_, .inl ⟨hrun₂, rfl⟩⟩
    rw [if_pos rfl, EvalState.anynull_setAnynull, Function.update_self]
    rfl
  | false =>
    by_cases hvalue : datumGetBool (s.cells step.resvalue).value = stop
    · obtain ⟨m₂, hrun₂, hsim₂⟩ := boolCheck_decided hsim₁ hlive hstep stop jumpdone (by rw [hcells, hnull])
        (by rw [hcells, hvalue])
      rw [if_neg Bool.false_ne_true, if_pos hvalue]
      exact ⟨m₂, hsim₂, .inr hrun₂⟩
    · obtain ⟨m₂, hrun₂, hsim₂⟩ := boolCheck_open hsim₁ hlive hstep stop jumpdone (by rw [hcells, hnull])
        (by rw [hcells, Bool.eq_not_of_ne hvalue])
      rw [if_neg Bool.false_ne_true, if_neg hvalue]
      exact ⟨m₂, hsim₂, .inl ⟨hrun₂, rfl⟩⟩

/-- The last step of a chain; its flag is not in use any more. -/
theorem boolLast_arrives (hsim : Sim t.env live flags m s) (hlive : live step.resvalue) (hstep : t.steps[opno]? = some step) {n : Nat}
    (hflag : stepFieldWord step .anynull = .ptr (.anynull n)) (hn : flags n) {flags' : Nat → Prop} (hflags : ∀ k, flags' k → flags k)
    (hnot : ¬ flags' n) (stop : Bool) (pc : Nat) :
    Arrives t live flags' (pc + 1) (runItems (Instr.exec t) (.running m) (emitBoolStep stop .last opno step.resvalue (pc + 1)))
      (execBoolStep stop .last n (pc + 1) step.resvalue pc s).1 (execBoolStep stop .last n (pc + 1) step.resvalue pc s).2 := by
  have hitems : emitBoolStep (G := G) stop .last opno step.resvalue (pc + 1) =
      boolCheck stop opno step.resvalue (pc + 1) ++
        (ops [.stepField 0 opno .anynull, .loadU8 0 (.r 0) .here] ++ [.jumpTo (.cmpZero true 0) 2] ++
          ops (emitStoreResnull opno step.resvalue (.imm 1) ++ emitStoreResvalue opno step.resvalue (.imm 0)) ++ [.mark 2]) := by
    rw [emitBoolStep, if_neg (by simp), if_pos rfl, List.nil_append, boolCheck]
  rw [hitems, runItems_append, execBoolStep]
  cases hnull : (s.cells step.resvalue).isnull with
  | true =>
    -- The code sets the flag and then stores a null again; the interpreter leaves the null as it is.
    obtain ⟨m₂, hrun₂, hw₂, hb₂⟩ := boolCheck_null hsim hlive hstep stop (pc + 1) hflag hnull
    have hsim₂ : Sim t.env live flags' m₂ s :=
      hsim.flag hw₂ hb₂ hflags rfl rfl (fun _ _ => rfl) fun h => absurd h hnot
    obtain ⟨m₃, hrun₃, hw₃, hb₃⟩ := boolEnd_runs (m := m₂) hflag hstep true (by rw [hb₂, Function.update_self]; rfl)
    refine ⟨m₃, ?_, .inl ⟨by rw [hrun₂, hrun₃], rfl⟩⟩
    have hstore := hsim₂.store (d := s.cells step.resvalue) hw₃ hb₃ ⟨by rw [hnull]; rfl, fun h => absurd (hnull.symm.trans h) (by simp)⟩
    have hsame : s.store step.resvalue (s.cells step.resvalue) = s := by
      rw [EvalState.store, Function.update_eq_self]
    rw [if_pos rfl]
    exact hsame ▸ hstore
  | false =>
    rw [if_neg Bool.false_ne_true]
    by_cases hvalue : datumGetBool (s.cells step.resvalue).value = stop
    · obtain ⟨m₂, hrun₂, hsim₂⟩ := boolCheck_decided hsim hlive hstep stop (pc + 1) hnull hvalue
      rw [if_pos hvalue]
      exact ⟨m₂, hsim₂.mono (fun _ h => h) hflags, .inr (by rw [hrun₂, runItems_left])⟩
    · obtain ⟨m₂, hrun₂, hsim₂⟩ := boolCheck_open hsim hlive hstep stop (pc + 1) hnull (Bool.eq_not_of_ne hvalue)
      obtain ⟨m₃, hrun₃, hw₃, hb₃⟩ := boolEnd_runs (m := m₂) hflag hstep (s.anynull n) (hsim₂.anynull n hn)
      rw [if_neg hvalue]
      refine ⟨m₃, ?_, .inl ⟨by rw [hrun₂, hrun₃], by split <;> rfl⟩⟩
      have hsim₂' := hsim₂.mono (fun _ h => h) hflags
      cases hany : s.anynull n with
      | true =>
        rw [hany, if_pos rfl] at hw₃ hb₃
        rw [if_pos rfl]
        exact hsim₂'.store hw₃ hb₃ ⟨rfl, fun h => absurd h (by simp)⟩
      | false =>
        rw [hany, if_neg Bool.false_ne_true] at hw₃ hb₃
        rw [if_neg Bool.false_ne_true]
        exact hsim₂'.congr hw₃ hb₃

end CompileExprAux
end PgJitter
