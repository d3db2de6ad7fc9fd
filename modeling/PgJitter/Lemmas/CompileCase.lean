import PgJitter.Lemmas.CaseEval
import PgJitter.Lemmas.CompileEvents

/-!
# Helpers for `CompileExpr.lean`: the code of a CASE pattern

The call of a pattern stands for the steps that it covers: the machine holds after it what the interpreter holds after these steps, as
far as it is still in use.
-/

namespace PgJitter
namespace CompileExprAux

open Assembly Backpatch LeftScan Relation CaseDetectAux

variable {G : Type} {t : ExprTarget G} {steps : List (ExprEvalStep G)} {p : CasePattern} {m : Mach G} {s : EvalState}

/-! ## The call -/

section Call

variable {α β : Type} [LinearOrder α] [LinearOrder β] {F : FloatFormats α β} {T : PgText} {live : Cell → Prop} {flags : Nat → Prop}
  {first last : ExprEvalStep G} (hsim : Sim t.env live flags m s) (hlive : live first.resvalue)
    (hfirst : t.steps[p.startOpno]? = some first)
  (hlast : t.steps[p.endOpno]? = some last)

include hlast

/-- The path of a null. -/
theorem caseNull_run : ∃ m', execOps (Instr.exec t)
    (.mov 0 (.imm p.desc.defaultVal) :: emitStoreResvalue p.endOpno last.resvalue (.reg 0) ++
      emitStoreResnull p.endOpno last.resvalue (.imm 0)) m = some m' ∧
    m'.words = Function.update m.words (.value last.resvalue) p.desc.defaultVal ∧
    m'.bytes = Function.update m.bytes (.isnull last.resvalue) 0 := by
  have hload : Loads t m [.mov 0 (.imm p.desc.defaultVal)] 0 p.desc.defaultVal :=
    ⟨_, execOps_cons (exec_movImm 0 p.desc.defaultVal) _, rfl, rfl, rfl⟩
  exact hload.storeNull Nat.zero_ne_one hlast 0

include hfirst

/-- The path of a value: the call of the helper. -/
theorem caseHelper_run {k : Nat} (hdesc : descriptorAt t.patterns (p.startOpno + 2) = some k) (hk : t.patterns[k]? = some p) :
    ∃ m', execOps (Instr.exec t) (emitLoadResvalue p.startOpno first.resvalue 0 ++ [.stepDesc 1 (p.startOpno + 2), .callHelper p.info] ++
        emitStoreResvalue p.endOpno last.resvalue (.reg 0) ++ emitStoreResnull p.endOpno last.resvalue (.imm 0)) m = some m' ∧
      m'.words = Function.update m.words (.value last.resvalue) (t.helper p (m.words (.value first.resvalue))) ∧
      m'.bytes = Function.update m.bytes (.isnull last.resvalue) 0 := by
  obtain ⟨m₁, hrun₁, hw₁, hb₁, hr₁⟩ := loads_resvalue (m := m) hfirst 0
  have hstepDesc : Instr.exec t (.stepDesc 1 (p.startOpno + 2)) m₁ = .next (m₁.setReg 1 (.desc k)) := by
    simp only [Instr.exec, hdesc, Option.map_some, nextOf]
  have hvalue : (m₁.setReg 1 (.desc k)).datum 0 = some (m.words (.value first.resvalue)) :=
    datum_reg (by rw [regs_setReg, if_neg (by decide), hr₁])
  have haddr : (m₁.setReg 1 (.desc k)).regs 1 = .desc k := by rw [regs_setReg, if_pos rfl]
  have hcall : Instr.exec t (.callHelper p.info) (m₁.setReg 1 (.desc k)) =
      .next ((m₁.setReg 1 (.desc k)).returned (t.helper p (m.words (.value first.resvalue)))) := by
    simp only [Instr.exec, hvalue, haddr, hk, Option.bind_some, if_true, nextOf]
  have hload : Loads t m (emitLoadResvalue p.startOpno first.resvalue 0 ++ [.stepDesc 1 (p.startOpno + 2), .callHelper p.info]) 0
      (t.helper p (m.words (.value first.resvalue))) :=
    ⟨_, execOps_trans hrun₁ ((execOps_cons hstepDesc _).trans (execOps_cons hcall _)), hw₁, hb₁, rfl⟩
  exact hload.storeNull Nat.zero_ne_one hlast 0

include hsim hlive

/-- The code of a pattern leaves it at its end, with what the call gives in the location of the result. -/
theorem case_run {k : Nat} (hdesc : descriptorAt t.patterns (p.startOpno + 2) = some k) (hk : t.patterns[k]? = some p)
    (hhelper : ∀ v, t.helper p v = p.helperResult F T v) :
    ∃ m', runItems (Instr.exec t) (.running m) (emitCase p first.resvalue last.resvalue) = .left p.elseEndOpno m' ∧
      m'.words = Function.update m.words (.value last.resvalue) (p.callResult F T (s.cells first.resvalue)) ∧
      m'.bytes = Function.update m.bytes (.isnull last.resvalue) 0 := by
  obtain ⟨m₁, hrun₁, hw₁, hb₁, hr₁⟩ := loads_resnull (m := m) hfirst 0
  rw [hsim.isnull hlive] at hr₁
  simp only [emitCase, runItems_append, runItems_ops hrun₁, runItems_cons, runItems_nil]
  rw [CasePattern.callResult]
  cases hnull : (s.cells first.resvalue).isnull with
  | true =>
    rw [hnull] at hr₁
    obtain ⟨m₂, hrun₂, hw₂, hb₂⟩ := caseNull_run (m := m₁) hlast
    refine ⟨m₂, ?_, by rw [hw₂, hw₁, if_pos rfl], by rw [hb₂, hb₁]⟩
    simp only [item_jumpTo_jump (null_jump hr₁), runItems_skipping_ops, item_skipping_jumpOut, item_skipping_mark_self,
      runItems_ops hrun₂, item_jumpOut_jump (exec_jump t m₂)]
  | false =>
    obtain ⟨m₂, hrun₂, hw₂, hb₂⟩ := caseHelper_run (m := m₁) hfirst hlast hdesc hk
    refine ⟨m₂, ?_, ?_, by rw [hb₂, hb₁]⟩
    · rw [item_jumpTo_next (cmpZero_next hr₁ (by rw [boolByte_beq_zero, hnull])), runItems_ops hrun₂,
        item_jumpOut_jump (exec_jump t m₂)]
      simp only [item_left, runItems_left]
    · rw [hw₂, hw₁, hhelper, hsim.value hlive hnull, if_neg Bool.false_ne_true]

end Call

/-! ## The steps -/

section Steps

variable {env : ExprEnv G} {s₀ : EvalState} {c : Cell} {d : NullableDatum}

/-- What a load loads once more is the same. -/
theorem loaded_again {op : EvalOp G} (h : op.loaded env s = some d) : op.loaded env (s.store c d) = some d := by
  cases op with
  | caseTestval value =>
    cases value with
    | none => exact h
    | some x =>
      rw [EvalOp.loaded, EvalState.cells_store, Function.update_apply]
      split
      · rfl
      · exact h
  | _ => exact h

/-- The interpreter comes to the second step of a pattern from the first one, which loads. -/
theorem comesTo_second (hplan : PlanSteps steps) (hself : p.ByItself steps c) (hlong : p.startOpno + 2 < p.elseEndOpno) {load : EvalOp G}
    (hload : opAt steps p.startOpno = some load) (hloads : ∀ s, ∃ d, load.loaded env s = some d)
    (h : ComesTo steps env s₀ (p.startOpno + 1) s) :
    ∃ s₁ c₀ d, ComesTo steps env s₀ p.startOpno s₁ ∧ resAt steps p.startOpno = some c₀ ∧ load.loaded env s₁ = some d ∧
      s = s₁.store c₀ d := by
  rcases ReflTransGen.cases_tail h with heq | ⟨⟨pc, s₁⟩, hrun, hturn⟩
  · exact absurd (congrArg Prod.fst heq) (Nat.succ_ne_zero _)
  · have hlt : pc < p.startOpno + 1 := interpStep_lt hplan.forward hturn
    obtain ⟨step, hstep, hexec⟩ := hturn
    dsimp only at hstep hexec
    have hpc : pc = p.startOpno := by
      rcases (execStep_frame hexec).goes with heq | hmem
      · omega
      · have hinto := hself.entered pc step.op (by rw [opAt, hstep, Option.map_some]) _ hmem (Nat.lt_succ_self _) (by omega)
        omega
    subst hpc
    obtain ⟨d, hd⟩ := hloads s₁
    rw [opAt, hstep, Option.map_some, Option.some.injEq] at hload
    obtain ⟨op, c₀⟩ := step
    subst hload
    rw [CaseEvalAux.execStep_load hd] at hexec
    cases hexec
    exact ⟨s₁, c₀, d, hrun, by rw [resAt, hstep, Option.map_some], hd, rfl⟩

/-- The steps of a pattern from its second one on, where its load has been done. -/
theorem pattern_run {stop : Nat} {s' : EvalState} {op : EvalOp G} {c₀ : Cell} (hop : opAt steps p.startOpno = some op)
    (hres : resAt steps p.startOpno = some c₀) (hload : op.loaded env s = some d)
    (hheld : s.cells c₀ = d) (hlt : p.startOpno < stop) (h : execUntil env steps stop steps.length p.startOpno s = some s') :
    ReflTransGen (InterpStep env steps) (p.startOpno + 1, s) (stop, s') := by
  have hfirst : execStep env ⟨op, c₀⟩ p.startOpno s = some (p.startOpno + 1, s) := by
    have hsame : s.store c₀ d = s := by rw [← hheld, EvalState.store, Function.update_eq_self]
    rw [CaseEvalAux.execStep_load hload, hsame]
  rcases ReflTransGen.cases_head (run_of_execUntil h) with heq | ⟨b, ⟨step, hstep, hexec⟩, hrest⟩
  · exact absurd (congrArg Prod.fst heq) (Nat.ne_of_lt hlt)
  · rw [CaseEvalAux.stepAt hop hres, Option.some.injEq] at hstep
    subst hstep
    rw [hfirst, Option.some.injEq] at hexec
    exact hexec ▸ hrest

/-- What is in use after a pattern is what it was before, but for its result. -/
theorem pattern_sim {m' : Mach G} {s' : EvalState} {v : Datum} (hforward : ForwardJumps steps) (hself : p.ByItself steps c)
    (hlong : p.startOpno + 2 < p.elseEndOpno) (hrun : ReflTransGen (InterpStep env steps) (p.startOpno + 1, s) (p.elseEndOpno, s'))
    (hsim : Sim env (LiveFrom steps (p.startOpno + 1)) (FlagFrom steps (p.startOpno + 1)) m s)
    (hresult : s'.cells c = ⟨v, false⟩) (hw : m'.words = Function.update m.words (.value c) v)
    (hb : m'.bytes = Function.update m.bytes (.isnull c) 0) :
    Sim env (LiveFrom steps p.elseEndOpno) (FlagFrom steps p.elseEndOpno) m' s' := by
  obtain ⟨hcells, hflags, hcolumns⟩ := run_frame hforward hrun
  have hstored : Sim env (LiveFrom steps (p.startOpno + 1)) (FlagFrom steps (p.startOpno + 1)) m' (s.store c ⟨v, false⟩) :=
    hsim.store hw hb ⟨rfl, fun _ => rfl⟩
  refine ⟨fun x hx => ?_, fun k => ?_, fun n hn => ?_, hstored.slots, hstored.caseValue⟩
  · have hold := hstored.cells x (LiveFrom.mono (by omega) hx)
    rw [EvalState.cells_store, Function.update_apply] at hold
    split at hold
    · rename_i heq
      rw [heq] at hold ⊢
      rwa [hresult]
    · rename_i hne
      rw [hcells x fun j hj hj' hres => ?_]
      · exact hold
      · rcases hself.cells j x hj hj' hres with heq | hdead
        · exact hne heq
        · exact hdead hx
  · rw [hcolumns fun j op hj hj' => hself.columns j op hj hj']
    exact hstored.result k
  · rw [hflags n fun j op hj hj' hop hused => hself.flags j op n hj hj' hop hused hn]
    exact hstored.anynull n (FlagFrom.mono (by omega) hn)

end Steps

/-- From the second step of a pattern the code comes to its end, with what the call gives in the location of the result. -/
theorem case_stores {α β : Type} [LinearOrder α] [LinearOrder β] {F : FloatFormats α β} {T : PgText} {c₀ c : Cell} {k l : Nat}
    {P : Program (Instr G)} {lbl : Nat → Option Nat} {loc : Nat → Nat} {pos : Nat} (hres₀ : resAt steps p.startOpno = some c₀)
    (hresult : resAt steps p.endOpno = some c) (hlive : LiveFrom steps (p.startOpno + 1) c₀)
    (hres : ∀ i, resAt t.steps i = resAt steps i) (hdesc : descriptorAt t.patterns (p.startOpno + 2) = some k)
    (hk : t.patterns[k]? = some p) (hhelper : ∀ v, t.helper p v = p.helperResult F T v)
    (hat : At P lbl loc pos (caseBlock t.steps p).items) (hl : lbl p.elseEndOpno = some l)
    (hsim : Sim t.env (LiveFrom steps (p.startOpno + 1)) (FlagFrom steps (p.startOpno + 1)) m s) :
    ∃ m', Runs (Instr.exec t) P (pos, m) (l, m') ∧ m'.words = Function.update m.words (.value c) (p.callResult F T (s.cells c₀)) ∧
      m'.bytes = Function.update m.bytes (.isnull c) 0 := by
  obtain ⟨first, hfirst, rfl⟩ := Option.map_eq_some_iff.1 ((hres p.startOpno).trans hres₀)
  obtain ⟨last, hlast, rfl⟩ := Option.map_eq_some_iff.1 ((hres p.endOpno).trans hresult)
  have hitems : (caseBlock t.steps p).items = emitCase p first.resvalue last.resvalue := by
    simp only [caseBlock, resAt, hfirst, hlast, Option.map_some]
  rw [hitems] at hat
  obtain ⟨m', hcode, hw, hb⟩ := case_run hsim hlive hfirst hlast hdesc hk hhelper
  exact ⟨m', runs_out hat hcode hl, hw, hb⟩

/-- From the second step of a pattern the code comes to its end along with the interpreter. -/
theorem case_lands {α β : Type} [LinearOrder α] [LinearOrder β] {F : FloatFormats α β} {T : PgText} {m₀ s₀ : EvalState} {c : Cell}
    {isValue : Datum → Prop} {load : EvalOp G} {k : Nat} {P : Program (Instr G)} {lbl : Nat → Option Nat} {loc : Nat → Nat} {pos : Nat}
    (hplan : PlanSteps steps) (hreplace : p.Replaceable steps F T t.env m₀ s₀ c isValue) (hlong : p.startOpno + 2 < p.elseEndOpno)
    (hload : opAt steps p.startOpno = some load) (hloads : ∀ s, ∃ d, load.loaded t.env s = some d)
    (hres : ∀ i, resAt t.steps i = resAt steps i) (hdesc : descriptorAt t.patterns (p.startOpno + 2) = some k)
    (hk : t.patterns[k]? = some p)
    (hhelper : ∀ v, t.helper p v = p.helperResult F T v) (hconst : SameConstants steps m₀ s)
    (hcomes : ComesTo steps t.env s₀ (p.startOpno + 1) s) (hat : At P lbl loc pos (caseBlock t.steps p).items)
    (hlabel : (lbl p.elseEndOpno).isSome)
    (hsim : Sim t.env (LiveFrom steps (p.startOpno + 1)) (FlagFrom steps (p.startOpno + 1)) m s) :
    ∃ s', ReflTransGen (InterpStep t.env steps) (p.startOpno + 1, s) (p.elseEndOpno, s') ∧
      Lands t P lbl steps pos m p.elseEndOpno s' := by
  obtain ⟨s₁, c₀, d, hcomes₁, hres₀, hloaded₁, rfl⟩ := comesTo_second hplan hreplace.byItself hlong hload hloads hcomes
  have hheld : (s₁.store c₀ d).cells c₀ = d := Function.update_self ..
  have hloaded : load.loaded t.env (s₁.store c₀ d) = some d := loaded_again hloaded₁
  -- The call gives what the steps give from the first one on, which loads again what is there already.
  have hagrees : p.linearResult t.env steps c (s₁.store c₀ d) = some ⟨p.callResult F T d, false⟩ := by
    refine hreplace.agrees _ d hconst (by rw [hload, Option.bind_some, hloaded]) fun hnull => ?_
    refine hreplace.values s₁ d.value hcomes₁ ?_
    rw [hload, Option.bind_some, hloaded₁, ← hnull]
  obtain ⟨s', huntil, hresult⟩ := Option.map_eq_some_iff.1 hagrees
  have hrun := pattern_run hload hres₀ hloaded hheld (by omega) huntil
  obtain ⟨l, hl⟩ := Option.isSome_iff_exists.1 hlabel
  obtain ⟨m', hcode, hw, hb⟩ :=
    case_stores hres₀ hreplace.result (hreplace.byItself.loaded c₀ hres₀) hres hdesc hk hhelper hat hl hsim
  rw [hheld] at hw
  exact ⟨s', hrun, l, m', hl, hcode, pattern_sim hplan.forward hreplace.byItself hlong hrun hsim hresult hw hb⟩

end CompileExprAux
end PgJitter
