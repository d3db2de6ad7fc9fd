import PgJitter.Lemmas.CompileBlocks

/-!
# Helpers for `CompileExpr.lean`: the events of the main loop

What the code of one event does: that of a single step, that of a batch of columns, and that of a pattern.
-/

namespace PgJitter
namespace CompileExprAux

open Assembly Backpatch LeftScan Relation

variable {G : Type} {t : ExprTarget G} {cfg : CompileConfig G} {steps : List (ExprEvalStep G)}

/-! ## What is in use -/

section Use

variable {pc pc' : Nat}

theorem LiveFrom.mono (hle : pc ≤ pc') {c : Cell} (h : LiveFrom steps pc' c) : LiveFrom steps pc c := by
  obtain ⟨j, step, hj, hstep, hc⟩ := h
  exact ⟨j, step, Nat.le_trans hle hj, hstep, hc⟩

theorem FlagFrom.mono (hle : pc ≤ pc') {n : Nat} (h : FlagFrom steps pc' n) : FlagFrom steps pc n := by
  obtain ⟨j, op, hj, hop, hn⟩ := h
  exact ⟨j, op, Nat.le_trans hle hj, hop, hn⟩

/-- What a step reads is live there. -/
theorem liveFrom_reads {step : ExprEvalStep G} (hstep : steps[pc]? = some step) {c : Cell} (hc : c ∈ step.reads) : LiveFrom steps pc c :=
  ⟨pc, step, Nat.le_refl _, hstep, hc⟩

/-- The flag of a step is in use there. -/
theorem flagFrom_op {op : EvalOp G} (hop : opAt steps pc = some op) {n : Nat} (hn : op.anynull? = some n) : FlagFrom steps pc n :=
  ⟨pc, op, Nat.le_refl _, hop, hn⟩

end Use

/-- The code comes to the label of a step, and the machine holds there what the interpreter holds. -/
def Lands (t : ExprTarget G) (P : Program (Instr G)) (lbl : Nat → Option Nat) (steps : List (ExprEvalStep G)) (pos : Nat) (m : Mach G)
    (pc : Nat) (s : EvalState) : Prop :=
  ∃ l m', lbl pc = some l ∧ Runs (Instr.exec t) P (pos, m) (l, m') ∧ Sim t.env (LiveFrom steps pc) (FlagFrom steps pc) m' s

variable {P : Program (Instr G)} {lbl : Nat → Option Nat} {loc : Nat → Nat} {pos next pc : Nat} {m : Mach G} {s : EvalState}

/-- Code of a step that is followed by that of the next one lands where it arrives. -/
theorem lands_of_arrives {items : List (Item (Instr G))} (hat : At P lbl loc pos items) (hnext : lbl next = some (pos + size items))
    {live : Cell → Prop} {flags : Nat → Prop} (h : Arrives t live flags next (runItems (Instr.exec t) (.running m) items) pc s)
    (hlabel : (lbl pc).isSome) (hlive : ∀ c, LiveFrom steps pc c → live c) (hflags : ∀ n, FlagFrom steps pc n → flags n) :
    Lands t P lbl steps pos m pc s := by
  obtain ⟨m', hsim, ⟨hrun, rfl⟩ | hrun⟩ := h
  · exact ⟨_, m', hnext, runs_through hat hrun, hsim.mono hlive hflags⟩
  · obtain ⟨l, hl⟩ := Option.isSome_iff_exists.1 hlabel
    exact ⟨l, m', hl, runs_out hat hrun hl, hsim.mono hlive hflags⟩

/-! ## Single steps -/

section Step

variable {i : Nat} {step : ExprEvalStep G} (hplan : PlanSteps steps) (hcalls : CallsRight steps cfg t) (hblind : t.env.Blind)
  (hpaired : cfg.paired = t.paired) (hstep : steps[i]? = some step) (hcode : t.steps[i]? = some step)
  (hsim : Sim t.env (LiveFrom steps i) (FlagFrom steps i) m s)

include hplan hstep hcode hsim

/-- A step of a chain, at any place of it. -/
theorem chain_arrives (stop : Bool) (n jumpdone : Nat) (pos : BoolStepPos)
    (hop : step.op = .boolAndStep pos n jumpdone ∨ step.op = .boolOrStep pos n jumpdone) :
    Arrives t (LiveFrom steps i) (FlagFrom steps (i + 1)) (i + 1)
      (runItems (Instr.exec t) (.running m) (emitBoolStep stop pos i step.resvalue jumpdone))
      (execBoolStep stop pos n jumpdone step.resvalue i s).1 (execBoolStep stop pos n jumpdone step.resvalue i s).2 := by
  have hopAt : opAt steps i = some step.op := by rw [opAt, hstep, Option.map_some]
  have hlive : LiveFrom steps i step.resvalue := by
    refine liveFrom_reads hstep ?_
    rcases hop with hop | hop <;> simp [ExprEvalStep.reads, hop]
  have hflag : stepFieldWord step .anynull = .ptr (.anynull n) := by
    rcases hop with hop | hop <;> simp [stepFieldWord, hop]
  have hused : FlagFrom steps i n := by
    refine flagFrom_op hopAt ?_
    rcases hop with hop | hop <;> rw [hop] <;> rfl
  by_cases hpos : pos = .last
  · subst hpos
    obtain ⟨rfl, hnot⟩ := hplan.last i n jumpdone (by rw [hopAt]; exact hop.imp (congrArg some) (congrArg some))
    exact boolLast_arrives hsim hlive hcode hflag hused (fun _ => FlagFrom.mono (Nat.le_succ i)) hnot stop i
  · have harr := boolStep_arrives hsim hlive hcode hflag hpos stop jumpdone i
    obtain ⟨m', hsim', hgoes⟩ := harr
    exact ⟨m', hsim'.mono (fun _ h => h) fun _ => FlagFrom.mono (Nat.le_succ i), hgoes⟩

include hcalls hblind hpaired

/-- The code of a step that is emitted alone, and is not the end, brings the machine to the step that the interpreter goes to. -/
theorem step_arrives (halone : step.op.batchCode = none) (hend : step.op ≠ .done) :
    ∃ pc s', execStep t.env step i s = some (pc, s') ∧ Arrives t (LiveFrom steps i) (FlagFrom steps (i + 1)) (i + 1)
      (runItems (Instr.exec t) (.running m) (emitStep cfg t.steps i (i + 1) step)) pc s' := by
  have hopAt : opAt steps i = some step.op := by rw [opAt, hstep, Option.map_some]
  have hreads : ∀ c ∈ step.reads, LiveFrom steps i c := fun c => liveFrom_reads hstep
  have hnot : ∀ n targets, step.op ≠ .other n targets := fun n targets hop => hplan.known i n targets (hop ▸ hopAt)
  have hmono : ∀ {st : Status (Mach G)} {pc : Nat} {s' : EvalState}, Arrives t (LiveFrom steps i) (FlagFrom steps i) (i + 1) st pc s' →
      Arrives t (LiveFrom steps i) (FlagFrom steps (i + 1)) (i + 1) st pc s' := by
    rintro st pc s' ⟨m', hsim', hgoes⟩
    exact ⟨m', hsim'.mono (fun _ h => h) fun _ => FlagFrom.mono (Nat.le_succ i), hgoes⟩
  have hchain := chain_arrives hplan hstep hcode hsim
  obtain ⟨op, c⟩ := step
  cases op with
  | done => exact absurd rfl hend
  | const k => exact ⟨_, _, rfl, hmono (const_arrives hsim hcode rfl)⟩
  | var src attnum => cases halone
  | assignVar src attnum resultnum => cases halone
  | assignTmp resultnum => exact ⟨_, _, rfl, hmono (assignTmp_arrives hsim (hreads _ List.mem_cons_self) resultnum)⟩
  | funcExpr f n nargs =>
    have hargs : ∀ k < nargs, LiveFrom steps i (.arg n k) := fun k hk => hreads _ (List.mem_map_of_mem (List.mem_range.2 hk))
    exact ⟨_, _, rfl, hmono (funcExpr_arrives cfg hblind hsim hargs hcode rfl hpaired rfl (hcalls.plain i f n nargs hopAt))⟩
  | funcExprStrict f n nargs =>
    have hargs : ∀ k < nargs, LiveFrom steps i (.arg n k) := fun k hk => hreads _ (List.mem_map_of_mem (List.mem_range.2 hk))
    exact ⟨_, _, rfl, hmono (strictCall_arrives cfg hblind hsim hargs hcode rfl hpaired rfl (hcalls.strict i f n nargs hopAt))⟩
  | boolAndStep pos n jumpdone => exact ⟨_, _, rfl, hchain false n jumpdone pos (.inl rfl)⟩
  | boolOrStep pos n jumpdone => exact ⟨_, _, rfl, hchain true n jumpdone pos (.inr rfl)⟩
  | boolNotStep => exact ⟨_, _, rfl, hmono (boolNot_arrives hsim (hreads _ List.mem_cons_self) hcode)⟩
  | qual jumpdone =>
    have harr := qual_arrives hsim (hreads _ List.mem_cons_self) hcode jumpdone (i + 1)
    rw [execStep]
    dsimp only at harr ⊢
    split at harr
    · rename_i hfalse
      rw [if_pos hfalse]
      exact ⟨_, _, rfl, hmono harr⟩
    · rename_i htrue
      rw [if_neg htrue]
      exact ⟨_, _, rfl, hmono harr⟩
  | jump jumpdone => exact ⟨_, _, rfl, hmono ⟨m, hsim, .inr rfl⟩⟩
  | jumpIfNull jumpdone => exact ⟨_, _, rfl, hmono (jumpIfNull_arrives hsim (hreads _ List.mem_cons_self) hcode true jumpdone (i + 1))⟩
  | jumpIfNotNull jumpdone =>
    have harr := jumpIfNull_arrives hsim (hreads _ List.mem_cons_self) hcode false jumpdone (i + 1)
    have hgoes : (if (s.cells c).isnull = false then jumpdone else i + 1) = if (s.cells c).isnull then i + 1 else jumpdone := by
      cases (s.cells c).isnull <;> rfl
    rw [hgoes] at harr
    exact ⟨_, _, rfl, hmono harr⟩
  | jumpIfNotTrue jumpdone => exact ⟨_, _, rfl, hmono (jumpIfNotTrue_arrives hsim (hreads _ List.mem_cons_self) hcode jumpdone)⟩
  | nulltestIsNull =>
    have harr := nulltest_arrives hpaired hsim (hreads _ List.mem_cons_self) hcode false (i + 1)
    rw [Bool.xor_false] at harr
    exact ⟨_, _, rfl, hmono harr⟩
  | nulltestIsNotNull =>
    have harr := nulltest_arrives hpaired hsim (hreads _ List.mem_cons_self) hcode true (i + 1)
    rw [Bool.xor_true] at harr
    exact ⟨_, _, rfl, hmono harr⟩
  | caseTestval value =>
    have hvalue : ∀ c', value = some c' → LiveFrom steps i c' := by
      rintro c' rfl
      exact hreads c' List.mem_cons_self
    refine ⟨i + 1, s.store c (value.elim t.env.caseValue s.cells), ?_, hmono (caseTestval_arrives hsim hcode rfl hvalue)⟩
    cases value <;> rfl
  | other n targets => exact absurd rfl (hnot n targets)

end Step

/-! ## Batches -/

section Batch

variable {isTarget : Nat → Bool} {i j : Nat} {batch : Bool × VarSource} {env : ExprEnv G} {src : VarSource}

/-- The steps that are added to a batch are of its opcode, and no jump goes to them. -/
theorem batchEnd_steps {left : Nat} (hij : i < j) (hj : j ≤ batchEnd isTarget steps batch left i) :
    isTarget j = false ∧ (opAt steps j).bind EvalOp.batchCode = some batch := by
  induction left generalizing i with
  | zero => exact absurd hj (Nat.not_le.2 hij)
  | succ left ih =>
    rw [batchEnd] at hj
    split at hj
    · rename_i hnext
      by_cases heq : j = i + 1
      · rw [heq]
        exact ⟨hnext.2.1, hnext.2.2⟩
      · exact ih (by omega) hj
    · exact absurd hj (Nat.not_le.2 hij)

/-- The steps that are emitted with a first one. -/
theorem emitNext_steps (hij : i < j) (hj : j < emitNext isTarget steps i) :
    isTarget j = false ∧ ∃ batch, (opAt steps i).bind EvalOp.batchCode = some batch ∧ (opAt steps j).bind EvalOp.batchCode =
      some batch := by
  rw [emitNext] at hj
  split at hj
  · rename_i batch hbatch
    obtain ⟨htarget, hcode⟩ := batchEnd_steps hij (Nat.le_of_lt_succ hj)
    exact ⟨htarget, batch, hbatch, hcode⟩
  · omega

/-- All steps of a batch are of its opcode. -/
theorem emitNext_batch (isTarget : Nat → Bool) (hfirst : (opAt steps i).bind EvalOp.batchCode = some batch) (hij : i ≤ j)
    (hj : j < emitNext isTarget steps i) :
    (opAt steps j).bind EvalOp.batchCode = some batch := by
  rcases Nat.eq_or_lt_of_le hij with rfl | hlt
  · exact hfirst
  · obtain ⟨-, batch', hbatch', hcode⟩ := emitNext_steps hlt hj
    rw [hcode, ← hbatch', hfirst]

/-- A step that is in no batch is emitted alone. -/
theorem emitNext_alone (hfirst : (opAt steps i).bind EvalOp.batchCode = none) : emitNext isTarget steps i = i + 1 := by
  rw [emitNext, hfirst]

theorem var_of_batchCode {op : EvalOp G} (h : op.batchCode = some (false, src)) : ∃ attnum, op = .var src attnum := by
  cases op <;> cases h
  exact ⟨_, rfl⟩

theorem assignVar_of_batchCode {op : EvalOp G} (h : op.batchCode = some (true, src)) :
    ∃ attnum resultnum, op = .assignVar src attnum resultnum := by
  cases op <;> cases h
  exact ⟨_, _, rfl⟩

/-- The run over a batch of VAR steps. -/
theorem varState_run (env : ExprEnv G) {col : Nat → Nat} {cell : Nat → Cell} {k : Nat} (hjs : VarsAt steps src col cell (List.range' i k))
    (s : EvalState) :
    ReflTransGen (InterpStep env steps) (i, s) (i + k, varState env src col cell (List.range' i k) s) := by
  induction k generalizing i s with
  | zero => exact .refl
  | succ k ih =>
    have hfirst : InterpStep env steps (i, s) (i + 1, s.store (cell i) (env.slot src (col i))) := ⟨_, hjs i List.mem_cons_self, rfl⟩
    have hrest := ih (i := i + 1) (fun j hj => hjs j (List.mem_cons_of_mem i hj)) (s.store (cell i) (env.slot src (col i)))
    rw [show i + 1 + k = i + (k + 1) by omega] at hrest
    exact .head hfirst hrest

/-- The run over a batch of ASSIGN_VAR steps. -/
theorem assignState_run (env : ExprEnv G) {col res : Nat → Nat} {k : Nat} (hjs : AssignsAt steps src col res (List.range' i k))
    (s : EvalState) :
    ReflTransGen (InterpStep env steps) (i, s) (i + k, assignState env src col res (List.range' i k) s) := by
  induction k generalizing i s with
  | zero => exact .refl
  | succ k ih =>
    obtain ⟨⟨op, c⟩, hstep, hop⟩ := Option.map_eq_some_iff.1 (hjs i List.mem_cons_self)
    dsimp only at hop
    subst hop
    have hfirst : InterpStep env steps (i, s) (i + 1, s.assign (res i) (env.slot src (col i))) := ⟨_, hstep, rfl⟩
    have hrest := ih (i := i + 1) (fun j hj => hjs j (List.mem_cons_of_mem i hj)) (s.assign (res i) (env.slot src (col i)))
    rw [show i + 1 + k = i + (k + 1) by omega] at hrest
    exact .head hfirst hrest

/-- The columns of a batch in a row are those that its first step begins. -/
theorem assignState_row {col res : Nat → Nat} {att0 res0 count : Nat} (hjs : AssignsAt steps src col res (List.range' i count))
    (hatt0 : att0 = col i) (hres0 : res0 = res i) (hrow : isSequential steps att0 res0 i count = true) (s : EvalState) :
    assignState env src col res (List.range' i count) s = assignState env src (att0 + ·) (res0 + ·) (List.range' 0 count) s := by
  have hcols : ∀ k < count, col (i + k) = att0 + k ∧ res (i + k) = res0 + k := by
    intro k hk
    rcases Nat.eq_zero_or_pos k with rfl | hpos
    · exact ⟨hatt0.symm, hres0.symm⟩
    · have hstep := List.all_eq_true.1 hrow k (List.mem_range'_1.2 ⟨hpos, by omega⟩)
      have hat := hjs.assignVarAt (List.mem_range'_1.2 ⟨Nat.le_add_right i k, by omega⟩)
      obtain ⟨hcol, hres⟩ := Prod.mk.inj (Option.some.inj (hat.symm.trans (beq_iff_eq.1 hstep)))
      exact ⟨hcol, hres⟩
  have hrange : List.range' i count = (List.range' 0 count).map (i + ·) := by rw [List.map_add_range', Nat.add_zero]
  rw [hrange, assignState, List.foldl_map, assignState]
  refine List.foldl_ext _ _ s fun s' k hk => ?_
  obtain ⟨hcol, hres⟩ := hcols k (by have := (List.mem_range'_1.1 hk).2; omega)
  rw [hcol, hres]

end Batch

/-! ## Plain events -/

section Plain

variable {i : Nat} {step : ExprEvalStep G} (hplan : PlanSteps steps) (hpaired : cfg.paired = t.paired)
  (hsame : ∀ j, i ≤ j → j < next → t.steps[j]? = steps[j]?) (hstep : steps[i]? = some step)
  (hnext : next = emitNext (isJumpTarget steps) t.steps i) (hat : At P lbl loc pos (emitStep cfg t.steps i next step))
  (hlabel : lbl next = some (pos + size (emitStep cfg t.steps i next step)))
  (hsim : Sim t.env (LiveFrom steps i) (FlagFrom steps i) m s)

include hnext

theorem lt_next : i < next := hnext ▸ CaseEmitAux.lt_emitNext _ i

include hsame hstep

theorem code_of_step : t.steps[i]? = some step := (hsame i (Nat.le_refl i) (lt_next hnext)).trans hstep

/-- The steps of a batch, in the code and in the array. -/
theorem batch_of_step {batch : Bool × VarSource} (hbatch : step.op.batchCode = some batch) {j : Nat} (hj : j ∈ List.range' i (next - i)) :
    (opAt steps j).bind EvalOp.batchCode = some batch := by
  obtain ⟨hle, hlt⟩ := List.mem_range'_1.1 hj
  have hfirst : (opAt t.steps i).bind EvalOp.batchCode = some batch := by
    rw [opAt, code_of_step hsame hstep hnext, Option.map_some, Option.bind_some, hbatch]
  have hj := emitNext_batch (isJumpTarget steps) hfirst hle (by omega)
  rwa [opAt, hsame j hle (by omega)] at hj

include hpaired hat hlabel hsim

/-- VAR steps. -/
theorem var_lands {src : VarSource} {attnum : Nat} (hop : step.op = .var src attnum) :
    ∃ s', ReflTransGen (InterpStep t.env steps) (i, s) (next, s') ∧ Lands t P lbl steps pos m next s' := by
  obtain ⟨op, c⟩ := step
  dsimp only at hop
  subst hop
  have hlt := lt_next hnext
  have hvars : ∀ j ∈ List.range' i (next - i), ∃ attnum c, steps[j]? = some ⟨.var src attnum, c⟩ := by
    intro j hj
    obtain ⟨op, hop, hcode⟩ := Option.bind_eq_some_iff.1 (batch_of_step hsame hstep hnext rfl hj)
    obtain ⟨attnum, rfl⟩ := var_of_batchCode hcode
    obtain ⟨step, hstep, heq⟩ := Option.map_eq_some_iff.1 hop
    exact ⟨attnum, step.resvalue, by rw [hstep, ← heq]⟩
  have : Nonempty Cell := ⟨.state⟩
  choose! col cell hcols using hvars
  have hfirst := hcols i (List.mem_range'_1.2 ⟨Nat.le_refl i, by omega⟩)
  rw [hstep] at hfirst
  obtain ⟨rfl, rfl⟩ : attnum = col i ∧ c = cell i := by simpa using hfirst
  have hcodes : VarsAt t.steps src col cell (List.range' i (next - i)) := by
    intro j hj
    obtain ⟨hle, hlt'⟩ := List.mem_range'_1.1 hj
    rw [hsame j hle (by omega), hcols j hj]
  have hrun := varState_run t.env hcols s
  rw [show i + (next - i) = next by omega] at hrun
  refine ⟨_, hrun, lands_of_arrives hat hlabel (var_arrives hpaired hsim hcodes) (by rw [hlabel]; rfl) ?_ ?_⟩
  · exact fun _ => LiveFrom.mono (Nat.le_of_lt hlt)
  · exact fun _ => FlagFrom.mono (Nat.le_of_lt hlt)

include hplan

omit hpaired in
/-- ASSIGN_VAR steps. -/
theorem assignVar_lands {src : VarSource} {attnum resultnum : Nat} (hop : step.op = .assignVar src attnum resultnum)
    (hinside : next ≤ steps.length) :
    ∃ s', ReflTransGen (InterpStep t.env steps) (i, s) (next, s') ∧ Lands t P lbl steps pos m next s' := by
  obtain ⟨op, c⟩ := step
  dsimp only at hop
  subst hop
  have hlt := lt_next hnext
  have hassigns : ∀ j ∈ List.range' i (next - i), ∃ attnum resultnum, opAt steps j = some (.assignVar src attnum resultnum) := by
    intro j hj
    obtain ⟨op, hop, hcode⟩ := Option.bind_eq_some_iff.1 (batch_of_step hsame hstep hnext rfl hj)
    obtain ⟨attnum, resultnum, rfl⟩ := assignVar_of_batchCode hcode
    exact ⟨attnum, resultnum, hop⟩
  choose! col res hcols using hassigns
  have hfirst := hcols i (List.mem_range'_1.2 ⟨Nat.le_refl i, by omega⟩)
  rw [opAt, hstep, Option.map_some] at hfirst
  obtain ⟨rfl, rfl⟩ : attnum = col i ∧ resultnum = res i := by simpa using hfirst
  have hcodes : AssignsAt t.steps src col res (List.range' i (next - i)) := by
    intro j hj
    obtain ⟨hle, hlt'⟩ := List.mem_range'_1.1 hj
    rw [opAt, hsame j hle (by omega)]
    exact hcols j hj
  have hrun := assignState_run t.env hcols s
  rw [show i + (next - i) = next by omega] at hrun
  refine ⟨_, hrun, ?_⟩
  have hlive : ∀ c, LiveFrom steps next c → LiveFrom steps i c := fun _ => LiveFrom.mono (Nat.le_of_lt hlt)
  have hflags : ∀ n, FlagFrom steps next n → FlagFrom steps i n := fun _ => FlagFrom.mono (Nat.le_of_lt hlt)
  rw [emitStep] at hat hlabel
  dsimp only at hat hlabel
  unfold emitAssignVar at hat hlabel
  by_cases hloop : assignLoopMin ≤ next - i ∧ isSequential t.steps (col i) (res i) i (next - i) = true
  · rw [if_pos hloop] at hat hlabel
    have hshort := hplan.short
    obtain ⟨m', hruns, hsim'⟩ := assignLoop_runs cfg hsim hat (by omega) (by omega)
    rw [← assignState_row hcodes rfl rfl hloop.2] at hsim'
    exact ⟨_, m', hlabel, hruns, hsim'.mono hlive hflags⟩
  · rw [if_neg hloop] at hat hlabel
    obtain ⟨m', hrun', hsim'⟩ := assignBatch_run cfg hsim hcodes
    exact ⟨_, m', hlabel, runs_through hat (runItems_ops hrun'), hsim'.mono hlive hflags⟩

end Plain

/-- Before the end there is a step after what is emitted. -/
theorem next_lt {i : Nat} {step : ExprEvalStep G} (hplan : PlanSteps steps) (hsame : ∀ j, i ≤ j → j < next → t.steps[j]? = steps[j]?)
    (hstep : steps[i]? = some step) (hnext : next = emitNext (isJumpTarget steps) t.steps i) (hend : step.op ≠ .done) :
    next < steps.length := by
  have hlt := lt_next hnext
  obtain ⟨op, hop, hne⟩ : ∃ op, opAt steps (next - 1) = some op ∧ op ≠ .done := by
    cases hbatch : step.op.batchCode with
    | none =>
      have halone : (opAt t.steps i).bind EvalOp.batchCode = none := by
        rw [opAt, code_of_step hsame hstep hnext, Option.map_some, Option.bind_some, hbatch]
      rw [hnext, emitNext_alone halone, Nat.add_sub_cancel]
      exact ⟨step.op, by rw [opAt, hstep, Option.map_some], hend⟩
    | some batch =>
      have hlast : next - 1 ∈ List.range' i (next - i) := List.mem_range'_1.2 ⟨by omega, by omega⟩
      obtain ⟨op, hop, hcode⟩ := Option.bind_eq_some_iff.1 (batch_of_step hsame hstep hnext hbatch hlast)
      refine ⟨op, hop, ?_⟩
      rintro rfl
      cases hcode
  obtain ⟨step', hstep', -⟩ := Option.map_eq_some_iff.1 hop
  obtain ⟨hin, -⟩ := List.getElem?_eq_some_iff.1 hstep'
  have hne' : next - 1 ≠ steps.length - 1 := by
    intro heq
    rw [heq, hplan.ends] at hop
    exact hne (Option.some.inj hop).symm
  omega

/-- From a step that is emitted by its opcode, and is not the end, the code comes to a later step along with the interpreter. -/
theorem plain_lands {i : Nat} {step : ExprEvalStep G} (hplan : PlanSteps steps) (hcalls : CallsRight steps cfg t) (hblind : t.env.Blind)
    (hpaired : cfg.paired = t.paired) (hsame : ∀ j, i ≤ j → j < next → t.steps[j]? = steps[j]?) (hstep : steps[i]? = some step)
    (hnext : next = emitNext (isJumpTarget steps) t.steps i) (hat : At P lbl loc pos (emitStep cfg t.steps i next step))
    (hlabel : lbl next = some (pos + size (emitStep cfg t.steps i next step))) (htargets : ∀ pc ∈ step.op.targets, (lbl pc).isSome)
    (hend : step.op ≠ .done) (hsim : Sim t.env (LiveFrom steps i) (FlagFrom steps i) m s) :
    ∃ pc s', ReflTransGen (InterpStep t.env steps) (i, s) (pc, s') ∧ i < pc ∧ (pc = next ∨ pc ∈ step.op.targets) ∧
      Lands t P lbl steps pos m pc s' := by
  have hlt := lt_next hnext
  have hin := next_lt hplan hsame hstep hnext hend
  have hcode := code_of_step hsame hstep hnext
  cases hbatch : step.op.batchCode with
  | some batch =>
    obtain ⟨assign, src⟩ := batch
    cases assign with
    | false =>
      obtain ⟨attnum, hop⟩ := var_of_batchCode hbatch
      obtain ⟨s', hrun, hlands⟩ := var_lands hpaired hsame hstep hnext hat hlabel hsim hop
      exact ⟨next, s', hrun, hlt, .inl rfl, hlands⟩
    | true =>
      obtain ⟨attnum, resultnum, hop⟩ := assignVar_of_batchCode hbatch
      obtain ⟨s', hrun, hlands⟩ := assignVar_lands hplan hsame hstep hnext hat hlabel hsim hop (Nat.le_of_lt hin)
      exact ⟨next, s', hrun, hlt, .inl rfl, hlands⟩
  | none =>
    have halone : (opAt t.steps i).bind EvalOp.batchCode = none := by rw [opAt, hcode, Option.map_some, Option.bind_some, hbatch]
    obtain rfl : next = i + 1 := hnext.trans (emitNext_alone halone)
    obtain ⟨pc, s', hexec, harr⟩ := step_arrives hplan hcalls hblind hpaired hstep hcode hsim hbatch hend
    have hturn : InterpStep t.env steps (i, s) (pc, s') := ⟨step, hstep, hexec⟩
    have hgoes : pc = i + 1 ∨ pc ∈ step.op.targets := (execStep_frame hexec).goes
    have hforward : i < pc := interpStep_lt hplan.forward hturn
    refine ⟨pc, s', .single hturn, hforward, hgoes, lands_of_arrives hat hlabel harr ?_ ?_ ?_⟩
    · rcases hgoes with rfl | hmem
      · rw [hlabel]
        rfl
      · exact htargets pc hmem
    · exact fun _ => LiveFrom.mono (Nat.le_of_lt hforward)
    · exact fun _ => FlagFrom.mono hforward

end CompileExprAux
end PgJitter
