import PgJitter.Lemmas.CompileCase
import PgJitter.Theorems.CaseEmit
import PgJitter.Theorems.CaseEval

/-!
# The code of an expression: the results

The code that is emitted for an expression does what the interpreter does with its steps.
-/

namespace PgJitter

open Assembly Backpatch LeftScan Relation

namespace CompileExprAux

open CaseDetectAux CaseEmitAux

variable {G : Type} {α β : Type} [LinearOrder α] [LinearOrder β] {F : FloatFormats α β} {T : PgText} {fns : CaseFuncs G}
  {cfg : CompileConfig G} {desc : Nat → Datum} {steps : List (ExprEvalStep G)} {m : EvalState} {t : ExprTarget G} {s₀ : EvalState}

/-! ## The steps that the code runs on -/

theorem length_preScan : (caseBsearchPreScan F T fns desc steps m).length = steps.length := by
  rw [preScan_eq, setup_eq_stores, length_stores]

/-- The descriptors change no location. -/
theorem resAt_preScan (i : Nat) : resAt (caseBsearchPreScan F T fns desc steps m) i = resAt steps i := by
  have hstores : ∀ (l : List (CasePattern × Nat)) (steps : List (ExprEvalStep G)), resAt (stores desc l steps) i = resAt steps i := by
    intro l
    induction l with
    | nil => exact fun _ => rfl
    | cons pk l ih =>
      intro steps
      rw [stores, List.foldl_cons, ← stores, ih, resAt, resAt, getElem?_storeDesc]
      split
      · cases steps[i]? <;> rfl
      · rfl
  rw [preScan_eq, setup_eq_stores, hstores]

/-- A pattern begins with a load. -/
theorem pattern_load (hforward : ForwardJumps steps) {p : CasePattern} (hp : p ∈ detectCaseBsearch F T fns steps m) (env : ExprEnv G) :
    ∃ load, opAt steps p.startOpno = some load ∧ ∀ s, ∃ d, load.loaded env s = some d := by
  have hloads : ∀ load : EvalOp G, load.isVar = true ∨ load.isCaseTestval = true → ∀ s, ∃ d, load.loaded env s = some d := by
    intro load hload s
    cases load with
    | var src attnum => exact ⟨_, rfl⟩
    | caseTestval value => cases value <;> exact ⟨_, rfl⟩
    | _ => rcases hload with hload | hload <;> cases hload
  rcases List.mem_append.1 hp with hp | hp
  · obtain ⟨i, first, bs, ty, op, default, d, hparts, rfl⟩ := CaseSimpleAux.simple_parts hforward hp
    exact ⟨first.load, (branchSteps (hparts.branches.at_ 0 first rfl)).load, hloads _ hparts.load⟩
  · have hlook := (mem_scan (range_advances hforward _) hp).2.2
    rcases rangeLook_cases fns m hforward p.startOpno with ⟨k, hk, -⟩ | ⟨w, q, hq, hsteps, -⟩
    · exact nomatch hlook.symm.trans hk
    · exact ⟨w.load, hsteps.load, hloads _ (.inl hsteps.isVar)⟩

/-- The descriptor that a pattern finds is its own. -/
theorem descAt_pattern (hforward : ForwardJumps steps) {p : CasePattern} (hp : p ∈ detectCaseBsearch F T fns steps m) :
    ∃ k, descriptorAt (detectCaseBsearch F T fns steps m) (p.startOpno + 2) = some k ∧
      (detectCaseBsearch F T fns steps m)[k]? = some p := by
  have hne : (detectCaseBsearch F T fns steps m).Pairwise fun p q => p.startOpno ≠ q.startOpno := starts_ne hforward
  generalize detectCaseBsearch F T fns steps m = patterns at hp hne
  rw [descriptorAt]
  cases hfind : patterns.zipIdx.reverse.find? fun pk => pk.1.startOpno + 2 == p.startOpno + 2 with
  | none =>
    obtain ⟨k, hk⟩ := List.mem_iff_getElem?.1 hp
    have hnone := List.find?_eq_none.1 hfind (p, k) (List.mem_reverse.2 (List.mk_mem_zipIdx_iff_getElem?.2 hk))
    exact absurd (beq_self_eq_true _) hnone
  | some pk =>
    obtain ⟨q, k⟩ := pk
    have hstart : q.startOpno + 2 = p.startOpno + 2 := beq_iff_eq.1 (List.find?_some hfind :)
    have hk : patterns[k]? = some q := List.mk_mem_zipIdx_iff_getElem?.1 (List.mem_reverse.1 (List.mem_of_find?_eq_some hfind))
    obtain rfl : q = p := by
      by_contra hdiff
      have hsymm : Std.Symm fun p q : CasePattern => p.startOpno ≠ q.startOpno := ⟨fun _ _ => Ne.symm⟩
      exact hne.forall (List.mem_of_getElem? hk) hp hdiff (by omega)
    exact ⟨k, rfl, hk⟩

/-! ## Where the events begin -/

/-- An event of the main loop begins at a step. -/
def Begins (es : List (Event CasePattern)) (pc : Nat) : Prop := ∃ pre ev post, es = pre ++ ev :: post ∧ ev.start caseEntry = pc

section Events

variable (hforward : ForwardJumps steps)

include hforward

/-- A pattern is entered before its end. -/
theorem entry_lt {p : CasePattern} (hp : p ∈ detectCaseBsearch F T fns steps m) : caseEntry p < p.elseEndOpno :=
  Nat.lt_of_succ_lt (pattern_site hforward hp).long

/-- The events of the main loop are in a row. -/
theorem emitExpr_inARow : InARow caseEntry CasePattern.elseEndOpno steps.length 0 (emitExpr F T fns desc steps m) := by
  have hrow : InARow caseEntry CasePattern.elseEndOpno steps.length 0 (replay caseEntry CasePattern.elseEndOpno
      (emitNext (isJumpTarget steps) (caseBsearchPreScan F T fns desc steps m)) steps.length steps.length 0
      (detectCaseBsearch F T fns steps m)) :=
    replay_inARow (lt_emitNext _) (Nat.le_add_left _ 0) fun p hp => entry_lt hforward hp
  rw [emitExpr, emitSteps, length_preScan]
  exact hrow

/-- Every step is emitted or lies in a pattern. -/
theorem emitExpr_covers {k : Nat} (hk : k < steps.length) :
    Covered caseEntry CasePattern.elseEndOpno (emitExpr F T fns desc steps m) k := by
  have hcovers : Covered caseEntry CasePattern.elseEndOpno (replay caseEntry CasePattern.elseEndOpno
      (emitNext (isJumpTarget steps) (caseBsearchPreScan F T fns desc steps m)) steps.length steps.length 0
      (detectCaseBsearch F T fns steps m)) k :=
    replay_covers (lt_emitNext _) (Nat.le_add_left _ 0) (fun p hp => entry_lt hforward hp) (Nat.zero_le k) hk
  rw [emitExpr, emitSteps, length_preScan]
  exact hcovers

omit hforward in
/-- What is emitted by its opcode goes on to the next step of the main loop. -/
theorem next_of_plain {i next : Nat} (h : Event.plain i next ∈ emitExpr F T fns desc steps m) :
    next = emitNext (isJumpTarget steps) (caseBsearchPreScan F T fns desc steps m) i :=
  next_of_plain_mem_replay h

omit hforward in
/-- What is replaced is a pattern that was found. -/
theorem mem_of_taken {p : CasePattern} (h : Event.taken p ∈ emitExpr F T fns desc steps m) : p ∈ detectCaseBsearch F T fns steps m :=
  mem_of_taken_mem_replay h

variable (horder : ∀ p ∈ simplePatterns F T fns steps m, ∀ q ∈ rangePatterns F T fns steps m, p.elseEndOpno ≤ q.startOpno)

include horder

/-- What is emitted by its opcode lies in no pattern. -/
theorem plain_outside {k : Nat} (hk : Plain (emitExpr F T fns desc steps m) k) {p : CasePattern}
    (hp : p ∈ detectCaseBsearch F T fns steps m) : ¬ (p.startOpno < k ∧ k < p.elseEndOpno) :=
  (emitExpr_replays hforward (detect_chained hforward horder)).outside k hk p hp

/-- What is emitted by its opcode is as it was. -/
theorem preScan_plain {k : Nat} (hk : Plain (emitExpr F T fns desc steps m) k) :
    (caseBsearchPreScan F T fns desc steps m)[k]? = steps[k]? := by
  rw [preScan_eq, setup_eq_stores]
  refine stores_other fun pk hpk heq => ?_
  have hmem : pk.1 ∈ detectCaseBsearch F T fns steps m := by
    have hmem := List.mem_map_of_mem (f := Prod.fst) hpk
    rwa [List.zipIdx_map_fst] at hmem
  have hlong := (pattern_site hforward hmem).long
  exact plain_outside hforward horder hk hmem ⟨by omega, by omega⟩

/-- Where a step that is emitted by its opcode jumps to, an event begins. -/
theorem begins_target (hself : ∀ p ∈ detectCaseBsearch F T fns steps m, ∃ c, p.ByItself steps c) {i pc : Nat} {op : EvalOp G}
    (hplain : Plain (emitExpr F T fns desc steps m) i) (hop : opAt steps i = some op) (hpc : pc ∈ op.targets)
    (hin : pc < steps.length) : Begins (emitExpr F T fns desc steps m) pc := by
  obtain ⟨step, hstep, rfl⟩ := Option.map_eq_some_iff.1 hop
  have hcovers : Covered caseEntry CasePattern.elseEndOpno (emitExpr F T fns desc steps m) pc := emitExpr_covers hforward hin
  rcases hcovers with ⟨i', next, hmem, hle, hlt⟩ | ⟨p, hmem, hle, hlt⟩
  · have htarget : isJumpTarget steps pc = true :=
      List.any_eq_true.2 ⟨step, List.mem_of_getElem? hstep, List.contains_iff_mem.2 hpc⟩
    rcases Nat.eq_or_lt_of_le hle with rfl | hlt'
    · obtain ⟨pre, post, hes⟩ := List.append_of_mem hmem
      exact ⟨pre, _, post, hes, rfl⟩
    · have hno := (emitNext_steps hlt' (next_of_plain hmem ▸ hlt)).1
      exact absurd (htarget.symm.trans hno) (by decide)
  · obtain ⟨c, hself⟩ := hself p (mem_of_taken hmem)
    have hfrom := hself.entered i step.op hop pc hpc hle hlt
    have hto := hforward i step hstep pc hpc
    exact absurd ⟨hfrom, by omega⟩ (plain_outside hforward horder hplain (mem_of_taken hmem))

end Events

/-! ## Runs -/

/-- From a label on, the code returns what the interpreter comes to from a step on. -/
def Finishes (t : ExprTarget G) (P : Program (Instr G)) (steps : List (ExprEvalStep G)) (l : Nat) (w : Mach G) (pc : Nat)
    (s : EvalState) : Prop :=
  ∃ r, execInterpExpr t.env steps (steps.length - pc) pc s = some r ∧
    ∃ pos w', Runs (Instr.exec t) P (l, w) (pos, w') ∧ P.code[pos]? = some .ret ∧ w'.Returns r

/-- A run on both sides before that. -/
theorem Finishes.before (hforward : ForwardJumps steps) {P : Program (Instr G)} {l l' pc pc' : Nat} {w w' : Mach G} {s s' : EvalState}
    (hrun : ReflTransGen (InterpStep t.env steps) (pc, s) (pc', s')) (hruns : Runs (Instr.exec t) P (l, w) (l', w'))
    (h : Finishes t P steps l' w' pc' s') : Finishes t P steps l w pc s := by
  obtain ⟨r, hr, pos, w'', hruns', hret, hreturns⟩ := h
  exact ⟨r, execInterp_of_run hforward hrun hr, pos, w'', hruns.trans hruns', hret, hreturns⟩

/-- The last step. -/
theorem done_finishes {P : Program (Instr G)} {lbl : Nat → Option Nat} {loc : Nat → Nat} {pos pc : Nat} {w : Mach G} {s : EvalState}
    {step : ExprEvalStep G} (hat : At P lbl loc pos (ops emitDone)) (hstep : steps[pc]? = some step) (hop : step.op = .done)
    (hsim : Sim t.env (LiveFrom steps pc) (FlagFrom steps pc) w s) : Finishes t P steps pos w pc s := by
  have hlive : LiveFrom steps pc .state := by
    refine liveFrom_reads hstep ?_
    rw [ExprEvalStep.reads, hop]
    exact List.mem_cons_self
  obtain ⟨hin, -⟩ := List.getElem?_eq_some_iff.1 hstep
  obtain ⟨k, hk⟩ : ∃ k, steps.length - pc = k + 1 := ⟨steps.length - pc - 1, by omega⟩
  have hinterp : execInterpExpr t.env steps (steps.length - pc) pc s = some s := by
    rw [hk, execInterpExpr, hstep]
    simp only [execStep, hop]
  have hsplit : At P lbl loc pos (ops [.load 0 (.s .s0) .resvalue, .loadU8 1 (.s .s0) .resnull, .storeU8 (.s .s2) .here (.reg 1)] ++
      [.op .ret]) := hat
  obtain ⟨hload, hret⟩ := stands_append.1 hsplit
  have hrun : execOps (Instr.exec t) [.load 0 (.s .s0) .resvalue, .loadU8 1 (.s .s0) .resnull, .storeU8 (.s .s2) .here (.reg 1)] w =
      some (((w.setReg 0 (.datum (w.words (.value .state)))).setReg 1 (.datum ((w.bytes (.isnull .state)).setWidth 64))).setByte .isNull
        (((w.bytes (.isnull .state)).setWidth 64).setWidth 8)) := by
    refine (execOps_cons (exec_load (base_s w .s0) rfl rfl) _).trans ?_
    refine (execOps_cons (exec_loadU8 (base_s _ .s0) rfl) _).trans ?_
    exact execOps_cons (exec_storeU8 (base_s _ .s2) rfl (operand_reg rfl)) _
  refine ⟨s, hinterp, _, _, runs_through hload (runItems_ops hrun), hret.1, ?_, fun hnull => ?_, fun k => ?_⟩
  · rw [bytes_setByte, Function.update_self, hsim.isnull hlive, boolByte_setWidth]
  · rw [regs_setByte, regs_setReg, if_neg (by decide), regs_setReg, if_pos rfl, hsim.value hlive hnull]
  · rw [words_setByte, words_setReg, words_setReg, bytes_setByte, Function.update_of_ne (by simp)]
    exact hsim.result k

section Main

variable {es pre post : List (Event CasePattern)} {ev : Event CasePattern} {n : Nat}

/-- Where an event stops before the end, the next one begins, right after its code. -/
theorem begins_next (cfg : CompileConfig G) (t : ExprTarget G) (hrow : InARow caseEntry CasePattern.elseEndOpno n 0 es)
    (hes : es = pre ++ ev :: post)
    (hlt : ev.stop CasePattern.elseEndOpno < n) :
    Begins es (ev.stop CasePattern.elseEndOpno) ∧ labels (es.map (exprBlock cfg t.steps)) (ev.stop CasePattern.elseEndOpno) =
      some (sizes (pre.map (exprBlock cfg t.steps)) + size (exprBlock cfg t.steps ev).items) := by
  obtain ⟨-, -, hpost⟩ := (hes ▸ hrow).split
  obtain ⟨ev', post', rfl, hstart⟩ := hpost.next hlt
  have hsplit : es = (pre ++ [ev]) ++ ev' :: post' := by rw [hes, List.append_assoc, List.singleton_append]
  refine ⟨⟨pre ++ [ev], ev', post', hsplit, hstart⟩, ?_⟩
  rw [← hstart, label_event cfg t.steps hrow hsplit, List.map_append, List.map_singleton, sizes_snoc]

/-- Where an event begins there is a label. -/
theorem isSome_label (hrow : InARow caseEntry CasePattern.elseEndOpno n 0 es) {pc : Nat} (h : Begins es pc) :
    (labels (es.map (exprBlock cfg t.steps)) pc).isSome := by
  obtain ⟨pre, ev, post, hes, rfl⟩ := h
  rw [label_event cfg t.steps hrow hes]
  rfl

variable (hplan : PlanSteps steps) (hcalls : CallsRight steps cfg t) (hblind : t.env.Blind) (hruns : t.RunsOn steps F T fns cfg desc m)
  (horder : ∀ p ∈ simplePatterns F T fns steps m, ∀ q ∈ rangePatterns F T fns steps m, p.elseEndOpno ≤ q.startOpno)
  (hself : ∀ p ∈ detectCaseBsearch F T fns steps m, ∃ c, p.ByItself steps c)
  (hcase : ∀ p ∈ detectCaseBsearch F T fns steps m, ∃ c isValue, p.Replaceable steps F T t.env m s₀ c isValue)
  (hconst : SameConstants steps m s₀)

include hruns in
/-- The code of an event stands where its label is. -/
theorem at_event (hes : emitExpr F T fns desc steps m = pre ++ ev :: post) :
    ∃ loc, At (exprCode F T fns cfg desc steps m) (labels ((emitExpr F T fns desc steps m).map (exprBlock cfg t.steps))) loc
      (sizes (pre.map (exprBlock cfg t.steps))) (exprBlock cfg t.steps ev).items := by
  have hblocks : exprBlocks F T fns cfg desc steps m = (emitExpr F T fns desc steps m).map (exprBlock cfg t.steps) := by
    rw [exprBlocks, hruns.stored]
  have hsplit : (emitExpr F T fns desc steps m).map (exprBlock cfg t.steps) =
      pre.map (exprBlock cfg t.steps) ++ exprBlock cfg t.steps ev :: post.map (exprBlock cfg t.steps) := by
    rw [hes, List.map_append, List.map_cons]
  rw [exprCode, hblocks]
  exact ⟨_, at_assemble hsplit (marks_exprBlock ev)⟩

include hplan hruns

include hcalls hblind horder hself in
/-- From an event of a step that is not the end, the code comes to where another event begins, along with the interpreter. -/
theorem plain_event_lands {i next : Nat} {step : ExprEvalStep G} (hes : emitExpr F T fns desc steps m = pre ++ .plain i next :: post)
    (hstep : steps[i]? = some step) (hend : step.op ≠ .done) {w : Mach G} {s : EvalState}
    (hsim : Sim t.env (LiveFrom steps i) (FlagFrom steps i) w s) :
    ∃ pc s', ReflTransGen (InterpStep t.env steps) (i, s) (pc, s') ∧ i < pc ∧ Begins (emitExpr F T fns desc steps m) pc ∧
      Lands t (exprCode F T fns cfg desc steps m) (labels ((emitExpr F T fns desc steps m).map (exprBlock cfg t.steps))) steps
        (sizes (pre.map (exprBlock cfg t.steps))) w pc s' := by
  have hrow : InARow caseEntry CasePattern.elseEndOpno steps.length 0 (emitExpr F T fns desc steps m) := emitExpr_inARow hplan.forward
  have hmem : Event.plain i next ∈ emitExpr F T fns desc steps m := hes ▸ List.mem_append_right pre List.mem_cons_self
  have hlt : i < next := (hes ▸ hrow).split.2.1
  have hnext : next = emitNext (isJumpTarget steps) t.steps i := hruns.stored ▸ next_of_plain hmem
  have hsame : ∀ j, i ≤ j → j < next → t.steps[j]? = steps[j]? := fun j hj hj' =>
    hruns.stored ▸ preScan_plain hplan.forward horder ⟨i, next, hmem, hj, hj'⟩
  obtain ⟨loc, hat⟩ := at_event hruns hes
  have hitems : (exprBlock cfg t.steps (.plain i next)).items = emitStep cfg t.steps i next step := by
    rw [exprBlock, stepBlock, hsame i (Nat.le_refl i) hlt, hstep, Option.map_some, Option.getD_some]
  rw [hitems] at hat
  obtain ⟨hbegins, hlabel⟩ := begins_next cfg t hrow hes (next_lt hplan hsame hstep hnext hend)
  rw [hitems] at hlabel
  have hop : opAt steps i = some step.op := by rw [opAt, hstep, Option.map_some]
  have htargets : ∀ pc ∈ step.op.targets, Begins (emitExpr F T fns desc steps m) pc := fun pc hpc =>
    begins_target hplan.forward horder hself ⟨i, next, hmem, Nat.le_refl i, hlt⟩ hop hpc (hplan.toStep i step.op hop pc hpc)
  obtain ⟨pc, s', hrun, hforward, hgoes, hlands⟩ := plain_lands hplan hcalls hblind hruns.paired hsame hstep hnext hat hlabel
    (fun pc hpc => isSome_label hrow (htargets pc hpc)) hend hsim
  refine ⟨pc, s', hrun, hforward, ?_, hlands⟩
  rcases hgoes with rfl | hmem
  · exact hbegins
  · exact htargets pc hmem

include hcase hconst in
/-- So it does from a pattern. -/
theorem taken_event_lands {p : CasePattern} (hes : emitExpr F T fns desc steps m = pre ++ .taken p :: post) {w : Mach G} {s : EvalState}
    (hcomes : ComesTo steps t.env s₀ (caseEntry p) s) (hsim : Sim t.env (LiveFrom steps (caseEntry p)) (FlagFrom steps (caseEntry p)) w s) :
    ∃ pc s', ReflTransGen (InterpStep t.env steps) (caseEntry p, s) (pc, s') ∧ caseEntry p < pc ∧
      Begins (emitExpr F T fns desc steps m) pc ∧
      Lands t (exprCode F T fns cfg desc steps m) (labels ((emitExpr F T fns desc steps m).map (exprBlock cfg t.steps))) steps
        (sizes (pre.map (exprBlock cfg t.steps))) w pc s' := by
  have hrow : InARow caseEntry CasePattern.elseEndOpno steps.length 0 (emitExpr F T fns desc steps m) := emitExpr_inARow hplan.forward
  have hp : p ∈ detectCaseBsearch F T fns steps m := mem_of_taken (hes ▸ List.mem_append_right pre List.mem_cons_self)
  obtain ⟨c, isValue, hreplace⟩ := hcase p hp
  obtain ⟨j, hj⟩ := pattern_end hplan.forward hp
  have hin : p.elseEndOpno < steps.length := hplan.toStep j _ hj _ List.mem_cons_self
  obtain ⟨hbegins, hlabel⟩ := begins_next cfg t hrow hes hin
  obtain ⟨load, hload, hloads⟩ := pattern_load hplan.forward hp t.env
  obtain ⟨k, hdesc, hk⟩ := descAt_pattern hplan.forward hp
  rw [← hruns.found] at hdesc hk
  obtain ⟨loc, hat⟩ := at_event hruns hes
  obtain ⟨s', hrun, hlands⟩ := case_lands hplan hreplace (pattern_site hplan.forward hp).long hload hloads
    (fun i => hruns.stored ▸ resAt_preScan i) hdesc hk (hruns.helpers p) (sameConstants_run hcomes hconst) hcomes hat
    (isSome_label hrow hbegins) hsim
  exact ⟨p.elseEndOpno, s', hrun, entry_lt hplan.forward hp, hbegins, hlands⟩

include hcalls hblind horder hcase hconst in
/-- From where an event begins, the code returns what the interpreter comes to. -/
theorem finishes_of_begins {k pc l : Nat} (hk : steps.length - pc ≤ k) (hbegins : Begins (emitExpr F T fns desc steps m) pc)
    (hl : labels ((emitExpr F T fns desc steps m).map (exprBlock cfg t.steps)) pc = some l) {w : Mach G} {s : EvalState}
    (hcomes : ComesTo steps t.env s₀ pc s) (hsim : Sim t.env (LiveFrom steps pc) (FlagFrom steps pc) w s) :
    Finishes t (exprCode F T fns cfg desc steps m) steps l w pc s := by
  have hrow : InARow caseEntry CasePattern.elseEndOpno steps.length 0 (emitExpr F T fns desc steps m) := emitExpr_inARow hplan.forward
  have hself : ∀ p ∈ detectCaseBsearch F T fns steps m, ∃ c, p.ByItself steps c := fun p hp => by
    obtain ⟨c, isValue, hreplace⟩ := hcase p hp
    exact ⟨c, hreplace.byItself⟩
  -- Every event but the end comes to a later one, so that there are fewer and fewer steps to come.
  induction k generalizing pc l w s with
  | zero =>
    obtain ⟨pre, ev, post, hes, rfl⟩ := hbegins
    have hin := (hes ▸ hrow).split.1
    omega
  | succ k ih =>
    obtain ⟨pre, ev, post, hes, rfl⟩ := hbegins
    have hin := (hes ▸ hrow).split.1
    rw [label_event cfg t.steps hrow hes, Option.some.injEq] at hl
    subst hl
    have hlater : ∀ {pc s'}, ReflTransGen (InterpStep t.env steps) (ev.start caseEntry, s) (pc, s') → ev.start caseEntry < pc →
        Begins (emitExpr F T fns desc steps m) pc →
        Lands t (exprCode F T fns cfg desc steps m) (labels ((emitExpr F T fns desc steps m).map (exprBlock cfg t.steps))) steps
          (sizes (pre.map (exprBlock cfg t.steps))) w pc s' →
        Finishes t (exprCode F T fns cfg desc steps m) steps (sizes (pre.map (exprBlock cfg t.steps))) w (ev.start caseEntry) s := by
      rintro pc s' hrun hlt hbegins ⟨l', w', hl', hcode, hsim'⟩
      exact .before hplan.forward hrun hcode (ih (by omega) hbegins hl' (hcomes.trans hrun) hsim')
    cases ev with
    | taken p =>
      obtain ⟨pc, s', hrun, hlt, hbegins, hlands⟩ := taken_event_lands hplan hruns hcase hconst hes hcomes hsim
      exact hlater hrun hlt hbegins hlands
    | plain i next =>
      have hstep := List.getElem?_eq_getElem hin
      by_cases hend : (steps[i]).op = .done
      · obtain ⟨loc, hat⟩ := at_event hruns hes
        have hmem : Event.plain i next ∈ emitExpr F T fns desc steps m := hes ▸ List.mem_append_right pre List.mem_cons_self
        have hcode : t.steps[i]? = some steps[i] :=
          (hruns.stored ▸ preScan_plain hplan.forward horder ⟨i, next, hmem, Nat.le_refl i, (hes ▸ hrow).split.2.1⟩).trans hstep
        have hitems : (exprBlock cfg t.steps (.plain i next)).items = ops emitDone := by
          rw [exprBlock, stepBlock, hcode, Option.map_some, Option.getD_some, emitStep, hend]
        exact done_finishes (hitems ▸ hat) hstep hend hsim
      · obtain ⟨pc, s', hrun, hlt, hbegins, hlands⟩ :=
          plain_event_lands hplan hcalls hblind hruns horder hself hes hstep hend hsim
        exact hlater hrun hlt hbegins hlands

end Main

/-- Started with the steps' memory, the code returns what the interpreter returns. -/
theorem code_returns (hplan : PlanSteps steps) (hcalls : CallsRight steps cfg t) (hblind : t.env.Blind)
    (hruns : t.RunsOn steps F T fns cfg desc m)
    (horder : ∀ p ∈ simplePatterns F T fns steps m, ∀ q ∈ rangePatterns F T fns steps m, p.elseEndOpno ≤ q.startOpno)
    (hcase : ∀ p ∈ detectCaseBsearch F T fns steps m, ∃ c isValue, p.Replaceable steps F T t.env m s₀ c isValue)
    (hconst : SameConstants steps m s₀) {w : Mach G} (hholds : w.Holds t.env s₀) :
    ∃ r, execInterpExpr t.env steps steps.length 0 s₀ = some r ∧
      ∃ pos w', Runs (Instr.exec t) (exprCode F T fns cfg desc steps m) (0, w) (pos, w') ∧
        (exprCode F T fns cfg desc steps m).code[pos]? = some .ret ∧ w'.Returns r := by
  have hrow : InARow caseEntry CasePattern.elseEndOpno steps.length 0 (emitExpr F T fns desc steps m) := emitExpr_inARow hplan.forward
  obtain ⟨step, hlast, -⟩ := Option.map_eq_some_iff.1 hplan.ends
  obtain ⟨hin, -⟩ := List.getElem?_eq_some_iff.1 hlast
  obtain ⟨ev, post, hes, hstart⟩ := hrow.next (by omega : 0 < steps.length)
  have hfirst : emitExpr F T fns desc steps m = [] ++ ev :: post := hes
  have hlabel := label_event cfg t.steps hrow hfirst
  rw [hstart] at hlabel
  have hsim : Sim t.env (LiveFrom steps 0) (FlagFrom steps 0) w s₀ :=
    ⟨fun c _ => hholds.cells c, hholds.result, fun n _ => hholds.anynull n, hholds.slots, hholds.caseValue⟩
  have hbegins : Begins (emitExpr F T fns desc steps m) 0 := ⟨[], ev, post, hes, hstart⟩
  exact finishes_of_begins hplan hcalls hblind hruns horder hcase hconst (Nat.le_refl _) hbegins hlabel .refl hsim

/-- A simple pattern whose branches compare the variable with constants can be replaced. -/
theorem replaceable_of_simple {K : Type} [LinearOrder K] {key : CmpType → Nat → Datum → K} {addr : CmpType → CaseCmp → Nat}
    (hfns : CmpFns F T key fns addr) (hcalls : CallsCmpFns T fns addr t.env) {p : CasePattern}
    (hp : p ∈ simplePatterns F T fns steps m) {c : Cell} (h : p.SimpleReplaceable steps fns addr t.env m s₀ c) :
    p.Replaceable steps F T t.env m s₀ c (p.Typed fns addr steps m) :=
  ⟨h.compiled.default, CaseFoldAux.agrees_of_typed hfns hcalls hp h.compiled h.compares fun _ htyped => htyped, h.typed, h.byItself⟩

/-- A range pattern whose WHENs are true in ranges can be replaced. -/
theorem replaceable_of_ranges {K : Type} [LinearOrder K] {key : CmpType → Nat → Datum → K} {addr : CmpType → CaseCmp → Nat}
    (hfns : CmpFns F T key fns addr) (hcalls : CallsCmpFns T fns addr t.env) {p : CasePattern}
    (hp : p ∈ rangePatterns F T fns steps m) {c : Cell} (h : p.RangeReplaceable steps fns addr t.env m s₀ c) :
    p.Replaceable steps F T t.env m s₀ c (p.TypedRange fns addr steps m) :=
  ⟨h.ranges.default, CaseEnterAux.agrees_of_ranges hfns hcalls hp h.compiled h.ranges, h.typed, h.byItself⟩

end CompileExprAux

section

variable {G : Type} {α β : Type} [LinearOrder α] [LinearOrder β] (F : FloatFormats α β) (T : PgText) (fns : CaseFuncs G)

open CompileExprAux

end

namespace CompileExprWitness

open CaseBsearchWitness CaseEvalWitness CaseFoldAux

/-! ## The surroundings -/

/-- A comparison of `int4`. -/
def int4Cmp (op : CaseCmp) : List Datum → Datum
  | [a, b] => (fnAt (fnAddr .int4 op)).call wordTexts 0 a b
  | _ => 0

/-- A call of a comparison, which is strict. -/
def callInt4 (op : CaseCmp) (args : List NullableDatum) : NullableDatum :=
  if args.length = 2 ∧ ∀ a ∈ args, a.isnull = false then ⟨int4Cmp op (args.map NullableDatum.value), false⟩ else ⟨0, true⟩

/-- A row of one column. -/
def rowWith (d : NullableDatum) : ExprEnv CaseCmp := { rowOf 0 with slot := fun _ _ => d, call := callInt4 }

/-- A compiler that inlines the comparisons. -/
def config : CompileConfig CaseCmp where
  sharedCode := false
  inlineEnabled := true
  paired _ := false
  slotAccess _ := .saved
  direct _ := some ⟨.emitted, true, 2, false⟩

/-- Descriptors at large addresses. -/
def descAddr (k : Nat) : Datum := BitVec.ofNat 64 (0x7f00beef0000 + 0x100 * k)

/-- What the code of some steps runs on. -/
def targetOf (d : NullableDatum) (steps : List (ExprEvalStep CaseCmp)) (m : EvalState) : ExprTarget CaseCmp where
  paired _ := false
  env := rowWith d
  native := ⟨int4Cmp, int4Cmp, fun _ => 0⟩
  steps := caseBsearchPreScan signedFloats wordTexts pgFns descAddr steps m
  patterns := detectCaseBsearch signedFloats wordTexts pgFns steps m
  helper p v := p.helperResult signedFloats wordTexts v

/-- The memory at the start, with the arguments of the comparisons. -/
def startOf (d : NullableDatum) (m : EvalState) : Mach CaseCmp where
  regs _ := .undef
  zero := false
  words
    | .value c => (m.cells c).value
    | .slotValue _ _ => d.value
    | _ => 0
  bytes
    | .isnull c => boolByte (m.cells c).isnull
    | .slotIsnull _ _ => boolByte d.isnull
    | .caseIsnull => 1
    | .resultIsnull _ => 1
    | _ => 0

/-- The memory holds what the interpreter starts from. -/
theorem startOf_holds (d : NullableDatum) {m : EvalState} (hflags : ∀ n, m.anynull n = false) (hresult : ∀ k, (m.result k).isnull = true) :
    (startOf d m).Holds (rowWith d) m where
  cells := fun _ => ⟨rfl, fun _ => rfl⟩
  result := fun k => ⟨by rw [hresult k]; rfl, fun h => nomatch (hresult k).symm.trans h⟩
  anynull := fun n => by
    rw [hflags n]
    rfl
  slots := fun _ _ => ⟨rfl, rfl⟩
  caseValue := ⟨rfl, rfl⟩

/-- What holds of every step of an array holds of the opcode at a place. -/
theorem op_of_all {l : List (ExprEvalStep CaseCmp)} {P : EvalOp CaseCmp → Bool} (h : l.all (fun step => P step.op) = true) {i : Nat}
    {op : EvalOp CaseCmp} (hop : opAt l i = some op) : P op = true := by
  obtain ⟨step, hstep, rfl⟩ := Option.map_eq_some_iff.1 hop
  exact List.all_eq_true.1 h step (List.mem_of_getElem? hstep)

/-- Where no argument is null, the values are the same. -/
theorem values_of_same {args args' : List NullableDatum} (h : List.Forall₂ NullableDatum.Same args args')
    (hnull : ∀ a ∈ args, a.isnull = false) : args.map NullableDatum.value = args'.map NullableDatum.value := by
  induction h with
  | nil => rfl
  | cons ha _ ih =>
    rw [List.map_cons, List.map_cons, ha.2 (hnull _ List.mem_cons_self), ih fun a h => hnull a (List.mem_cons_of_mem _ h)]

/-- Null arguments are null in both. -/
theorem nulls_of_same {args args' : List NullableDatum} (h : List.Forall₂ NullableDatum.Same args args') :
    (∀ a ∈ args, a.isnull = false) ↔ ∀ a ∈ args', a.isnull = false := by
  induction h with
  | nil => exact Iff.rfl
  | cons ha _ ih => rw [List.forall_mem_cons, List.forall_mem_cons, ih, ha.1]

theorem rowWith_blind (d : NullableDatum) : (rowWith d).Blind := by
  intro op args args' h
  show (callInt4 op args).Same (callInt4 op args')
  rw [callInt4, callInt4]
  have hcond := and_congr (Eq.congr_left h.length_eq (z := 2)) (nulls_of_same h)
  by_cases hargs : args.length = 2 ∧ ∀ a ∈ args, a.isnull = false
  · rw [if_pos hargs, if_pos (hcond.1 hargs), values_of_same h hargs.2]
    exact ⟨rfl, fun _ => rfl⟩
  · rw [if_neg hargs, if_neg fun hargs' => hargs (hcond.2 hargs')]
    exact ⟨rfl, fun _ => rfl⟩

theorem rowWith_calls (d : NullableDatum) : CallsCmpFns wordTexts pgFns fnAddr (rowWith d) :=
  fun fn ty op a b h => rowOf_calls 0 fn ty op a b h

/-! ## Steps of a CASE -/

/-- The opcodes of a CASE of comparisons. -/
def caseOp : EvalOp CaseCmp → Bool
  | .var _ _ => true
  | .funcExprStrict _ _ nargs => nargs == 2
  | .jumpIfNotTrue _ => true
  | .const _ => true
  | .jump _ => true
  | .done => true
  | _ => false

/-- They have no flag of a chain. -/
theorem anynull_of_caseOp {op : EvalOp CaseCmp} (h : caseOp op = true) : op.anynull? = none := by
  cases op <;> first | rfl | cases h

/-- They write no column. -/
theorem column_of_caseOp {op : EvalOp CaseCmp} (h : caseOp op = true) : op.column? = none := by
  cases op <;> first | rfl | cases h

section CaseSteps

variable {l : List (ExprEvalStep CaseCmp)} (hops : l.all (fun step => caseOp step.op) = true)

include hops

/-- Such steps are as the executor makes them. -/
theorem plan_of_caseOps (hforward : ForwardJumps l)
    (htargets : l.all (fun step => step.op.targets.all fun t => decide (t < l.length)) = true)
    (hends : opAt l (l.length - 1) = some .done) (hshort : l.length < 2 ^ 31) : PlanSteps l where
  known := fun i n targets hop => Bool.false_ne_true (op_of_all hops hop)
  forward := hforward
  toStep := fun i op hop t ht =>
    of_decide_eq_true (List.all_eq_true.1 (op_of_all (P := fun op => op.targets.all fun t => decide (t < l.length)) htargets hop) t ht)
  ends := hends
  last := fun i n jumpdone hop => by
    rcases hop with hop | hop <;> exact nomatch anynull_of_caseOp (op_of_all hops hop)
  short := hshort

/-- Their calls are right. -/
theorem calls_of_caseOps (d : NullableDatum) (m : EvalState) : CallsRight l config (targetOf d l m) where
  plain := fun i f fcinfo nargs hop => absurd (op_of_all hops hop) Bool.false_ne_true
  strict := fun i f fcinfo nargs hop dfn hdfn => by
    obtain rfl := Option.some.inj hdfn
    obtain rfl : nargs = 2 := beq_iff_eq.1 (op_of_all hops hop)
    have hright : ∀ args : List NullableDatum, args.length = 2 → (true = true → ∀ a ∈ args, a.isnull = false) →
        (rowWith d).call f args = ⟨int4Cmp f (args.map NullableDatum.value), false⟩ := fun args hlen hnull => if_pos ⟨hlen, hnull rfl⟩
    refine ⟨rfl, fun _ _ => ⟨Nat.le_refl 2, hright⟩, fun _ h => absurd h (by decide), fun _ args hlen hnull => ?_⟩
    rw [if_neg Bool.false_ne_true, List.append_nil]
    exact hright args hlen hnull

end CaseSteps

theorem caseLt_ops : caseLt.all (fun step => caseOp step.op) = true := rfl

theorem caseLt_plan : PlanSteps caseLt := plan_of_caseOps caseLt_ops (forward_of_all rfl) rfl rfl (by decide)

/-- At the end only the result is read. -/
theorem caseLt_end {c : Cell} (h : LiveFrom caseLt 21 c) : c = .state := by
  obtain ⟨j, step, hj, hstep, hread⟩ := h
  obtain ⟨hlt, -⟩ := List.getElem?_eq_some_iff.1 hstep
  obtain rfl : j = 21 := Nat.le_antisymm (Nat.le_of_lt_succ hlt) hj
  obtain rfl := Option.some.inj hstep
  exact List.mem_singleton.1 hread

theorem caseLt_byItself {p : CasePattern} (hstart : p.startOpno = 0) (helse : p.elseEndOpno = 21) : p.ByItself caseLt .state where
  entered := fun i op hop t ht _ _ => by
    rw [hstart]
    refine Nat.pos_of_ne_zero fun hi => ?_
    subst hi
    obtain rfl := Option.some.inj hop
    exact absurd ht List.not_mem_nil
  loaded := fun c' hc' => by
    rw [hstart] at hc' ⊢
    obtain rfl := Option.some.inj hc'
    exact ⟨1, _, Nat.le_refl 1, rfl, List.mem_cons_self⟩
  cells := fun j c' _ _ _ => by
    rw [helse]
    by_cases hc' : c' = .state
    · exact .inl hc'
    · exact .inr fun hlive => hc' (caseLt_end hlive)
  flags := fun j op n _ _ hop hflag => nomatch (anynull_of_caseOp (op_of_all caseLt_ops hop)).symm.trans hflag
  columns := fun j op _ _ hop => column_of_caseOp (op_of_all caseLt_ops hop)

/-- The place of the one pattern. -/
theorem caseLt_place {p : CasePattern} (hp : p ∈ simplePatterns signedFloats wordTexts pgFns caseLt constArgs) :
    p.startOpno = 0 ∧ p.endOpno = 20 ∧ p.elseEndOpno = 21 := by
  have hmem := List.mem_map_of_mem (f := fun p => (p.startOpno, p.endOpno, p.elseEndOpno)) hp
  rw [caseLt_patterns] at hmem
  simpa using hmem

/-- There is no range CASE. -/
theorem caseLt_noRange : rangePatterns signedFloats wordTexts pgFns caseLt constArgs = [] :=
  List.length_eq_zero_iff.1 rfl

/-- All comparisons are of `int4`. -/
theorem caseLt_typed (p : CasePattern) (v : Datum) : p.Typed pgFns fnAddr caseLt constArgs v := by
  intro k b ty op _ _ haddr
  obtain ⟨rfl, -⟩ := pgFns_cmpFns.addr_inj _ _ _ _ haddr
  exact ⟨trivial, trivial⟩

/-- The end of the run of the code of `caseFlipped` for 7. -/
def flippedEnd : Nat × Mach CaseCmp :=
  run (Instr.exec (targetOf ⟨7, false⟩ caseFlipped flippedArgs))
    (exprCode signedFloats wordTexts pgFns config descAddr caseFlipped flippedArgs) 32 (0, startOf ⟨7, false⟩ flippedArgs)

theorem flippedEnd_ret :
    (exprCode signedFloats wordTexts pgFns config descAddr caseFlipped flippedArgs).code[flippedEnd.1]? = some .ret := rfl

theorem flippedEnd_value : flippedEnd.2.regs 0 = .datum 2 := by decide +kernel

end CompileExprWitness

end PgJitter
