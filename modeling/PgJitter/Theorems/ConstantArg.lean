import PgJitter.ConstantArg

/-!
# What the constant argument analysis reports

The analysis looks at the step that writes the slot and stands closest before the call, and not at the ways control can take:
with a CASE as the argument it reports the constant of the ELSE branch. It is right exactly when every store that can be the last
one on a way to the call stores that same constant.
-/

namespace PgJitter

open Reaching

namespace ConstantArgAux

variable {F : Type} {steps : List (ExprEvalStep F)}

/-! ### The interpreter takes the ways of the flow -/

/-- A step of a chain that is not the last leaves the locations, and goes on or to its target. -/
theorem execBoolStep_not_last (stop : Bool) {pos : BoolStepPos} (hpos : pos ≠ .last) (anynull jumpdone : Nat) (c : Cell)
    (pc : Nat) (s : EvalState) :
    (execBoolStep stop pos anynull jumpdone c pc s).2.cells = s.cells ∧
      ((execBoolStep stop pos anynull jumpdone c pc s).1 = pc + 1 ∨
        (execBoolStep stop pos anynull jumpdone c pc s).1 = jumpdone) := by
  cases pos with
  | last => exact absurd rfl hpos
  | first | step =>
    simp only [execBoolStep]
    split
    · exact ⟨rfl, Or.inl rfl⟩
    · split
      · exact ⟨rfl, Or.inr rfl⟩
      · exact ⟨rfl, Or.inl rfl⟩

/-- The last step of a chain goes on, and leaves the locations or stores a null. -/
theorem execBoolStep_last (stop : Bool) (anynull jumpdone : Nat) (c : Cell) (pc : Nat) (s : EvalState) :
    (execBoolStep stop .last anynull jumpdone c pc s).1 = pc + 1 ∧
      ((execBoolStep stop .last anynull jumpdone c pc s).2.cells = s.cells ∨
        (execBoolStep stop .last anynull jumpdone c pc s).2.cells = Function.update s.cells c ⟨0, true⟩) := by
  simp only [execBoolStep]
  split
  · exact ⟨rfl, Or.inl rfl⟩
  · split
    · exact ⟨rfl, Or.inl rfl⟩
    · split
      · exact ⟨rfl, Or.inr rfl⟩
      · exact ⟨rfl, Or.inl rfl⟩

/-- A call stores something. -/
theorem cells_execFunc (env : ExprEnv F) (strict : Bool) (fn : F) (fcinfo nargs : Nat) (c : Cell) (s : EvalState) :
    ∃ d, (execFunc env strict fn fcinfo nargs c s).cells = Function.update s.cells c d := by
  unfold execFunc
  split
  · exact ⟨_, rfl⟩
  · exact ⟨_, rfl⟩

/-- A step of a chain follows the flow of its opcode. -/
theorem opFlow_execBoolStep (stop : Bool) {op : EvalOp F} {pos : BoolStepPos} {anynull jumpdone : Nat}
    (hop : op = .boolAndStep pos anynull jumpdone ∨ op = .boolOrStep pos anynull jumpdone) (c : Cell) (pc : Nat)
    (s : EvalState) :
    ∃ w, OpFlow op pc w (execBoolStep stop pos anynull jumpdone c pc s).1 ∧
      (execBoolStep stop pos anynull jumpdone c pc s).2.cells = applyStore s.cells c w := by
  by_cases hpos : pos = .last
  · subst hpos
    obtain ⟨hpc, hcells | hcells⟩ := execBoolStep_last stop anynull jumpdone c pc s
    · exact ⟨none, by rcases hop with rfl | rfl <;> exact ⟨Or.inl rfl, hpc⟩, hcells⟩
    · exact ⟨some ⟨0, true⟩, by rcases hop with rfl | rfl <;> exact ⟨Or.inr rfl, hpc⟩, hcells⟩
  · obtain ⟨hcells, hpc⟩ := execBoolStep_not_last stop hpos anynull jumpdone c pc s
    refine ⟨none, ?_, hcells⟩
    rcases hop with rfl | rfl <;> cases pos <;> first | exact ⟨rfl, hpc⟩ | exact absurd rfl hpos

/-- What the interpreter does on a step is one of the things the flow of its opcode allows. -/
theorem opFlow_execStep {env : ExprEnv F} {step : ExprEvalStep F} {pc pc' : Nat} {s s' : EvalState}
    (h : execStep env step pc s = some (pc', s')) :
    ∃ w, OpFlow step.op pc w pc' ∧ s'.cells = applyStore s.cells step.resvalue w := by
  obtain ⟨op, c⟩ := step
  cases op with
  | done => nomatch h
  | const k => cases h; exact ⟨some k, ⟨rfl, rfl⟩, rfl⟩
  | var src n => cases h; exact ⟨some _, ⟨rfl, rfl⟩, rfl⟩
  | assignVar src n r => cases h; exact ⟨none, ⟨rfl, rfl⟩, rfl⟩
  | assignTmp r => cases h; exact ⟨none, ⟨rfl, rfl⟩, rfl⟩
  | funcExpr fn fcinfo nargs =>
    cases h
    obtain ⟨d, hd⟩ := cells_execFunc env false fn fcinfo nargs c s
    exact ⟨some d, ⟨rfl, rfl⟩, hd⟩
  | funcExprStrict fn fcinfo nargs =>
    cases h
    obtain ⟨d, hd⟩ := cells_execFunc env true fn fcinfo nargs c s
    exact ⟨some d, ⟨rfl, rfl⟩, hd⟩
  | boolAndStep pos n jumpdone =>
    obtain ⟨w, hflow, hcells⟩ := opFlow_execBoolStep false (Or.inl rfl) c pc s
    rw [Option.some.inj h] at hflow hcells
    exact ⟨w, hflow, hcells⟩
  | boolOrStep pos n jumpdone =>
    obtain ⟨w, hflow, hcells⟩ := opFlow_execBoolStep true (Or.inr rfl) c pc s
    rw [Option.some.inj h] at hflow hcells
    exact ⟨w, hflow, hcells⟩
  | boolNotStep => cases h; exact ⟨some _, ⟨⟨_, _, rfl⟩, rfl⟩, rfl⟩
  | qual jumpdone =>
    simp only [execStep] at h
    split at h
    · cases h; exact ⟨some _, Or.inr ⟨rfl, rfl⟩, rfl⟩
    · cases h; exact ⟨none, Or.inl ⟨rfl, rfl⟩, rfl⟩
  | jump jumpdone => cases h; exact ⟨none, ⟨rfl, rfl⟩, rfl⟩
  | jumpIfNull jumpdone | jumpIfNotNull jumpdone | jumpIfNotTrue jumpdone =>
    simp only [execStep, Option.some.injEq, Prod.mk.injEq] at h
    obtain ⟨hpc, rfl⟩ := h
    refine ⟨none, ⟨rfl, ?_⟩, rfl⟩
    split at hpc
    · simp [← hpc]
    · simp [← hpc]
  | nulltestIsNull => cases h; exact ⟨some _, ⟨⟨_, rfl⟩, rfl⟩, rfl⟩
  | nulltestIsNotNull => cases h; exact ⟨some _, ⟨⟨_, rfl⟩, rfl⟩, rfl⟩
  | caseTestval value => cases h; exact ⟨some _, ⟨rfl, rfl⟩, rfl⟩
  | other n targets =>
    simp only [execStep, Option.some.injEq, Prod.mk.injEq] at h
    obtain ⟨rfl, rfl⟩ := h
    refine ⟨some _, ?_, rfl⟩
    cases hway : (env.other n s.cells).2 with
    | zero => exact Or.inl rfl
    | succ way =>
      rw [List.getD_cons_succ, List.getD_eq_getElem?_getD]
      cases ht : targets[way]? with
      | none => exact Or.inl rfl
      | some t => exact Or.inr (List.mem_of_getElem? ht)

end ConstantArgAux

open ConstantArgAux

variable {F : Type} {steps : List (ExprEvalStep F)}

/-- Every run of the interpreter, whatever the input row and the functions, is a run of the flow. -/
theorem flowRun_of_interpStep {env : ExprEnv F} {a b : Nat × EvalState} (h : Relation.ReflTransGen (InterpStep env steps) a b) :
    FlowRun steps (a.1, a.2.cells) (b.1, b.2.cells) := by
  induction h with
  | refl => exact .refl
  | tail _ hstep ih =>
    obtain ⟨step, hget, hexec⟩ := hstep
    obtain ⟨w, hflow, hcells⟩ := opFlow_execStep hexec
    exact ih.tail ⟨step, w, hget, hflow, hcells⟩

namespace ConstantArgAux

/-! ### One location's share of the flow -/

/-- The content of a location along a run of the steps is a run of the location's own flow. -/
theorem slotRun_of_flowRun (slot : Cell) {a b : Nat × (Cell → NullableDatum)} (h : FlowRun steps a b) :
    Run (slotFlow steps slot) (a.1, a.2 slot) (b.1, b.2 slot) := by
  induction h with
  | refl => exact .refl
  | tail _ hstep ih =>
    obtain ⟨step, w, hget, hflow, hmem⟩ := hstep
    rw [hmem]
    by_cases hslot : step.resvalue = slot
    · cases w with
      | none => exact ih.tail (.keep _ ⟨step, none, hget, hflow, (if_pos hslot).symm⟩)
      | some d =>
        subst hslot
        rw [applyStore_self]
        exact ih.tail (.store _ d ⟨step, some d, hget, hflow, (if_pos rfl).symm⟩)
    · rw [applyStore_of_ne _ hslot]
      exact ih.tail (.keep _ ⟨step, w, hget, hflow, (if_neg hslot).symm⟩)

/-- A run of a location's own flow is the location's content along some run of the steps. -/
theorem flowRun_of_slotRun {slot : Cell} {a b : Nat × NullableDatum} (h : Run (slotFlow steps slot) a b)
    {m : Cell → NullableDatum} (hm : m slot = a.2) : ∃ m', FlowRun steps (a.1, m) (b.1, m') ∧ m' slot = b.2 := by
  induction h with
  | refl => exact ⟨m, .refl, hm⟩
  | tail _ hstep ih =>
    obtain ⟨m', hrun, hm'⟩ := ih
    cases hstep with
    | keep v he =>
      obtain ⟨step, w, hget, hflow, hw⟩ := he
      refine ⟨applyStore m' step.resvalue w, hrun.tail ⟨step, w, hget, hflow, rfl⟩, ?_⟩
      cases w with
      | none => exact hm'
      | some d =>
        have hne : step.resvalue ≠ slot := fun heq => nomatch (hw.trans (if_pos heq))
        exact (applyStore_of_ne m' hne (some d)).trans hm'
    | store v d he =>
      obtain ⟨step, w, hget, hflow, hw⟩ := he
      have heq : step.resvalue = slot := by
        by_contra hne
        rw [if_neg hne] at hw
        nomatch hw
      rw [if_pos heq] at hw
      subst hw
      refine ⟨applyStore m' step.resvalue (some d), hrun.tail ⟨step, some d, hget, hflow, rfl⟩, ?_⟩
      rw [heq, applyStore_self]

/-- With forward jumps control only moves up. -/
theorem slotFlow_up (hfwd : ForwardJumps steps) (slot : Cell) :
    ∀ pc w next, (slotFlow steps slot).edge pc w next → id pc < id next := by
  intro pc w next ⟨step, w', hget, hflow, _⟩
  have ht := hfwd pc step hget
  obtain ⟨op, c⟩ := step
  cases op with
  | boolAndStep pos n jumpdone | boolOrStep pos n jumpdone =>
    cases pos <;> simp only [OpFlow, EvalOp.targets, List.mem_singleton, forall_eq, id] at hflow ht ⊢ <;> omega
  | other n targets =>
    rcases hflow with rfl | hmem
    · exact Nat.lt_succ_self pc
    · exact ht next hmem
  | _ =>
    simp only [OpFlow, EvalOp.targets, List.mem_singleton, forall_eq, id] at hflow ht ⊢
    try omega

end ConstantArgAux

/-! ## When the report is right -/

/-- Whatever the step stores in its location, it is `c`: a CONST of `c`, a QUAL that fails if `c` is false, the last step of a chain
if `c` is null, or a step that stores nothing. -/
def EvalOp.StoresOnly (c : NullableDatum) : EvalOp F → Prop
  | .const k => k = c
  | .qual _ => ⟨boolGetDatum false, false⟩ = c
  | .boolAndStep .last .. | .boolOrStep .last .. => ⟨0, true⟩ = c
  | .var .. | .funcExpr .. | .funcExprStrict .. | .caseTestval _ | .boolNotStep | .nulltestIsNull | .nulltestIsNotNull
  | .other .. => False
  | _ => True

/-- Among the steps before `opno` that have the slot as their location, `step`, at `j`, is the nearest one in the array. -/
def NearestWriter (steps : List (ExprEvalStep F)) (slot : Cell) (opno j : Nat) (step : ExprEvalStep F) : Prop :=
  j < opno ∧ steps[j]? = some step ∧ step.resvalue = slot ∧
    ∀ i s, j < i → i < opno → steps[i]? = some s → s.resvalue ≠ slot

/-- If the nearest writer in the array is a CONST, then every step whose store into the slot can be the last one on a way to `opno`
stores only that constant, and if `opno` can be reached without such a store, the slot was filled with it beforehand. -/
def NearestConstOnEveryPath (steps : List (ExprEvalStep F)) (opno : Nat) (fcinfo : FunctionCallInfo) (argno : Int) : Prop :=
  0 ≤ argno → argno < fcinfo.nargs → ∀ j step c, NearestWriter steps (.arg fcinfo.id argno.toNat) opno j step →
    step.op = .const c →
      (∀ k s d, steps[k]? = some s → LastStore (slotFlow steps (.arg fcinfo.id argno.toNat)) 0 k d opno → s.op.StoresOnly c) ∧
      (Storeless (slotFlow steps (.arg fcinfo.id argno.toNat)) 0 opno → fcinfo.args argno.toNat = c)

namespace ConstantArgAux

/-- The scan ends at the nearest writer, or finds none. -/
theorem resolveScan_cases (steps : List (ExprEvalStep F)) (slot : Cell) (prefilled : NullableDatum) (opno : Nat) :
    (∃ j step, NearestWriter steps slot opno j step ∧
      resolveScan steps slot prefilled opno = match step.op with | .const c => some c | _ => none) ∨
    ((∀ i s, i < opno → steps[i]? = some s → s.resvalue ≠ slot) ∧ resolveScan steps slot prefilled opno = some prefilled) := by
  induction opno with
  | zero => exact Or.inr ⟨fun i s hi => absurd hi (Nat.not_lt_zero i), rfl⟩
  | succ n ih =>
    cases hget : steps[n]? with
    | none =>
      simp only [resolveScan, hget]
      rcases ih with ⟨j, step, ⟨hj, hstep, hslot, hnear⟩, hres⟩ | ⟨hno, hres⟩
      · refine Or.inl ⟨j, step, ⟨by omega, hstep, hslot, ?_⟩, hres⟩
        intro i s hji hi hs
        rcases Nat.lt_succ_iff_lt_or_eq.1 hi with hlt | rfl
        · exact hnear i s hji hlt hs
        · cases hget.symm.trans hs
      · refine Or.inr ⟨?_, hres⟩
        intro i s hi hs
        rcases Nat.lt_succ_iff_lt_or_eq.1 hi with hlt | rfl
        · exact hno i s hlt hs
        · cases hget.symm.trans hs
    | some step =>
      simp only [resolveScan, hget]
      by_cases hslot : step.resvalue = slot
      · rw [if_pos hslot]
        refine Or.inl ⟨n, step, ⟨Nat.lt_succ_self n, hget, hslot, ?_⟩, rfl⟩
        intro i s hji hi
        omega
      · rw [if_neg hslot]
        have hlast : ∀ i s, i = n → steps[i]? = some s → s.resvalue ≠ slot := by
          rintro i s rfl hs
          cases hget.symm.trans hs
          exact hslot
        rcases ih with ⟨j, step', ⟨hj, hstep, hslot', hnear⟩, hres⟩ | ⟨hno, hres⟩
        · refine Or.inl ⟨j, step', ⟨by omega, hstep, hslot', ?_⟩, hres⟩
          intro i s hji hi hs
          rcases Nat.lt_succ_iff_lt_or_eq.1 hi with hlt | heq
          · exact hnear i s hji hlt hs
          · exact hlast i s heq hs
        · refine Or.inr ⟨?_, hres⟩
          intro i s hi hs
          rcases Nat.lt_succ_iff_lt_or_eq.1 hi with hlt | heq
          · exact hno i s hlt hs
          · exact hlast i s heq hs

/-- A last store into a location is made by a step that has it as its location. -/
theorem LastStore.writer {slot : Cell} {j q : Nat} {d : NullableDatum} (h : LastStore (slotFlow steps slot) 0 j d q) :
    ∃ step, steps[j]? = some step ∧ step.resvalue = slot := by
  obtain ⟨-, k, ⟨step, w, hget, -, hw⟩, -⟩ := h
  refine ⟨step, hget, ?_⟩
  by_contra hne
  rw [if_neg hne] at hw
  nomatch hw

/-- On an edge where a step stores something, it can store only `c` exactly when it is one of the steps that store only `c`. -/
theorem opFlow_storesOnly {op : EvalOp F} {pc next : Nat} {d c : NullableDatum} (h : OpFlow op pc (some d) next) :
    (∀ d', OpFlow op pc (some d') next → d' = c) ↔ op.StoresOnly c := by
  have hany : ∀ P : NullableDatum → Prop, (∀ d', P d') → ¬∀ d', P d' → d' = c := fun P hP hall =>
    absurd ((hall ⟨0, true⟩ (hP _)).trans (hall ⟨0, false⟩ (hP _)).symm) (by decide)
  have hbool : ∀ P : NullableDatum → Prop, (∀ b, P ⟨boolGetDatum b, false⟩) → ¬∀ d', P d' → d' = c := fun P hP hall =>
    absurd ((hall _ (hP true)).trans (hall _ (hP false)).symm) (by decide)
  cases op with
  | const k =>
    obtain ⟨-, rfl⟩ := h
    simp only [OpFlow, EvalOp.StoresOnly, Option.some.injEq, and_true, forall_eq]
  | qual jumpdone =>
    obtain ⟨hw, -⟩ | ⟨-, rfl⟩ := h
    · nomatch hw
    · simp only [OpFlow, EvalOp.StoresOnly, reduceCtorEq, false_and, false_or, Option.some.injEq, and_true, forall_eq]
  | boolAndStep pos n jumpdone | boolOrStep pos n jumpdone =>
    cases pos with
    | first | step => nomatch h.1
    | last =>
      obtain ⟨-, rfl⟩ := h
      simp only [OpFlow, EvalOp.StoresOnly, reduceCtorEq, false_or, Option.some.injEq, and_true, forall_eq]
  | var src n => exact iff_of_false (hany _ fun d' => ⟨rfl, h.2⟩) id
  | funcExpr fn fcinfo nargs => exact iff_of_false (hany _ fun d' => ⟨rfl, h.2⟩) id
  | funcExprStrict fn fcinfo nargs => exact iff_of_false (hany _ fun d' => ⟨rfl, h.2⟩) id
  | caseTestval value => exact iff_of_false (hany _ fun d' => ⟨rfl, h.2⟩) id
  | other n targets => exact iff_of_false (hany _ fun d' => h) id
  | boolNotStep => exact iff_of_false (hbool _ fun b => ⟨⟨b, false, rfl⟩, h.2⟩) id
  | nulltestIsNull => exact iff_of_false (hbool _ fun b => ⟨⟨b, rfl⟩, h.2⟩) id
  | nulltestIsNotNull => exact iff_of_false (hbool _ fun b => ⟨⟨b, rfl⟩, h.2⟩) id
  | done => exact absurd h id
  | assignVar src n r => nomatch h.1
  | assignTmp r => nomatch h.1
  | jump jumpdone => nomatch h.1
  | jumpIfNull jumpdone => nomatch h.1
  | jumpIfNotNull jumpdone => nomatch h.1
  | jumpIfNotTrue jumpdone => nomatch h.1

/-- All last stores store `c` exactly when all the steps that make them store only `c`. -/
theorem lastStore_const_iff {slot : Cell} {q : Nat} {c : NullableDatum} :
    (∀ j d, LastStore (slotFlow steps slot) 0 j d q → d = c) ↔
      ∀ j s d, steps[j]? = some s → LastStore (slotFlow steps slot) 0 j d q → s.op.StoresOnly c := by
  constructor
  · intro h j s d hget hlast
    obtain ⟨hreach, k, ⟨step, w, hstep, hflow, hw⟩, hpath⟩ := hlast
    obtain rfl : s = step := Option.some.inj (hget.symm.trans hstep)
    by_cases hslot : s.resvalue = slot
    · rw [if_pos hslot] at hw
      subst hw
      refine (opFlow_storesOnly hflow).1 fun d' hflow' => ?_
      exact h j d' ⟨hreach, k, ⟨s, some d', hget, hflow', (if_pos hslot).symm⟩, hpath⟩
    · rw [if_neg hslot] at hw
      nomatch hw
  · intro h j d hlast
    obtain ⟨s, hget, hslot⟩ := LastStore.writer hlast
    have hstores := h j s d hget hlast
    obtain ⟨-, k, ⟨step, w, hstep, hflow, hw⟩, -⟩ := hlast
    obtain rfl : s = step := Option.some.inj (hget.symm.trans hstep)
    rw [if_pos hslot] at hw
    subst hw
    exact (opFlow_storesOnly hflow).2 hstores d hflow

/-- The cells with the arguments of a call, and nulls elsewhere. -/
def argCells (fcinfo : FunctionCallInfo) : Cell → NullableDatum
  | .arg _ k => fcinfo.args k
  | _ => ⟨0, true⟩

/-- The slot holds `c` in every run to `opno` exactly when the last stores on the ways to `opno` store only `c`, and what the slot
was filled with is `c` if there is a way without a store. -/
theorem slot_const_iff {opno : Nat} {fcinfo : FunctionCallInfo} {argno : Nat} {c : NullableDatum} :
    (∀ m m', (∀ k, m (.arg fcinfo.id k) = fcinfo.args k) → FlowRun steps (0, m) (opno, m') →
      m' (.arg fcinfo.id argno) = c) ↔
    (∀ k s d, steps[k]? = some s → LastStore (slotFlow steps (.arg fcinfo.id argno)) 0 k d opno → s.op.StoresOnly c) ∧
      (Storeless (slotFlow steps (.arg fcinfo.id argno)) 0 opno → fcinfo.args argno = c) := by
  rw [← lastStore_const_iff, ← run_const_iff]
  constructor
  · intro h w hrun
    obtain ⟨m', hflow, hm'⟩ := flowRun_of_slotRun hrun (m := argCells fcinfo) rfl
    exact hm'.symm.trans (h (argCells fcinfo) m' (fun k => rfl) hflow)
  · intro h m m' hm hrun
    have hslot := slotRun_of_flowRun (.arg fcinfo.id argno) hrun
    simp only [hm argno] at hslot
    exact h _ hslot

end ConstantArgAux

/-- The argument reported constant has the reported value and null flag in every run that reaches the call, whatever the input row
and whatever branches are taken, exactly when the nearest writer in the array, if it is a CONST, is the constant of every last
store on a way to the call. -/
theorem reported_constant_holds_iff (hfwd : ForwardJumps steps) (opno : Nat) (fcinfo : FunctionCallInfo) (argno : Int) :
    ReportedConstantHolds steps opno fcinfo argno ↔ NearestConstOnEveryPath steps opno fcinfo argno := by
  unfold ReportedConstantHolds NearestConstOnEveryPath resolveConstantFuncArg
  by_cases hrange : argno < 0 ∨ argno ≥ fcinfo.nargs
  · rw [if_pos hrange]
    exact iff_of_true (fun d hd => nomatch hd) (fun h0 hn => by omega)
  rw [if_neg hrange]
  simp only [slot_const_iff]
  rcases resolveScan_cases steps (.arg fcinfo.id argno.toNat) (fcinfo.args argno.toNat) opno with
    ⟨j, step, hnear, hres⟩ | ⟨hno, hres⟩
  · rw [hres]
    constructor
    · intro h h0 hn j' step' c hnear' hconst
      have hj : j' = j := by
        rcases Nat.lt_trichotomy j j' with hlt | heq | hgt
        · exact absurd hnear'.2.2.1 (hnear.2.2.2 j' step' hlt hnear'.1 hnear'.2.1)
        · exact heq.symm
        · exact absurd hnear.2.2.1 (hnear'.2.2.2 j step hgt hnear.1 hnear.2.1)
      subst hj
      obtain rfl : step' = step := Option.some.inj (hnear'.2.1.symm.trans hnear.2.1)
      exact h c (by rw [hconst])
    · intro h d hd
      split at hd
      · rename_i c hconst
        exact h (by omega) (by omega) j step d hnear (by rw [hconst, Option.some.inj hd])
      · nomatch hd
  · -- no step before `opno` writes the slot: no way to `opno` has a store, for control only moves up
    rw [hres]
    have hnone : ∀ k d, ¬LastStore (slotFlow steps (.arg fcinfo.id argno.toNat)) 0 k d opno := by
      intro k d hlast
      obtain ⟨s, hget, hslot⟩ := LastStore.writer hlast
      exact hno k s (Reaching.LastStore.rank_lt (slotFlow_up hfwd _) hlast) hget hslot
    refine iff_of_true ?_ ?_
    · intro d hd
      cases hd
      exact ⟨fun k s d' hget hlast => absurd hlast (hnone k d'), fun _ => rfl⟩
    · intro h0 hn j step c hnear
      exact absurd hnear.2.2.1 (hno j step hnear.1 hnear.2.1)

namespace ConstantArgWitness

/-- `f(x, CASE WHEN b THEN c ELSE 2 END)`: the CASE writes the second argument on both of its branches. -/
def caseArgument (c : Datum) : List (ExprEvalStep Unit) :=
  [⟨.var .scan 0, .arg 0 0⟩, ⟨.var .scan 1, .other 0⟩, ⟨.jumpIfNotTrue 5, .other 0⟩, ⟨.const ⟨c, false⟩, .arg 0 1⟩,
    ⟨.jump 6, .arg 0 1⟩, ⟨.const ⟨2, false⟩, .arg 0 1⟩, ⟨.funcExprStrict () 0 2, .state⟩, ⟨.done, .state⟩]

theorem forwardJumps_caseArgument (c : Datum) : ForwardJumps (caseArgument c) := by
  intro pc step hget
  match pc, hget with
  | 0, rfl | 1, rfl | 2, rfl | 3, rfl | 4, rfl | 5, rfl | 6, rfl | 7, rfl => simp [EvalOp.targets]

/-- The call, with both arguments filled with null. -/
def call : FunctionCallInfo := ⟨0, 2, fun _ => ⟨0, true⟩⟩

/-- Each branch of the CASE writes the argument before it comes to the call. -/
theorem not_storeless (c : Datum) : ¬ Storeless (slotFlow (caseArgument c) (.arg 0 1)) 0 6 := by
  intro hpath
  rcases hpath.cases_tail with heq | ⟨p, hbefore, step, w, hstep, hflow, hw⟩
  · nomatch heq
  · match p, hstep with
    | 0, rfl | 1, rfl | 6, rfl => nomatch hflow.2
    | 2, rfl => rcases hflow.2 with h | h <;> nomatch h
    | 3, rfl => nomatch hflow.2
    | 5, rfl => cases hflow.1; nomatch hw
    | 7, rfl => exact absurd hflow id
    | 4, rfl =>
      -- the branch of the THEN, whose constant stands right before
      rcases hbefore.cases_tail with heq | ⟨p', -, step', w', hstep', hflow', hw'⟩
      · nomatch heq
      · match p', hstep' with
        | 0, rfl | 1, rfl | 4, rfl | 5, rfl | 6, rfl => nomatch hflow'.2
        | 2, rfl => rcases hflow'.2 with h | h <;> nomatch h
        | 3, rfl => cases hflow'.1; nomatch hw'
        | 7, rfl => exact absurd hflow' id

/-- Where the CASE leaves 2 on both branches, the second argument is reported constant, and is. -/
theorem const_argument_holds : ReportedConstantHolds (caseArgument 2) 6 call 1 := by
  refine (reported_constant_holds_iff (forwardJumps_caseArgument 2) 6 call 1).2 ?_
  intro _ _ j step c ⟨hj, hget, hslot, hnear⟩ hconst
  match j, hj, hget with
  | 0, _, rfl | 1, _, rfl | 2, _, rfl => exact absurd hslot (by decide)
  | 3, _, rfl => exact absurd rfl (hnear 5 _ (by decide) (by decide) rfl)
  | 4, _, rfl => nomatch hconst
  | 5, _, rfl =>
    cases hconst
    refine ⟨?_, fun hpath => absurd hpath (not_storeless 2)⟩
    intro k s d hs hlast
    obtain ⟨s', hs', hslot'⟩ := LastStore.writer hlast
    cases hs.symm.trans hs'
    match k, hs with
    | 0, rfl | 1, rfl | 2, rfl | 6, rfl | 7, rfl => exact absurd hslot' (by decide)
    | 3, rfl | 5, rfl => rfl
    | 4, rfl => trivial

/-- A row whose columns are all true. -/
def row : ExprEnv Unit :=
  { slot := fun _ _ => ⟨1, false⟩, caseValue := ⟨0, true⟩, call := fun _ _ => ⟨0, true⟩, other := fun _ _ => (⟨0, true⟩, 0) }

/-- The state before the first step: nothing is written. -/
def start : EvalState := { cells := fun _ => ⟨0, true⟩, anynull := fun _ => false, result := fun _ => ⟨0, true⟩ }

/-- For a row whose condition is true the CASE leaves 1, and 2 is reported. -/
theorem case_argument_reported : ¬∀ (F : Type) (steps : List (ExprEvalStep F)) (opno : Nat) (fcinfo : FunctionCallInfo)
    (argno : Int), ForwardJumps steps → ReportedConstantHolds steps opno fcinfo argno := by
  intro h
  have hrun : Relation.ReflTransGen (InterpStep row (caseArgument 1)) (0, start) (6, _) :=
    (((((Relation.ReflTransGen.refl.tail ⟨_, rfl, rfl⟩).tail ⟨_, rfl, rfl⟩).tail ⟨_, rfl, rfl⟩).tail
      ⟨_, rfl, rfl⟩).tail ⟨_, rfl, rfl⟩)
  have := h Unit (caseArgument 1) 6 call 1 (forwardJumps_caseArgument 1) ⟨2, false⟩ rfl _ _ (fun k => rfl) (flowRun_of_interpStep hrun)
  exact absurd this (by decide)

end ConstantArgWitness

end PgJitter
