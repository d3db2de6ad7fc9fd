import PgJitter.Lemmas.CompileSteps

/-!
# Helpers for `CompileExpr.lean`: calls

The null checks of a strict call see whether an argument is null; each of the three tiers puts the result of the function, called on what
is in memory, in the location of the step.
-/

namespace PgJitter
namespace CompileExprAux

open Assembly Backpatch

variable {G : Type} {t : ExprTarget G} {cfg : CompileConfig G} {live : Cell → Prop} {flags : Nat → Prop} {m : Mach G} {s : EvalState}
  {opno next : Nat} {step : ExprEvalStep G} {n : Nat}

/-- Code that leaves the memory and the `fcinfo` in a register. -/
def Keeps (m m' : Mach G) (k n : Nat) : Prop := m'.words = m.words ∧ m'.bytes = m.bytes ∧ m'.regs k = .ptr (.fcinfo n)

theorem Keeps.trans {a b c : Mach G} {k : Nat} (h : Keeps a b k n) (h' : Keeps b c k n) : Keeps a c k n :=
  ⟨h'.1.trans h.1, h'.2.1.trans h.2.1, h'.2.2⟩

theorem keeps_setReg {k j : Nat} (h : m.regs k = .ptr (.fcinfo n)) (hj : k ≠ j) (w : RegWord G) : Keeps m (m.setReg j w) k n :=
  ⟨rfl, rfl, by rw [regs_setReg, if_neg hj, h]⟩

/-! ## Null checks -/

/-- Whether one of some arguments is null. -/
def anyNull (s : EvalState) (n : Nat) (ks : List Nat) : Bool := ks.any fun k => (s.cells (.arg n k)).isnull

theorem anyNull_range (s : EvalState) (n nargs : Nat) : (s.args n nargs).any (·.isnull) = anyNull s n (List.range nargs) := by
  rw [EvalState.args, List.any_map, anyNull]
  rfl

section NullChecks

variable {ks : List Nat}

/-- A null flag of an argument. -/
theorem load_argIsnull (hsim : Sim t.env live flags m s) {k : Nat} (hlive : live (.arg n k)) (hr : m.regs 1 = .ptr (.fcinfo n))
    (dst : Nat) : Instr.exec t (.loadU8 dst (.r 1) (.argIsnull k)) m =
      .next (m.setReg dst (.datum ((boolByte (s.cells (.arg n k)).isnull).setWidth 64))) := by
  rw [exec_loadU8 (base_r hr) rfl, hsim.isnull hlive]

/-- The flags of two to four arguments, or-ed. -/
theorem orNulls_run (hsim : Sim t.env live flags m s) (hlive : ∀ k ∈ ks, live (.arg n k)) (hr : m.regs 1 = .ptr (.fcinfo n))
    {a : Bool} (ha : m.regs 0 = .datum ((boolByte a).setWidth 64)) :
    ∃ m', execOps (Instr.exec t) (ks.flatMap fun k => [.loadU8 2 (.r 1) (.argIsnull k), .or 0 2]) m = some m' ∧ Keeps m m' 1 n ∧
      m'.regs 0 = .datum ((boolByte (a || anyNull s n ks)).setWidth 64) := by
  induction ks generalizing m a with
  | nil => exact ⟨m, rfl, ⟨rfl, rfl, hr⟩, by rw [ha, anyNull, List.any_nil, Bool.or_false]⟩
  | cons k ks ih =>
    have hload := load_argIsnull (t := t) hsim (hlive k List.mem_cons_self) hr 2
    have hor : Instr.exec t (.or 0 2) (m.setReg 2 (.datum ((boolByte (s.cells (.arg n k)).isnull).setWidth 64))) =
        .next ((m.setReg 2 (.datum ((boolByte (s.cells (.arg n k)).isnull).setWidth 64))).setReg 0
          (.datum ((boolByte (a || (s.cells (.arg n k)).isnull)).setWidth 64))) := by
      have hzero : (m.setReg 2 (.datum ((boolByte (s.cells (.arg n k)).isnull).setWidth 64))).regs 0 =
          .datum ((boolByte a).setWidth 64) := by rw [regs_setReg, if_neg (by decide), ha]
      have htwo : (m.setReg 2 (.datum ((boolByte (s.cells (.arg n k)).isnull).setWidth 64))).regs 2 =
          .datum ((boolByte (s.cells (.arg n k)).isnull).setWidth 64) := by rw [regs_setReg, if_pos rfl]
      simp only [Instr.exec, datum_reg hzero, datum_reg htwo, Option.bind_some, Option.map_some, nextOf, boolByte_or]
    have hkeeps := (keeps_setReg hr (by decide : (1 : Nat) ≠ 2) (.datum ((boolByte (s.cells (.arg n k)).isnull).setWidth 64)))
    have hkeeps' := hkeeps.trans (keeps_setReg hkeeps.2.2 (by decide : (1 : Nat) ≠ 0)
      (.datum ((boolByte (a || (s.cells (.arg n k)).isnull)).setWidth 64)))
    obtain ⟨m', hrun, hk, hz⟩ := ih (hsim.congr hkeeps'.1 hkeeps'.2.1) (fun k' hk' => hlive k' (List.mem_cons_of_mem k hk'))
      hkeeps'.2.2 (a := a || (s.cells (.arg n k)).isnull) (by rw [regs_setReg, if_pos rfl])
    refine ⟨m', ?_, hkeeps'.trans hk, ?_⟩
    · rw [List.flatMap_cons]
      exact execOps_trans ((execOps_cons hload _).trans (execOps_cons hor _)) hrun
    · rw [hz, anyNull, anyNull, List.any_cons, Bool.or_assoc]

/-- The checks have no marks. -/
theorem marks_eachNull (ks : List Nat) (nullPath : Nat) :
    marks (ks.flatMap fun k => [.op (.loadU8 0 (.r 1) (.argIsnull k)), .jumpTo (.cmpZero false 0) nullPath] : List (Item (Instr G))) =
      [] := by
  induction ks with
  | nil => rfl
  | cons k ks ih => exact ih

/-- The flags of arguments, each checked: a null goes to the null path. -/
theorem eachNull_run (ks : List Nat) (hsim : Sim t.env live flags m s) (hlive : ∀ k ∈ ks, live (.arg n k))
    (hr : m.regs 1 = .ptr (.fcinfo n)) :
    ∃ m', Keeps m m' 1 n ∧ runItems (Instr.exec t) (.running m)
        (ks.flatMap fun k => [.op (.loadU8 0 (.r 1) (.argIsnull k)), .jumpTo (.cmpZero false 0) 0]) =
      if anyNull s n ks = true then .skipping 0 m' else .running m' := by
  induction ks generalizing m with
  | nil => exact ⟨m, ⟨rfl, rfl, hr⟩, rfl⟩
  | cons k ks ih =>
    have hload := load_argIsnull (t := t) hsim (hlive k List.mem_cons_self) hr 0
    have hkeeps := keeps_setReg hr (by decide : (1 : Nat) ≠ 0) (.datum ((boolByte (s.cells (.arg n k)).isnull).setWidth 64))
    have hzero : (m.setReg 0 (.datum ((boolByte (s.cells (.arg n k)).isnull).setWidth 64))).regs 0 =
        .datum ((boolByte (s.cells (.arg n k)).isnull).setWidth 64) := by rw [regs_setReg, if_pos rfl]
    rw [List.flatMap_cons, runItems_append, runItems_cons, runItems_cons, runItems_nil, item_op_next hload, anyNull, List.any_cons]
    cases hnull : (s.cells (.arg n k)).isnull with
    | true =>
      rw [hnull] at hzero hkeeps
      refine ⟨_, hkeeps, ?_⟩
      rw [item_jumpTo_jump (null_jump hzero), Bool.true_or, if_pos rfl]
      exact runItems_skipping (by rw [marks_eachNull]; exact List.not_mem_nil) _
    | false =>
      rw [hnull] at hzero hkeeps
      obtain ⟨m', hk, hrun⟩ := ih (hsim.congr hkeeps.1 hkeeps.2.1) (fun k' hk' => hlive k' (List.mem_cons_of_mem k hk')) hkeeps.2.2
      refine ⟨m', hkeeps.trans hk, ?_⟩
      rw [item_jumpTo_next (cmpZero_next hzero rfl), hrun, Bool.false_or, anyNull]

/-- The null checks of a strict call. -/
theorem nullChecks_run (hsim : Sim t.env live flags m s) {nargs : Nat} (hlive : ∀ k < nargs, live (.arg n k))
    (hstep : t.steps[opno]? = some step) (hfcinfo : stepFieldWord step .fcinfo = .ptr (.fcinfo n)) :
    ∃ m', Keeps m m' 1 n ∧ runItems (Instr.exec t) (.running m) (emitNullChecks opno nargs 0) =
      if (s.args n nargs).any (·.isnull) = true then .skipping 0 m' else .running m' := by
  have hload : execOps (Instr.exec t) [.stepField 1 opno .fcinfo] m = some (m.setReg 1 (.ptr (.fcinfo n))) := by
    rw [execOps_cons (exec_stepField hstep _), hfcinfo, execOps_nil]
  have hr : (m.setReg 1 (.ptr (.fcinfo n))).regs 1 = .ptr (.fcinfo n) := by rw [regs_setReg, if_pos rfl]
  have hsim₁ : Sim t.env live flags (m.setReg 1 (.ptr (.fcinfo n))) s := hsim.congr rfl rfl
  have hmem : Keeps m (m.setReg 1 (.ptr (.fcinfo n))) 1 n := ⟨rfl, rfl, hr⟩
  rw [anyNull_range, emitNullChecks, runItems_append, runItems_ops hload]
  split
  · rename_i hnargs
    obtain ⟨nargs, rfl⟩ : ∃ j, nargs = j + 1 := ⟨nargs - 1, by omega⟩
    have hfirst := load_argIsnull (t := t) hsim₁ (hlive 0 (Nat.succ_pos _)) hr 0
    have hkeeps := keeps_setReg hr (by decide : (1 : Nat) ≠ 0) (.datum ((boolByte (s.cells (.arg n 0)).isnull).setWidth 64))
    have hmemRange : ∀ k ∈ List.range' 1 nargs, live (.arg n k) := fun k hk => hlive k (by
      have := List.mem_range'_1.1 hk
      omega)
    obtain ⟨m', hrun, hk, hz⟩ := orNulls_run (hsim₁.congr hkeeps.1 hkeeps.2.1) hmemRange hkeeps.2.2
      (a := (s.cells (.arg n 0)).isnull) (by rw [regs_setReg, if_pos rfl])
    have hall : ((s.cells (.arg n 0)).isnull || anyNull s n (List.range' 1 nargs)) = anyNull s n (List.range (nargs + 1)) := by
      rw [List.range_eq_range', List.range'_succ, anyNull, anyNull, List.any_cons]
    rw [hall] at hz
    refine ⟨m', hmem.trans (hkeeps.trans hk), ?_⟩
    rw [Nat.add_sub_cancel, runItems_append, runItems_ops ((execOps_cons hfirst _).trans hrun), runItems_cons, runItems_nil]
    cases hnull : anyNull s n (List.range (nargs + 1)) with
    | true =>
      rw [hnull] at hz
      rw [item_jumpTo_jump (null_jump hz), if_pos rfl]
    | false =>
      rw [hnull] at hz
      rw [item_jumpTo_next (cmpZero_next hz rfl), if_neg Bool.false_ne_true]
  · obtain ⟨m', hk, hrun⟩ := eachNull_run (List.range nargs) hsim₁ (fun k hk => hlive k (List.mem_range.1 hk)) hr
    exact ⟨m', hmem.trans hk, hrun⟩

end NullChecks

/-! ## Arguments -/

/-- The arguments of a call, as they are in memory. -/
def machArgs (m : Mach G) (n nargs : Nat) : List NullableDatum :=
  (List.range nargs).map fun k => ⟨m.words (.value (.arg n k)), m.bytes (.isnull (.arg n k)) != 0⟩

theorem length_machArgs (m : Mach G) (n nargs : Nat) : (machArgs m n nargs).length = nargs := by
  rw [machArgs, List.length_map, List.length_range]

theorem values_machArgs (m : Mach G) (n nargs : Nat) :
    (machArgs m n nargs).map NullableDatum.value = (List.range nargs).map fun k => m.words (.value (.arg n k)) := by
  rw [machArgs, List.map_map]
  rfl

/-- An argument in memory is the argument that the interpreter has. -/
theorem machArg_same (hsim : Sim t.env live flags m s) {k : Nat} (hlive : live (.arg n k)) :
    NullableDatum.Same ⟨m.words (.value (.arg n k)), m.bytes (.isnull (.arg n k)) != 0⟩ (s.cells (.arg n k)) := by
  have hflag : (m.bytes (.isnull (.arg n k)) != 0) = (s.cells (.arg n k)).isnull := by rw [hsim.isnull hlive, boolByte_bne_zero]
  exact ⟨hflag, fun hnull => hsim.value hlive (hflag.symm.trans hnull)⟩

/-- The arguments in memory are the arguments that the interpreter has. -/
theorem machArgs_same (hsim : Sim t.env live flags m s) {nargs : Nat} (hlive : ∀ k < nargs, live (.arg n k)) :
    List.Forall₂ NullableDatum.Same (machArgs m n nargs) (s.args n nargs) := by
  rw [machArgs, EvalState.args, List.forall₂_map_left_iff, List.forall₂_map_right_iff]
  exact List.forall₂_same.2 fun k hk => machArg_same hsim (hlive k (List.mem_range.1 hk))

/-- No argument in memory is null, where none is. -/
theorem machArgs_notNull (hsim : Sim t.env live flags m s) {nargs : Nat} (hlive : ∀ k < nargs, live (.arg n k))
    (h : (s.args n nargs).any (·.isnull) = false) : ∀ a ∈ machArgs m n nargs, a.isnull = false := by
  intro a ha
  obtain ⟨k, hk, rfl⟩ := List.mem_map.1 ha
  have hk := List.mem_range.1 hk
  rw [(machArg_same hsim (hlive k hk)).1]
  rw [anyNull_range, anyNull, List.any_eq_false] at h
  exact Bool.eq_false_iff.2 (h k (List.mem_range.2 hk))

/-- What a function gives for what is in memory is what it gives the interpreter. -/
theorem call_same (hblind : t.env.Blind) (hsim : Sim t.env live flags m s) {nargs : Nat} (hlive : ∀ k < nargs, live (.arg n k)) (f : G) :
    (t.env.call f (machArgs m n nargs)).Same (t.env.call f (s.args n nargs)) := hblind f _ _ (machArgs_same hsim hlive)

theorem mapM_eq_map {α β : Type} {f : α → Option β} {g : α → β} {l : List α} (h : ∀ a ∈ l, f a = some (g a)) :
    l.mapM f = some (l.map g) := by
  induction l with
  | nil => rfl
  | cons a l ih =>
    rw [List.mapM_cons, h a List.mem_cons_self, ih fun b hb => h b (List.mem_cons_of_mem a hb)]
    rfl

/-- The first registers, when they hold values. -/
theorem args_eq {k : Nat} {g : Nat → Datum} (h : ∀ j < k, m.regs j = .datum (g j)) : m.args k = some ((List.range k).map g) :=
  mapM_eq_map fun j hj => datum_reg (h j (List.mem_range.1 hj))

/-! ## The three tiers -/

/-- A call by PostgreSQL's convention, with the `fcinfo` in `R0`. -/
theorem callV1_eq {env : ExprEnv G} (hreg : m.regs 0 = .ptr (.fcinfo n)) (f : G) (nargs : Nat) :
    m.callV1 env f nargs = some ((if (env.call f (machArgs m n nargs)).isnull then m.setByte (.fcIsnull n) 1 else m).returned
      (env.call f (machArgs m n nargs)).value) := by
  rw [Mach.callV1, hreg]
  rfl

/-- The call leaves its result in `R0`, and sets the null flag of the call for a null one. -/
theorem fnCall_run (cfg : CompileConfig G) (hreg : m.regs 0 = .ptr (.fcinfo n)) (hstep : t.steps[opno]? = some step) {f : G}
    (hfn : stepFieldWord step .fnAddr = .fn f) {nargs : Nat} {r : NullableDatum} (hr : t.env.call f (machArgs m n nargs) = r) :
    ∃ m', execOps (Instr.exec t) (if cfg.sharedCode then [.stepField 1 opno .fnAddr, .callReg 1 nargs] else [.callFn f nargs]) m =
        some m' ∧ m'.words = m.words ∧
      m'.bytes = (if r.isnull then Function.update m.bytes (.fcIsnull n) 1 else m.bytes) ∧ m'.regs 0 = .datum r.value := by
  split
  · have hreg' : (m.setReg 1 (.fn f)).regs 0 = .ptr (.fcinfo n) := by rw [regs_setReg, if_neg (by decide), hreg]
    have hexec : Instr.exec t (.callReg 1 nargs) (m.setReg 1 (.fn f)) = nextOf ((m.setReg 1 (.fn f)).callV1 t.env f nargs) := rfl
    have hargs : machArgs (m.setReg 1 (.fn f)) n nargs = machArgs m n nargs := rfl
    rw [callV1_eq hreg', hargs, hr] at hexec
    have hrun : execOps (Instr.exec t) [.stepField 1 opno .fnAddr, .callReg 1 nargs] m = _ :=
      execOps_cons (exec_stepField hstep .fnAddr) [.callReg 1 nargs]
    rw [hfn, execOps_cons hexec, execOps_nil] at hrun
    exact ⟨_, hrun, by cases r.isnull <;> exact ⟨rfl, rfl, rfl⟩⟩
  · have hexec : Instr.exec t (.callFn f nargs) m = nextOf (m.callV1 t.env f nargs) := rfl
    rw [callV1_eq hreg, hr] at hexec
    exact ⟨_, execOps_cons hexec _, by cases r.isnull <;> exact ⟨rfl, rfl, rfl⟩⟩

/-- The values of the arguments, loaded into the first registers; the base register comes after them, so that every load leaves it. -/
theorem argLoads_run {b : Nat} (hb : m.regs b = .ptr (.fcinfo n)) {j : Nat} (hj : j ≤ b) :
    ∃ m', execOps (Instr.exec t) ((List.range j).map fun k => .load k (.r b) (.argValue k)) m = some m' ∧ Keeps m m' b n ∧
      ∀ k < j, m'.regs k = .datum (m.words (.value (.arg n k))) := by
  induction j with
  | zero => exact ⟨m, rfl, ⟨rfl, rfl, hb⟩, fun k hk => absurd hk (Nat.not_lt_zero k)⟩
  | succ j ih =>
    obtain ⟨m₁, hrun₁, hkeeps, hregs⟩ := ih (Nat.le_of_succ_le hj)
    have hload : Instr.exec t (.load j (.r b) (.argValue j)) m₁ = .next (m₁.setReg j (.datum (m.words (.value (.arg n j))))) := by
      rw [exec_load (base_r hkeeps.2.2) rfl rfl, hkeeps.1]
    refine ⟨m₁.setReg j (.datum (m.words (.value (.arg n j)))), ?_, hkeeps.trans (keeps_setReg hkeeps.2.2 (by omega) _), fun k hk => ?_⟩
    · rw [List.range_succ, List.map_append]
      exact execOps_trans hrun₁ (execOps_cons hload _)
    · rw [regs_setReg]
      split
      · rename_i heq
        rw [heq]
      · rename_i hkj
        exact hregs k (by omega)

section Tiers

variable (cfg) {nargs : Nat} {f : G} (hblind : t.env.Blind) (hsim : Sim t.env live flags m s) (hlive : ∀ k < nargs, live (.arg n k))
  (hstep : t.steps[opno]? = some step) (hfcinfo : stepFieldWord step .fcinfo = .ptr (.fcinfo n))

include hblind hsim hlive hstep hfcinfo

/-- A call by PostgreSQL's convention, after its `fcinfo` is loaded. -/
theorem v1Call_run (hfcinfo₀ : m.regs 0 = .ptr (.fcinfo n)) (hfn : stepFieldWord step .fnAddr = .fn f) :
    ∃ m', execOps (Instr.exec t)
        ([.storeU8 (.r 0) .isnull (.imm 0)] ++
          (if cfg.sharedCode then [.stepField 1 opno .fnAddr, .callReg 1 nargs] else [.callFn f nargs]) ++
          emitStoreResvalue opno step.resvalue (.reg 0) ++ [.stepField 0 opno .fcinfo, .loadU8 0 (.r 0) .isnull] ++
          emitStoreResnull opno step.resvalue (.reg 0)) m = some m' ∧
      Sim t.env live flags m' (s.store step.resvalue (t.env.call f (s.args n nargs))) := by
  -- The null flag of the call is cleared, and the call sets it for a null result.
  have hclear : Instr.exec t (.storeU8 (.r 0) .isnull (.imm 0)) m = .next (m.setByte (.fcIsnull n) 0) :=
    exec_storeU8 (base_r hfcinfo₀) rfl (operand_imm _ 0)
  have hsim₁ : Sim t.env live flags (m.setByte (.fcIsnull n) 0) s := hsim.fcIsnull rfl rfl
  have hsame := call_same hblind hsim₁ hlive f
  generalize hr : t.env.call f (machArgs (m.setByte (.fcIsnull n) 0) n nargs) = r at hsame
  obtain ⟨m₂, hrun₂, hw₂, hb₂, hr₂⟩ := fnCall_run cfg (m := m.setByte (.fcIsnull n) 0) hfcinfo₀ hstep hfn hr
  have hsim₂ : Sim t.env live flags m₂ s := by
    cases hnull : r.isnull with
    | true =>
      rw [hnull, if_pos rfl] at hb₂
      exact hsim₁.fcIsnull hw₂ hb₂
    | false =>
      rw [hnull, if_neg Bool.false_ne_true] at hb₂
      exact hsim₁.congr hw₂ hb₂
  have hflag : m₂.bytes (.fcIsnull n) = boolByte r.isnull := by
    rw [hb₂]
    cases r.isnull with
    | true =>
      rw [if_pos rfl, Function.update_self]
      rfl
    | false =>
      rw [if_neg Bool.false_ne_true, bytes_setByte, Function.update_self]
      rfl
  -- The value is stored, and then the null flag of the call.
  have hvalue : Loads t m₂ [] 0 r.value := ⟨m₂, rfl, rfl, rfl, hr₂⟩
  obtain ⟨m₃, hrun₃, hw₃, hb₃⟩ := hvalue.store Nat.zero_ne_one hstep
  have hload : execOps (Instr.exec t) [.stepField 0 opno .fcinfo, .loadU8 0 (.r 0) .isnull] m₃ =
      some ((m₃.setReg 0 (.ptr (.fcinfo n))).setReg 0 (.datum ((boolByte r.isnull).setWidth 64))) := by
    have hreg : (m₃.setReg 0 (.ptr (.fcinfo n))).regs 0 = .ptr (.fcinfo n) := by rw [regs_setReg, if_pos rfl]
    rw [execOps_cons (exec_stepField hstep _), hfcinfo, execOps_cons (exec_loadU8 (base_r hreg) rfl), execOps_nil, bytes_setReg, hb₃,
      hflag]
  have hrun₄ := run_storeResnull (x := .reg 0) (m := (m₃.setReg 0 (.ptr (.fcinfo n))).setReg 0 (.datum ((boolByte r.isnull).setWidth 64)))
    hstep Nat.zero_ne_one (operand_reg (by rw [regs_setReg, if_pos rfl]))
  refine ⟨_, execOps_trans (execOps_trans (execOps_trans ((execOps_cons hclear _).trans hrun₂) hrun₃) hload) hrun₄, ?_⟩
  refine hsim₂.store (v := r.value) (n := boolByte r.isnull) ?_ ?_ ⟨by rw [hsame.1], fun hnull => hsame.2 (hsame.1.trans hnull)⟩
  · rw [words_setByte, words_viaR1, words_setReg, words_setReg, hw₃]
  · rw [bytes_setByte, bytes_viaR1, bytes_setReg, bytes_setReg, hb₃, boolByte_setWidth]

/-- A call by PostgreSQL's convention; for a strict call the `fcinfo` is in `R1`. -/
theorem emitV1Call_run {strict : Bool} (hr1 : strict = true → m.regs 1 = .ptr (.fcinfo n)) (hfn : stepFieldWord step .fnAddr = .fn f) :
    ∃ m', execOps (Instr.exec t) (emitV1Call cfg strict opno step.resvalue f nargs) m = some m' ∧
      Sim t.env live flags m' (s.store step.resvalue (t.env.call f (s.args n nargs))) := by
  have hload : execOps (Instr.exec t) (if strict then [.mov 0 (.reg 1)] else [.stepField 0 opno .fcinfo]) m =
      some (m.setReg 0 (.ptr (.fcinfo n))) := by
    cases strict with
    | true =>
      have hexec : Instr.exec t (.mov 0 (.reg 1)) m = .next (m.setReg 0 (m.regs 1)) := rfl
      rw [if_pos rfl, execOps_cons hexec, execOps_nil, hr1 rfl]
    | false => rw [if_neg Bool.false_ne_true, execOps_cons (exec_stepField hstep _), hfcinfo, execOps_nil]
  have hr0 : (m.setReg 0 (.ptr (.fcinfo n))).regs 0 = .ptr (.fcinfo n) := by rw [regs_setReg, if_pos rfl]
  have hsim₀ : Sim t.env live flags (m.setReg 0 (.ptr (.fcinfo n))) s := hsim.congr rfl rfl
  obtain ⟨m', hrun, hsim'⟩ := v1Call_run cfg hblind hsim₀ hlive hstep hfcinfo hr0 hfn
  refine ⟨m', ?_, hsim'⟩
  have hcode : emitV1Call cfg strict opno step.resvalue f nargs =
      (if strict then [.mov 0 (.reg 1)] else [.stepField 0 opno .fcinfo]) ++ ([.storeU8 (.r 0) .isnull (.imm 0)] ++
        (if cfg.sharedCode then [.stepField 1 opno .fnAddr, .callReg 1 nargs] else [.callFn f nargs]) ++
        emitStoreResvalue opno step.resvalue (.reg 0) ++ [.stepField 0 opno .fcinfo, .loadU8 0 (.r 0) .isnull] ++
        emitStoreResnull opno step.resvalue (.reg 0)) := by
    rw [emitV1Call]
    simp only [List.append_assoc]
  rw [hcode]
  exact execOps_trans hload hrun

omit hblind hsim hlive in
/-- The arguments of an inlined operation: for a strict call of at most one, the `fcinfo` stays in `R1`. -/
theorem inlineArgs_run {strict : Bool} (hr1 : strict = true → m.regs 1 = .ptr (.fcinfo n)) (nargs : Nat) :
    ∃ m', execOps (Instr.exec t) (emitInlineArgs strict opno nargs) m = some m' ∧ m'.words = m.words ∧ m'.bytes = m.bytes ∧
      m'.regs 0 = .datum (m.words (.value (.arg n 0))) ∧ (2 ≤ nargs → m'.regs 1 = .datum (m.words (.value (.arg n 1)))) ∧
      (strict = true → nargs ≤ 1 → m'.regs 1 = .ptr (.fcinfo n)) := by
  have hbase : ∃ m₁, execOps (Instr.exec t) (if strict then [] else [.stepField 2 opno .fcinfo]) m = some m₁ ∧ m₁.words = m.words ∧
      m₁.bytes = m.bytes ∧ m₁.base (if strict then .r 1 else .r 2) = some (.fcinfo n) ∧ m₁.regs 1 = m.regs 1 := by
    cases strict with
    | true => exact ⟨m, rfl, rfl, rfl, base_r (hr1 rfl), rfl⟩
    | false =>
      refine ⟨_, execOps_cons (exec_stepField hstep _) _, rfl, rfl, base_r ?_, ?_⟩
      · rw [regs_setReg, if_pos rfl, hfcinfo]
      · rw [regs_setReg, if_neg (by decide)]
  obtain ⟨m₁, hrun₁, hw₁, hb₁, hbase, hkept⟩ := hbase
  have hfirst : Instr.exec t (.load 0 (if strict then .r 1 else .r 2) (.argValue 0)) m₁ =
      .next (m₁.setReg 0 (.datum (m₁.words (.value (.arg n 0))))) := exec_load hbase rfl rfl
  have hbase₂ : (m₁.setReg 0 (.datum (m₁.words (.value (.arg n 0))))).base (if strict then .r 1 else .r 2) = some (.fcinfo n) := by
    rw [← hbase]
    cases strict with
    | true => simp [Mach.base]
    | false => simp [Mach.base]
  have hsecond : Instr.exec t (.load 1 (if strict then .r 1 else .r 2) (.argValue 1))
    (m₁.setReg 0 (.datum (m₁.words (.value (.arg n 0))))) =
      .next ((m₁.setReg 0 (.datum (m₁.words (.value (.arg n 0))))).setReg 1 (.datum (m₁.words (.value (.arg n 1))))) :=
    exec_load hbase₂ rfl rfl
  rw [emitInlineArgs]
  by_cases hnargs : 2 ≤ nargs
  · refine ⟨_, execOps_trans hrun₁ ((execOps_cons hfirst _).trans ((congrArg (execOps _ · _) (if_pos hnargs)).trans
      (execOps_cons hsecond _))), hw₁, hb₁, ?_, fun _ => ?_, fun _ hle => absurd hle (by omega)⟩
    · rw [regs_setReg, if_neg (by decide), regs_setReg, if_pos rfl, hw₁]
    · rw [regs_setReg, if_pos rfl, hw₁]
  · refine ⟨_, execOps_trans hrun₁ ((execOps_cons hfirst _).trans (congrArg (execOps _ · _) (if_neg hnargs))), hw₁, hb₁, ?_,
      fun h => absurd h hnargs, fun hstrict _ => ?_⟩
    · rw [regs_setReg, if_pos rfl, hw₁]
    · rw [regs_setReg, if_neg (by decide), hkept]
      exact hr1 hstrict

omit hblind hsim hlive in
/-- The arguments of a direct call are in the first registers. -/
theorem directArgs_run {strict : Bool} (hr1 : strict = true → m.regs 1 = .ptr (.fcinfo n)) (dfn : DirectFn) :
    ∃ m', execOps (Instr.exec t) (emitDirectArgs strict opno dfn) m = some m' ∧ m'.words = m.words ∧ m'.bytes = m.bytes ∧
      m'.args dfn.nativeNargs = some (((List.range dfn.nargs).map fun k => m.words (.value (.arg n k))) ++
        if dfn.collation then [t.native.collation n] else []) := by
  have hbase : Instr.exec t (if strict then .mov dfn.nativeNargs (.reg 1) else .stepField dfn.nativeNargs opno .fcinfo) m =
      .next (m.setReg dfn.nativeNargs (.ptr (.fcinfo n))) := by
    cases strict with
    | true =>
      have hexec : Instr.exec t (.mov dfn.nativeNargs (.reg 1)) m = .next (m.setReg dfn.nativeNargs (m.regs 1)) := rfl
      rw [if_pos rfl, hexec, hr1 rfl]
    | false => rw [if_neg Bool.false_ne_true, exec_stepField hstep, hfcinfo]
  have hle : dfn.nargs ≤ dfn.nativeNargs := by
    rw [DirectFn.nativeNargs]
    omega
  have hreg : (m.setReg dfn.nativeNargs (.ptr (.fcinfo n))).regs dfn.nativeNargs = .ptr (.fcinfo n) := by rw [regs_setReg, if_pos rfl]
  obtain ⟨m₁, hrun₁, hkeeps, hregs⟩ := argLoads_run (t := t) hreg hle
  rw [emitDirectArgs, List.cons_append]
  cases hcoll : dfn.collation with
  | false =>
    have hnargs : dfn.nativeNargs = dfn.nargs := by rw [DirectFn.nativeNargs, hcoll]; rfl
    refine ⟨m₁, (execOps_cons hbase _).trans (execOps_trans hrun₁ (by rw [if_neg Bool.false_ne_true]; rfl)), hkeeps.1, hkeeps.2.1, ?_⟩
    rw [if_neg Bool.false_ne_true, List.append_nil, hnargs]
    exact args_eq hregs
  | true =>
    have hnargs : dfn.nativeNargs = dfn.nargs + 1 := by rw [DirectFn.nativeNargs, hcoll]; rfl
    have hload : Instr.exec t (.load32 dfn.nargs (.r dfn.nativeNargs) .fncollation) m₁ =
        .next (m₁.setReg dfn.nargs (.datum (t.native.collation n))) := exec_load32 (base_r hkeeps.2.2) rfl
    refine ⟨m₁.setReg dfn.nargs (.datum (t.native.collation n)),
      (execOps_cons hbase _).trans (execOps_trans hrun₁ (by rw [if_pos rfl, execOps_cons hload, execOps_nil])), hkeeps.1, hkeeps.2.1, ?_⟩
    have hlast : (m₁.setReg dfn.nargs (.datum (t.native.collation n))).regs dfn.nargs = .datum (t.native.collation n) := by
      rw [regs_setReg, if_pos rfl]
    have hfirst : (List.range dfn.nargs).mapM (m₁.setReg dfn.nargs (.datum (t.native.collation n))).datum =
        some ((List.range dfn.nargs).map fun k => m.words (.value (.arg n k))) := by
      refine mapM_eq_map fun k hk => datum_reg ?_
      have hk := List.mem_range.1 hk
      rw [regs_setReg, if_neg (by omega), hregs k hk, words_setReg]
    rw [if_pos rfl, hnargs, Mach.args, List.range_succ, List.mapM_append, hfirst, List.mapM_cons, datum_reg hlast]
    rfl

/-- A call puts what the function gives the interpreter in the location of the step; for a strict call no argument is null, and the
`fcinfo` is in `R1`. -/
theorem emitCall_run {strict : Bool} (hpaired : cfg.paired = t.paired) (hr1 : strict = true → m.regs 1 = .ptr (.fcinfo n))
    (hfn : stepFieldWord step .fnAddr = .fn f) (hright : ∀ dfn, cfg.direct f = some dfn → dfn.Right cfg t strict f n nargs)
    (hnull : strict = true → (s.args n nargs).any (·.isnull) = false) :
    ∃ m', execOps (Instr.exec t) (emitCall cfg strict opno step.resvalue f nargs) m = some m' ∧
      Sim t.env live flags m' (s.store step.resvalue (t.env.call f (s.args n nargs))) := by
  have hsame := call_same hblind hsim hlive f
  have hnotNull : strict = true → ∀ a ∈ machArgs m n nargs, a.isnull = false := fun h => machArgs_notNull hsim hlive (hnull h)
  -- What is in `R0` after either native call is what the function gives for the arguments in memory.
  have hpair : ∀ {m₁ : Mach G} {d : Datum} {is : List (Instr G)} {i : Instr G}, execOps (Instr.exec t) is m = some m₁ →
      m₁.words = m.words → m₁.bytes = m.bytes → Instr.exec t i m₁ = .next (m₁.returned d) →
      t.env.call f (machArgs m n nargs) = ⟨d, false⟩ →
      ∃ m', execOps (Instr.exec t) (is ++ i :: emitStoreResPairFalse cfg opno step.resvalue 0) m = some m' ∧
        Sim t.env live flags m' (s.store step.resvalue (t.env.call f (s.args n nargs))) := by
    intro m₁ d is i hrun hw hb hexec hd
    have hload : Loads t m (is ++ [i]) 0 d :=
      ⟨m₁.returned d, execOps_trans hrun (execOps_cons hexec _), hw, hb, rfl⟩
    obtain ⟨m', hrun', hw', hb'⟩ := hload.storePair Nat.zero_ne_one hpaired hstep
    rw [List.append_assoc, List.singleton_append] at hrun'
    rw [hd] at hsame
    exact ⟨m', hrun', hsim.store hw' hb' ⟨by rw [← hsame.1]; rfl, fun h => hsame.2 rfl⟩⟩
  rw [emitCall]
  cases hdirect : cfg.direct f with
  | none => exact emitV1Call_run cfg hblind hsim hlive hstep hfcinfo hr1 hfn
  | some dfn =>
    have hdfn := hright dfn hdirect
    dsimp only
    split
    · rename_i hinline
      obtain ⟨m₁, hrun₁, hw₁, hb₁, hfirst, hsecond, hkept⟩ := inlineArgs_run hstep hfcinfo hr1 dfn.nargs
      split
      · rename_i hemitted
        obtain ⟨htwo, hcall⟩ := hdfn.inlined hinline.1 hemitted
        have hargs : m₁.args dfn.nargs = some ((machArgs m n nargs).map NullableDatum.value) := by
          rw [values_machArgs, hdfn.arity]
          refine args_eq fun j hj => ?_
          obtain rfl | rfl : j = 0 ∨ j = 1 := by omega
          · exact hfirst
          · exact hsecond (by rw [hdfn.arity]; omega)
        refine hpair hrun₁ hw₁ hb₁ (i := .inlineOp f dfn.nargs) (d := t.native.inlined f ((machArgs m n nargs).map NullableDatum.value)) ?_
          (hcall _ (length_machArgs m n nargs) hnotNull)
        simp only [Instr.exec, hargs, Option.map_some, nextOf]
      · rename_i hrefused
        have hrefused : dfn.inlineOp = .refused := by
          cases hop : dfn.inlineOp with
          | none => exact absurd hop hinline.2
          | emitted => exact absurd hop hrefused
          | refused => rfl
        have hone : strict = true → m₁.regs 1 = .ptr (.fcinfo n) := fun h =>
          hkept h (by rw [hdfn.arity]; exact hdfn.refused hinline.1 hrefused)
        obtain ⟨m', hrun', hsim'⟩ := emitV1Call_run cfg hblind (hsim.congr hw₁ hb₁) hlive hstep hfcinfo hone hfn
        exact ⟨m', execOps_trans hrun₁ hrun', hsim'⟩
    · split
      · rename_i hjit
        obtain ⟨m₁, hrun₁, hw₁, hb₁, hargs⟩ := directArgs_run hstep hfcinfo hr1 dfn
        rw [hdfn.arity, ← values_machArgs] at hargs
        refine hpair hrun₁ hw₁ hb₁ (i := .callNative f dfn.nativeNargs)
          (d := t.native.call f ((machArgs m n nargs).map NullableDatum.value ++ if dfn.collation then [t.native.collation n] else [])) ?_
          (hdfn.called hjit _ (length_machArgs m n nargs) hnotNull)
        simp only [Instr.exec, hargs, Option.map_some, nextOf]
      · exact emitV1Call_run cfg hblind hsim hlive hstep hfcinfo hr1 hfn

/-- `EEOP_FUNCEXPR`. -/
theorem funcExpr_arrives (hpaired : cfg.paired = t.paired) (hfn : stepFieldWord step .fnAddr = .fn f)
    (hright : ∀ dfn, cfg.direct f = some dfn → dfn.Right cfg t false f n nargs) :
    Arrives t live flags next (runItems (Instr.exec t) (.running m) (ops (emitCall cfg false opno step.resvalue f nargs))) next
      (execFunc t.env false f n nargs step.resvalue s) := by
  obtain ⟨m', hrun, hsim'⟩ := emitCall_run cfg hblind hsim hlive hstep hfcinfo hpaired (fun h => absurd h (by simp)) hfn hright
    fun h => absurd h (by simp)
  exact arrives_ops hrun hsim'

/-- `EEOP_FUNCEXPR_STRICT`: the null path sets the null flag alone. -/
theorem strictCall_arrives (hpaired : cfg.paired = t.paired) (hfn : stepFieldWord step .fnAddr = .fn f)
    (hright : ∀ dfn, cfg.direct f = some dfn → dfn.Right cfg t true f n nargs) :
    Arrives t live flags next (runItems (Instr.exec t) (.running m) (emitStrictCall cfg opno step.resvalue f nargs)) next
      (execFunc t.env true f n nargs step.resvalue s) := by
  obtain ⟨m₁, hkeeps, hchecks⟩ := nullChecks_run hsim hlive hstep hfcinfo
  have hsim₁ := hsim.congr hkeeps.1 hkeeps.2.1
  simp only [emitStrictCall, runItems_append, hchecks, runItems_cons, runItems_nil]
  rw [execFunc, Bool.true_and]
  cases hnull : (s.args n nargs).any (·.isnull) with
  | true =>
    have hrun := run_storeResnull (x := .imm 1) (m := m₁) hstep trivial (operand_imm _ 1)
    simp only [if_true, runItems_skipping_ops, item_skipping_jumpTo, item_skipping_mark_self, runItems_ops hrun, item_running_mark]
    refine ⟨_, hsim₁.store (v := m.words (.value step.resvalue)) (n := 1) ?_ ?_ ⟨rfl, fun h => absurd h (by simp)⟩, .inl ⟨rfl, rfl⟩⟩
    · rw [words_setByte, words_viaR1, hkeeps.1, Function.update_eq_self]
    · rw [bytes_setByte, bytes_viaR1]
      rfl
  | false =>
    obtain ⟨m₂, hrun, hsim₂⟩ := emitCall_run cfg hblind hsim₁ hlive hstep hfcinfo hpaired (fun _ => hkeeps.2.2) hfn hright fun _ => hnull
    simp only [Bool.false_eq_true, if_false, runItems_ops hrun, item_jumpTo_jump (exec_jump t m₂),
      item_skipping_mark_of_ne Nat.zero_ne_one, runItems_skipping_ops, item_skipping_mark_self]
    exact ⟨m₂, hsim₂, .inl ⟨rfl, rfl⟩⟩

end Tiers

end CompileExprAux
end PgJitter
