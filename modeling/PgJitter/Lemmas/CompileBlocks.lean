import PgJitter.Lemmas.CaseEmit
import PgJitter.Lemmas.CompileBatch
import PgJitter.Lemmas.CompileCalls
import PgJitter.Lemmas.CompileInterp

/-!
# Helpers for `CompileExpr.lean`: the blocks of an expression

The code of an expression is cut where the events of the main loop begin. From the beginning of one event the code comes to that of
another one, and the interpreter comes to the same step in the meantime.
-/

namespace PgJitter
namespace CompileExprAux

open Assembly Backpatch LeftScan Relation

variable {G : Type} {t : ExprTarget G} {cfg : CompileConfig G} {steps : List (ExprEvalStep G)}

/-! ## Labels -/

/-- Where the code of a pattern begins. -/
abbrev caseEntry (p : CasePattern) : Nat := p.startOpno + 1

section Labels

variable {code : List (ExprEvalStep G)} {es pre post : List (Event CasePattern)} {ev : Event CasePattern} {n i : Nat}

theorem first_exprBlock (ev : Event CasePattern) : (exprBlock cfg code ev).first = ev.start caseEntry := by
  cases ev <;> rfl

/-- The labels after the first one are those of later steps. -/
theorem rest_exprBlock {k : Nat} (hk : k ∈ (exprBlock cfg code ev).rest) : ev.start caseEntry < k := by
  cases ev with
  | taken p =>
    obtain ⟨hle, -⟩ := List.mem_range'_1.1 hk
    exact hle
  | plain i next =>
    obtain ⟨hle, -⟩ := List.mem_range'_1.1 hk
    exact hle

/-- The labels of a block are those of the steps from where its event begins. -/
theorem numbers_exprBlock {k : Nat} (hk : k ∈ (exprBlock cfg code ev).numbers) : ev.start caseEntry ≤ k := by
  rcases List.mem_cons.1 hk with rfl | hk
  · exact (first_exprBlock ev).ge
  · exact Nat.le_of_lt (rest_exprBlock hk)

/-- The label of an event is where its block begins. -/
theorem label_event (cfg : CompileConfig G) (code : List (ExprEvalStep G)) (h : InARow caseEntry CasePattern.elseEndOpno n i es)
    (hes : es = pre ++ ev :: post) :
    labels (es.map (exprBlock cfg code)) (ev.start caseEntry) = some (sizes (pre.map (exprBlock cfg code))) := by
  have hsplit : es.map (exprBlock cfg code) =
      pre.map (exprBlock cfg code) ++ exprBlock cfg code ev :: post.map (exprBlock cfg code) := by
    rw [hes, List.map_append, List.map_cons]
  have hfirst : (exprBlock cfg code ev).first = ev.start caseEntry := first_exprBlock ev
  rw [← hfirst]
  refine labels_first hsplit (fun hmem => ?_) fun b hb hmem => ?_
  · rw [first_exprBlock] at hmem
    exact Nat.lt_irrefl _ (rest_exprBlock hmem)
  · obtain ⟨ev', hev', rfl⟩ := List.mem_map.1 hb
    obtain ⟨-, hlt, hrest⟩ := (hes ▸ h).split
    have hstart := hrest.le_start hev'
    have hle := numbers_exprBlock hmem
    rw [first_exprBlock] at hle
    omega

end Labels

/-! ## Marks -/

theorem marks_nullChecks (opno nargs nullPath : Nat) : marks (emitNullChecks (G := G) opno nargs nullPath) = [] := by
  rw [emitNullChecks]
  split
  · simp
  · rw [marks_append, marks_ops, marks_eachNull]
    rfl

theorem marks_strictCall (cfg : CompileConfig G) (opno : Nat) (c : Cell) (f : G) (nargs : Nat) :
    marks (emitStrictCall cfg opno c f nargs) = [0, 1] := by
  simp [emitStrictCall, marks_nullChecks]

theorem marks_boolStep (stop : Bool) (pos : BoolStepPos) (opno : Nat) (c : Cell) (jumpdone : Nat) :
    marks (emitBoolStep (G := G) stop pos opno c jumpdone) = if pos = .last then [0, 1, 2] else [0, 1] := by
  cases pos <;> simp [emitBoolStep]

theorem marks_qual (opno : Nat) (c : Cell) (jumpdone : Nat) : marks (emitQual (G := G) opno c jumpdone) = [0, 1] := by
  simp [emitQual]

theorem marks_copyLoop (count mark : Nat) (copy : List (Instr G)) : marks (emitCopyLoop count mark copy) = [mark] := by
  simp [emitCopyLoop]

theorem marks_assignVar (src : VarSource) (attnum resultnum opno next : Nat) :
    (marks (emitAssignVar cfg steps src attnum resultnum opno next)).Nodup := by
  rw [emitAssignVar]
  split
  · simp [emitAssignLoop, marks_copyLoop]
  · simp

/-- No mark stands twice in the code of a step. -/
theorem marks_emitStep (opno next : Nat) (step : ExprEvalStep G) : (marks (emitStep cfg steps opno next step)).Nodup := by
  obtain ⟨op, c⟩ := step
  cases op with
  | assignVar src attnum resultnum => exact marks_assignVar src attnum resultnum opno next
  | funcExprStrict f fcinfo nargs => simp [emitStep, marks_strictCall]
  | boolAndStep pos n jumpdone => cases pos <;> simp [emitStep, marks_boolStep]
  | boolOrStep pos n jumpdone => cases pos <;> simp [emitStep, marks_boolStep]
  | qual jumpdone => simp [emitStep, marks_qual]
  | _ => simp [emitStep, emitJumpIfNull, emitJumpIfNotTrue]

/-- Nor in that of a pattern. -/
theorem marks_emitCase (p : CasePattern) (c cEnd : Cell) : marks (emitCase (G := G) p c cEnd) = [0] := by
  simp [emitCase]

/-- A block puts each of its labels once. -/
theorem marks_exprBlock (ev : Event CasePattern) : (marks (exprBlock cfg steps ev).items).Nodup := by
  cases ev with
  | taken p =>
    simp only [exprBlock, caseBlock]
    split
    · rw [marks_emitCase]
      exact List.nodup_singleton 0
    · exact List.nodup_nil
  | plain i next =>
    simp only [exprBlock, stepBlock]
    cases steps[i]? with
    | none => exact List.nodup_nil
    | some step => exact marks_emitStep i next step

end CompileExprAux
end PgJitter
