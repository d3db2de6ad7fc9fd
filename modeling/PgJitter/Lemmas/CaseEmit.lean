import PgJitter.CaseEmit
import PgJitter.Lemmas.CaseDetect

/-!
# Helpers for `CaseEmit.lean`: what is overwritten, and what the main loop passes over

The setup changes the third step of every pattern and nothing else, and no opcode. A batch of loads ends before a call, so the main loop
comes to the second step of every pattern that is still to come.
-/

namespace PgJitter
namespace CaseEmitAux

open LeftScan CaseDetectAux

variable {G : Type} {steps : List (ExprEvalStep G)}

/-! ## The store of the descriptors -/

/-- The steps after one store. -/
theorem getElem?_storeDesc (p : CasePattern) (d : Datum) (i : Nat) :
    (storeDesc steps p d)[i]? =
      if p.startOpno + 2 = i then (steps[i]?).map fun step => { step with op := step.op.setConstvalValue d } else steps[i]? := by
  rw [storeDesc, List.getElem?_modify]
  split <;> simp

/-- The stores of patterns with their numbers. -/
def stores (desc : Nat → Datum) (l : List (CasePattern × Nat)) (steps : List (ExprEvalStep G)) : List (ExprEvalStep G) :=
  l.foldl (fun steps pk => storeDesc steps pk.1 (desc pk.2)) steps

/-- The setup is these stores. -/
theorem setup_eq_stores (patterns : List CasePattern) (desc : Nat → Datum) :
    setupCaseBsearchArrays patterns desc steps = stores desc patterns.zipIdx steps := rfl

/-- A step that is no third step of a pattern stays as it is. -/
theorem stores_other {desc : Nat → Datum} {l : List (CasePattern × Nat)} {i : Nat} (h : ∀ pk ∈ l, pk.1.startOpno + 2 ≠ i) :
    (stores desc l steps)[i]? = steps[i]? := by
  induction l generalizing steps with
  | nil => rfl
  | cons pk l ih =>
    rw [stores, List.foldl_cons, ← stores, ih fun q hq => h q (List.mem_cons_of_mem pk hq), getElem?_storeDesc,
      if_neg (h pk List.mem_cons_self)]

/-- The third step of a pattern gets its descriptor, where no two patterns begin at one step. -/
theorem stores_at {desc : Nat → Datum} {l : List (CasePattern × Nat)} (hne : l.Pairwise fun a b => a.1.startOpno ≠ b.1.startOpno)
    {pk : CasePattern × Nat} (hpk : pk ∈ l) :
    (stores desc l steps)[pk.1.startOpno + 2]? =
      (steps[pk.1.startOpno + 2]?).map fun step => { step with op := step.op.setConstvalValue (desc pk.2) } := by
  induction l generalizing steps with
  | nil => exact absurd hpk List.not_mem_nil
  | cons q l ih =>
    obtain ⟨hfirst, hrest⟩ := List.pairwise_cons.1 hne
    rw [stores, List.foldl_cons, ← stores]
    rcases List.mem_cons.1 hpk with rfl | hpk
    · have hother : ∀ r ∈ l, r.1.startOpno + 2 ≠ pk.1.startOpno + 2 := fun r hr heq => hfirst r hr (by omega)
      rw [stores_other hother, getElem?_storeDesc, if_pos rfl]
    · have hdiff : q.1.startOpno + 2 ≠ pk.1.startOpno + 2 := fun heq => hfirst pk hpk (by omega)
      rw [ih hrest hpk, getElem?_storeDesc, if_neg hdiff]

/-- The setup leaves the array as it is exactly when every field that it overwrites has the bits of its descriptor. -/
theorem setup_eq_iff {patterns : List CasePattern} (hne : patterns.Pairwise fun p q => p.startOpno ≠ q.startOpno)
    (desc : Nat → Datum) : setupCaseBsearchArrays patterns desc steps = steps ↔ HoldsDesc desc steps patterns := by
  have hzip : (patterns.zipIdx.map Prod.fst).Pairwise fun p q => p.startOpno ≠ q.startOpno := by rwa [List.zipIdx_map_fst]
  rw [List.pairwise_map] at hzip
  rw [setup_eq_stores]
  constructor
  · intro heq pk hpk op hop
    obtain ⟨step, hstep, rfl⟩ := Option.map_eq_some_iff.1 hop
    have hat : (stores desc patterns.zipIdx steps)[pk.1.startOpno + 2]? =
        (steps[pk.1.startOpno + 2]?).map fun step => { step with op := step.op.setConstvalValue (desc pk.2) } := stores_at hzip hpk
    rw [heq, hstep, Option.map_some, Option.some.injEq] at hat
    exact (congrArg ExprEvalStep.op hat).symm
  · intro h
    refine List.ext_getElem? fun i => ?_
    by_cases hi : ∃ pk ∈ patterns.zipIdx, pk.1.startOpno + 2 = i
    · obtain ⟨pk, hpk, rfl⟩ := hi
      rw [stores_at hzip hpk]
      cases hstep : steps[pk.1.startOpno + 2]? with
      | none => rfl
      | some step =>
        have hop : opAt steps (pk.1.startOpno + 2) = some step.op := Option.map_eq_some_iff.2 ⟨step, hstep, rfl⟩
        rw [Option.map_some, h pk hpk step.op hop]
    · exact stores_other fun pk hpk heq => hi ⟨pk, hpk, heq⟩

/-- The store changes no opcode. -/
theorem batchCode_setConstvalValue (op : EvalOp G) (v : Datum) : (op.setConstvalValue v).batchCode = op.batchCode := by
  cases op <;> rfl

/-- The opcodes of batches are where they were. -/
theorem batchCode_stores (desc : Nat → Datum) (l : List (CasePattern × Nat)) (i : Nat) :
    (opAt (stores desc l steps) i).bind EvalOp.batchCode = (opAt steps i).bind EvalOp.batchCode := by
  induction l generalizing steps with
  | nil => rfl
  | cons pk l ih =>
    rw [stores, List.foldl_cons, ← stores, ih, opAt, opAt, getElem?_storeDesc]
    split
    · cases steps[i]? with
      | none => rfl
      | some step => exact batchCode_setConstvalValue step.op (desc pk.2)
    · rfl

/-- There are as many steps as before. -/
theorem length_stores (desc : Nat → Datum) (l : List (CasePattern × Nat)) : (stores desc l steps).length = steps.length := by
  induction l generalizing steps with
  | nil => rfl
  | cons pk l ih => rw [stores, List.foldl_cons, ← stores, ih, storeDesc, List.length_modify]

/-! ## The main loop -/

/-- A batch goes forward, and ends before a step that is not of its opcode. -/
theorem batchEnd_spec (isTarget : Nat → Bool) (code : Bool × VarSource) (left i : Nat) :
    i ≤ batchEnd isTarget steps code left i ∧
      ∀ e, i < e → (opAt steps e).bind EvalOp.batchCode = none → batchEnd isTarget steps code left i < e := by
  induction left generalizing i with
  | zero => exact ⟨Nat.le_refl i, fun e he _ => he⟩
  | succ left ih =>
    rw [batchEnd]
    split
    · rename_i hnext
      refine ⟨Nat.le_of_succ_le (ih (i + 1)).1, fun e he hcode => (ih (i + 1)).2 e ?_ hcode⟩
      have hne : e ≠ i + 1 := by
        rintro rfl
        rw [hnext.2.2] at hcode
        exact nomatch hcode
      omega
    · exact ⟨Nat.le_refl i, fun e he _ => he⟩

/-- The main loop goes forward. -/
theorem lt_emitNext (isTarget : Nat → Bool) (i : Nat) : i < emitNext isTarget steps i := by
  unfold emitNext
  split
  · exact Nat.lt_succ_of_le (batchEnd_spec isTarget _ steps.length i).1
  · exact Nat.lt_succ_self i

/-- It does not pass over a step that is not a load. -/
theorem emitNext_le (isTarget : Nat → Bool) {i e : Nat} (he : i < e) (hcode : (opAt steps e).bind EvalOp.batchCode = none) :
    emitNext isTarget steps i ≤ e := by
  unfold emitNext
  split
  · exact (batchEnd_spec isTarget _ steps.length i).2 e he hcode
  · exact he

/-- A pattern is entered inside the array, and before its end. -/
theorem site_inside {p : CasePattern} (h : Site steps p) : p.startOpno + 1 < p.elseEndOpno ∧ p.startOpno + 1 < steps.length := by
  obtain ⟨fn, fcinfo, nargs, hcall⟩ := h.call
  obtain ⟨step, hstep, -⟩ := Option.map_eq_some_iff.1 hcall
  have hlong := h.long
  exact ⟨by omega, (List.getElem?_eq_some_iff.1 hstep).1⟩

/-- The main loop does not pass over the step where a pattern is entered. -/
theorem site_stops (isTarget : Nat → Bool) {steps' : List (ExprEvalStep G)}
    (hcode : ∀ i, (opAt steps' i).bind EvalOp.batchCode = (opAt steps i).bind EvalOp.batchCode) {p : CasePattern} (h : Site steps p)
    {k : Nat} (hk : k < p.startOpno + 1) : emitNext isTarget steps' k ≤ p.startOpno + 1 := by
  obtain ⟨fn, fcinfo, nargs, hcall⟩ := h.call
  exact emitNext_le isTarget hk (by rw [hcode, hcall]; rfl)

/-- Patterns that follow one another, each with a call as its second step and long enough to hold its third, are all replaced, and
nothing inside them is emitted. -/
theorem emitSteps_replays (isTarget : Nat → Bool) {patterns : List CasePattern} {steps' : List (ExprEvalStep G)}
    (hlength : steps'.length = steps.length)
    (hcode : ∀ i, (opAt steps' i).bind EvalOp.batchCode = (opAt steps i).bind EvalOp.batchCode)
    (hsite : ∀ p ∈ patterns, Site steps p) (hchained : Chained CasePattern.startOpno CasePattern.elseEndOpno patterns) :
    Replays (fun p : CasePattern => p.startOpno + 1) CasePattern.elseEndOpno 0 patterns (emitSteps isTarget steps' patterns) := by
  refine replay_replays (lt_emitNext isTarget) (Nat.le_add_left _ 0) ⟨?_, fun p _ => Nat.zero_le _, fun p hp => ?_, ?_⟩
  · exact hchained.imp fun hle => Nat.le_succ_of_le hle
  · rw [hlength]
    exact site_inside (hsite p hp)
  · exact fun p hp k hk => site_stops isTarget hcode (hsite p hp) hk

end CaseEmitAux
end PgJitter
