import Mathlib.Logic.Relation
import Mathlib.Logic.Function.Basic

/-!
# Code with jumps patched afterwards

Straight-line code whose conditional and unconditional jumps get their labels after they were emitted. A jump is named by its
position in the code, a label is a position; a program is the code and the table of the labels set so far. The instructions and
the machine state are parameters.
-/

namespace Assembly

variable {I S : Type}

/-- What an instruction does: go on to the next one, take its jump, or end the run. -/
inductive Outcome (S : Type) where
  | next (s : S)
  | jump (s : S)
  | halt

/-- A program: the code emitted so far, and the labels of its jumps. -/
structure Program (I : Type) where
  code : List I
  target : Nat → Option Nat

namespace Program

/-- No code. -/
def empty : Program I := ⟨[], fun _ => none⟩

/-- The label of the next instruction. -/
def here (P : Program I) : Nat := P.code.length

/-- Emit instructions. -/
def emit (P : Program I) (is : List I) : Program I := { P with code := P.code ++ is }

/-- Set the label of a jump. -/
def setLabel (P : Program I) (j l : Nat) : Program I := { P with target := Function.update P.target j (some l) }

/-- Set the label of several jumps. -/
def setLabels (P : Program I) (js : List Nat) (l : Nat) : Program I := js.foldl (fun P j => P.setLabel j l) P

@[simp] theorem code_emit (P : Program I) (is : List I) : (P.emit is).code = P.code ++ is := rfl

@[simp] theorem target_emit (P : Program I) (is : List I) : (P.emit is).target = P.target := rfl

@[simp] theorem here_emit (P : Program I) (is : List I) : (P.emit is).here = P.here + is.length := List.length_append

@[simp] theorem code_setLabel (P : Program I) (j l : Nat) : (P.setLabel j l).code = P.code := rfl

@[simp] theorem here_setLabel (P : Program I) (j l : Nat) : (P.setLabel j l).here = P.here := rfl

@[simp] theorem target_setLabel_self (P : Program I) (j l : Nat) : (P.setLabel j l).target j = some l := by
  simp only [setLabel, Function.update_self]

theorem target_setLabel_of_ne (P : Program I) {j j' : Nat} (h : j' ≠ j) (l : Nat) :
    (P.setLabel j l).target j' = P.target j' := by
  simp only [setLabel, Function.update_of_ne h]

@[simp] theorem code_setLabels (P : Program I) (js : List Nat) (l : Nat) : (P.setLabels js l).code = P.code := by
  induction js generalizing P with
  | nil => rfl
  | cons j js ih => exact ih (P.setLabel j l)

@[simp] theorem here_setLabels (P : Program I) (js : List Nat) (l : Nat) : (P.setLabels js l).here = P.here := by
  simp only [here, code_setLabels]

theorem target_setLabels_of_not_mem (P : Program I) {js : List Nat} {j : Nat} (h : j ∉ js) (l : Nat) :
    (P.setLabels js l).target j = P.target j := by
  induction js generalizing P with
  | nil => rfl
  | cons j' js ih =>
    rw [List.mem_cons, not_or] at h
    exact (ih (P.setLabel j' l) h.2).trans (target_setLabel_of_ne P h.1 l)

theorem target_setLabels_of_mem (P : Program I) {js : List Nat} {j : Nat} (h : j ∈ js) (l : Nat) :
    (P.setLabels js l).target j = some l := by
  induction js generalizing P with
  | nil => exact absurd h List.not_mem_nil
  | cons j' js ih =>
    by_cases hmem : j ∈ js
    · exact ih (P.setLabel j' l) hmem
    · obtain rfl : j = j' := (List.mem_cons.1 h).resolve_right hmem
      exact (target_setLabels_of_not_mem (P.setLabel j l) hmem l).trans (target_setLabel_self P j l)

/-- Emitted instructions stay. -/
theorem getElem?_emit_left {P : Program I} {pc : Nat} {i : I} (h : P.code[pc]? = some i) (is : List I) :
    (P.emit is).code[pc]? = some i := by
  obtain ⟨hlt, _⟩ := List.getElem?_eq_some_iff.1 h
  rw [code_emit, List.getElem?_append_left hlt]
  exact h

/-- The instructions emitted last. -/
theorem getElem?_emit_right (P : Program I) (is : List I) (k : Nat) : (P.emit is).code[P.here + k]? = is[k]? := by
  rw [code_emit, here, List.getElem?_append_right (Nat.le_add_right _ _), Nat.add_sub_cancel_left]

/-- An instruction stands before the end of the code. -/
theorem lt_here {P : Program I} {pc : Nat} {i : I} (h : P.code[pc]? = some i) : pc < P.here :=
  (List.getElem?_eq_some_iff.1 h).1

end Program

/-- One instruction of a run: the position and the state, or `none` when the run is over. -/
def step (exec : I → S → Outcome S) (P : Program I) (a : Nat × S) : Option (Nat × S) :=
  match P.code[a.1]? with
  | none => none
  | some i =>
    match exec i a.2 with
    | .next s => some (a.1 + 1, s)
    | .jump s => (P.target a.1).map fun l => (l, s)
    | .halt => none

/-- A run of the code. -/
abbrev Runs (exec : I → S → Outcome S) (P : Program I) : Nat × S → Nat × S → Prop :=
  Relation.ReflTransGen fun a b => step exec P a = some b

variable {exec : I → S → Outcome S} {P : Program I}

/-- A run that starts with an instruction falling through. -/
theorem Runs.next {pc : Nat} {s s' : S} {i : I} {b : Nat × S} (hi : P.code[pc]? = some i) (he : exec i s = .next s')
    (h : Runs exec P (pc + 1, s') b) : Runs exec P (pc, s) b :=
  .head (by simp only [step, hi, he]) h

/-- A run that starts with a jump taken. -/
theorem Runs.jump {pc l : Nat} {s s' : S} {i : I} {b : Nat × S} (hi : P.code[pc]? = some i) (he : exec i s = .jump s')
    (hl : P.target pc = some l) (h : Runs exec P (l, s') b) : Runs exec P (pc, s) b :=
  .head (by simp only [step, hi, he, hl, Option.map_some]) h

/-- A run that is over is unique. -/
theorem Runs.eq_of_over {a b c : Nat × S} (hb : Runs exec P a b) (hc : Runs exec P a c) (hbo : step exec P b = none)
    (hco : step exec P c = none) : b = c := by
  have hover : ∀ {x y : Nat × S}, Runs exec P x y → step exec P x = none → x = y := by
    intro x y hxy hx
    rcases hxy.cases_head with rfl | ⟨z, hz, _⟩
    · rfl
    · exact nomatch hx.symm.trans hz
  rcases Relation.ReflTransGen.total_of_right_unique (fun x y z hy hz => Option.some.inj (hy.symm.trans hz)) hb hc with h | h
  · exact hover h hbo
  · exact (hover h hco).symm

/-- So many instructions of a run, or fewer when it is over before. -/
def run (exec : I → S → Outcome S) (P : Program I) : Nat → Nat × S → Nat × S
  | 0, a => a
  | n + 1, a =>
    match step exec P a with
    | none => a
    | some b => run exec P n b

/-- They are a run. -/
theorem runs_run (n : Nat) (a : Nat × S) : Runs exec P a (run exec P n a) := by
  induction n generalizing a with
  | zero => exact .refl
  | succ n ih =>
    rw [run]
    split
    · exact .refl
    · rename_i b hb
      exact .head hb (ih b)

/-- At the end of the code a run is over. -/
theorem step_end (s : S) : step exec P (P.here, s) = none := by
  have hnone : P.code[P.here]? = none := List.getElem?_eq_none (Nat.le_refl _)
  simp only [step, hnone]

end Assembly
