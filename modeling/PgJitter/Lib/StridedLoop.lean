import Mathlib.Logic.Basic

/-!
# Strided loops

The loop `for (; i + stride <= n; i += stride)` over a state, with a body that may leave the function, and its rule: an invariant that
the body keeps holds where the loop ends, and where the body leaves the function it held before.
-/

namespace StridedLoop

variable {σ : Type*}

/-- The loop; `none` when the body leaves the function. -/
def run (stride n : Nat) (body : Nat → σ → Option σ) : Nat → Nat → σ → Option (Nat × σ)
  | 0, i, s => some (i, s)
  | turns + 1, i, s =>
    if i + stride ≤ n then
      match body i s with
      | none => none
      | some s' => run stride n body turns (i + stride) s'
    else some (i, s)

/-- The loop from `i` on, with turns enough. -/
def forStrided (stride n : Nat) (body : Nat → σ → Option σ) (i : Nat) (s : σ) : Option (Nat × σ) := run stride n body n i s

variable {stride n : Nat} {body : Nat → σ → Option σ}

/-- What a loop with an invariant does: it ends past the last whole stride with the invariant, or the body left the function from a state
that had it. -/
theorem run_cases (hstride : 0 < stride) (Inv : Nat → σ → Prop)
    (hbody : ∀ i s s', i + stride ≤ n → Inv i s → body i s = some s' → Inv (i + stride) s') {turns i : Nat} {s : σ}
    (hturns : n ≤ i + turns) (hle : i ≤ n) (hinv : Inv i s) :
    (∃ j s', run stride n body turns i s = some (j, s') ∧ j ≤ n ∧ n < j + stride ∧ Inv j s') ∨
      ∃ j s', run stride n body turns i s = none ∧ j + stride ≤ n ∧ Inv j s' ∧ body j s' = none := by
  induction turns generalizing i s with
  | zero => exact .inl ⟨i, s, rfl, hle, by omega, hinv⟩
  | succ turns ih =>
    rw [run]
    split
    · rename_i hnext
      cases hs : body i s with
      | none => exact .inr ⟨i, s, rfl, hnext, hinv, hs⟩
      | some s' => exact ih (by omega) hnext (hbody i s s' hnext hinv hs)
    · exact .inl ⟨i, s, rfl, hle, by omega, hinv⟩

/-- The rule of the loop from the start. -/
theorem forStrided_cases (hstride : 0 < stride) (Inv : Nat → σ → Prop)
    (hbody : ∀ i s s', i + stride ≤ n → Inv i s → body i s = some s' → Inv (i + stride) s') {i : Nat} {s : σ} (hle : i ≤ n)
    (hinv : Inv i s) :
    (∃ j s', forStrided stride n body i s = some (j, s') ∧ j ≤ n ∧ n < j + stride ∧ Inv j s') ∨
      ∃ j s', forStrided stride n body i s = none ∧ j + stride ≤ n ∧ Inv j s' ∧ body j s' = none :=
  run_cases hstride Inv hbody (Nat.le_add_left n i) hle hinv

/-- A search by chunks: the loop leaves the function when a chunk has a hit, and else has seen the chunks before its end. -/
theorem search_cases (body : Nat → Unit → Option Unit) (hstride : 0 < stride) (p : Nat → Prop)
    (hbody : ∀ i, i + stride ≤ n → (body i () = none ↔ ∃ k, i ≤ k ∧ k < i + stride ∧ p k)) {i : Nat} (hle : i ≤ n)
    (hbefore : ∀ k < i, ¬ p k) :
    (∃ j, forStrided stride n body i () = some (j, ()) ∧ j ≤ n ∧ n < j + stride ∧ ∀ k < j, ¬ p k) ∨
      forStrided stride n body i () = none ∧ ∃ k < n, p k := by
  have hkeep : ∀ i (s s' : Unit), i + stride ≤ n → (∀ k < i, ¬ p k) → body i s = some s' → ∀ k < i + stride, ¬ p k := by
    intro i _ _ hnext hinv hs k hk hp
    rcases Nat.lt_or_ge k i with hlt | hge
    · exact hinv k hlt hp
    · exact nomatch hs.symm.trans ((hbody i hnext).2 ⟨k, hge, hk, hp⟩)
  rcases forStrided_cases hstride (fun i _ => ∀ k < i, ¬ p k) hkeep hle hbefore with
    ⟨j, _, heq, hj, hpast, hinv⟩ | ⟨j, _, heq, hj, -, hnone⟩
  · exact .inl ⟨j, heq, hj, hpast, hinv⟩
  · obtain ⟨k, -, hk, hp⟩ := (hbody j hj).1 hnone
    exact .inr ⟨heq, k, by omega, hp⟩

end StridedLoop
