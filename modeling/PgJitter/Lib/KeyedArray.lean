import Mathlib.Data.List.Range
import Mathlib.Logic.Function.Basic

/-!
# Arrays of entries with keys

The first `n` entries of an array, each with a key, a search for a key from the front, and appending an entry whose key is new.
-/

namespace KeyedArray

variable {κ β : Type*} [DecidableEq κ]

/-- The first index whose entry has the key. -/
def lookup (key : β → κ) (entries : Nat → β) (n : Nat) (k : κ) : Option Nat := (List.range n).find? fun i => decide (key (entries i) = k)

/-- The keys of the first `n` entries are different. -/
def Distinct (key : β → κ) (entries : Nat → β) (n : Nat) : Prop := ∀ i j, i < n → j < n → key (entries i) = key (entries j) → i = j

variable {key : β → κ} {entries entries' : Nat → β} {n : Nat} {k : κ}

/-- Nothing is found exactly when no entry has the key. -/
theorem lookup_eq_none_iff : lookup key entries n k = none ↔ ∀ i < n, key (entries i) ≠ k := by
  simp [lookup]

omit [DecidableEq κ] in
/-- Whether keys are different depends on the keys alone. -/
theorem Distinct.congr (h : Distinct key entries n) (hkeys : ∀ i < n, key (entries' i) = key (entries i)) :
    Distinct key entries' n := by
  intro i j hi hj heq
  rw [hkeys i hi, hkeys j hj] at heq
  exact h i j hi hj heq

omit [DecidableEq κ] in
/-- An appended entry with a new key. -/
theorem Distinct.append (h : Distinct key entries n) {v : β} (hnew : ∀ i < n, key (entries i) ≠ key v) :
    Distinct key (Function.update entries n v) (n + 1) := by
  have hold : ∀ i < n, Function.update entries n v i = entries i := fun i hi => Function.update_of_ne (Nat.ne_of_lt hi) v entries
  intro i j hi hj heq
  rcases Nat.lt_succ_iff_lt_or_eq.1 hi with hi | rfl
  · rcases Nat.lt_succ_iff_lt_or_eq.1 hj with hj | rfl
    · rw [hold i hi, hold j hj] at heq
      exact h i j hi hj heq
    · rw [hold i hi, Function.update_self] at heq
      exact absurd heq (hnew i hi)
  · rcases Nat.lt_succ_iff_lt_or_eq.1 hj with hj | rfl
    · rw [hold j hj, Function.update_self] at heq
      exact absurd heq.symm (hnew j hj)
    · rfl

end KeyedArray
