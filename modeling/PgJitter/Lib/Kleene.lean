import Mathlib.Data.List.Basic

/-!
# Three-valued logic

Truth values with an unknown, `none`: the connectives, the quantifiers over a list, and a scan of the list that leaves at the first
value that decides.
-/

namespace Kleene

/-- The disjunction: a true side decides it. -/
def or : Option Bool → Option Bool → Option Bool
  | some true, _ => some true
  | some false, b => b
  | none, some true => some true
  | none, _ => none

/-- The conjunction: a false side decides it. -/
def and : Option Bool → Option Bool → Option Bool
  | some false, _ => some false
  | some true, b => b
  | none, some false => some false
  | none, _ => none

/-- Whether some value of a list is true. -/
def anyOf (l : List (Option Bool)) : Option Bool := l.foldr or (some false)

/-- Whether all values of a list are true. -/
def allOf (l : List (Option Bool)) : Option Bool := l.foldr and (some true)

/-- What a list says when `b` decides: `b` if it is there, else unknown if there is an unknown, else the opposite. -/
def decidedBy (b : Bool) (l : List (Option Bool)) : Option Bool :=
  if some b ∈ l then some b else if none ∈ l then none else some (!b)

/-- A true value decides a disjunction. -/
theorem anyOf_eq (l : List (Option Bool)) : anyOf l = decidedBy true l := by
  induction l with
  | nil => rfl
  | cons v l ih =>
    have hcons : anyOf (v :: l) = or v (anyOf l) := rfl
    rw [hcons, ih]
    rcases v with _ | _ | _ <;> by_cases ht : some true ∈ l <;> by_cases hn : none ∈ l <;> simp [decidedBy, or, ht, hn]

/-- A false value decides a conjunction. -/
theorem allOf_eq (l : List (Option Bool)) : allOf l = decidedBy false l := by
  induction l with
  | nil => rfl
  | cons v l ih =>
    have hcons : allOf (v :: l) = and v (allOf l) := rfl
    rw [hcons, ih]
    rcases v with _ | _ | _ <;> by_cases hf : some false ∈ l <;> by_cases hn : none ∈ l <;> simp [decidedBy, and, hf, hn]

/-- A scan of the list that leaves at `b`, and remembers whether it met an unknown. -/
def scan (b : Bool) : Bool → List (Option Bool) → Option Bool
  | unknown, [] => if unknown then none else some (!b)
  | unknown, v :: l => if v = some b then some b else scan b (unknown || v.isNone) l

/-- What the scan gives, from any point on. -/
theorem scan_eq (b unknown : Bool) (l : List (Option Bool)) :
    scan b unknown l = if some b ∈ l then some b else if unknown = true ∨ none ∈ l then none else some (!b) := by
  induction l generalizing unknown with
  | nil => simp [scan]
  | cons v l ih =>
    by_cases hv : v = some b
    · simp [scan, hv]
    · rw [scan, if_neg hv, ih]
      cases v with
      | none => simp
      | some c => simp [Ne.symm hv]

/-- A scan of the whole list gives what the list says. -/
theorem scan_false (b : Bool) (l : List (Option Bool)) : scan b false l = decidedBy b l := by
  rw [scan_eq]
  simp [decidedBy]

/-- Without an unknown the list says whether the deciding value is in it. -/
theorem decidedBy_true_map {β : Type} (f : β → Bool) (l : List β) :
    decidedBy true (l.map fun x => some (f x)) = some (l.any f) := by
  unfold decidedBy
  by_cases h : ∃ x ∈ l, f x = true
  · have hmem : some true ∈ l.map fun x => some (f x) := by simpa using h
    rw [if_pos hmem, List.any_eq_true.mpr h]
  · have hmem : some true ∉ l.map fun x => some (f x) := by simpa using h
    have hnone : none ∉ l.map fun x => some (f x) := by simp
    rw [if_neg hmem, if_neg hnone, Bool.eq_false_iff.mpr fun hany => h (List.any_eq_true.mp hany)]
    rfl

end Kleene
