import Mathlib.Data.List.Induction

/-!
# Folding to an extremum

An accumulator that is kept or replaced by the next element, as a test on the two decides. When the test is a total preorder the
result is an extremum of the list.
-/

namespace Extremum

variable {α β : Type} {keep : α → α → Bool}

/-- Keep the accumulator or take the next element. -/
def choose (keep : α → α → Bool) (m x : α) : α := if keep m x then m else x

/-- The element that is left. -/
def select (keep : α → α → Bool) (m : α) (xs : List α) : α := xs.foldl (choose keep) m

@[simp] theorem select_nil (m : α) : select keep m [] = m := rfl

theorem select_append_singleton (m x : α) (xs : List α) :
    select keep m (xs ++ [x]) = choose keep (select keep m xs) x := by
  rw [select, List.foldl_append]
  rfl

/-- A fold that selects up to what a function reads of the elements. -/
theorem map_foldl {f : β → β → β} {g : β → α} (hf : ∀ m x, g (f m x) = choose keep (g m) (g x)) (m : β) (xs : List β) :
    g (xs.foldl f m) = select keep (g m) (xs.map g) := by
  induction xs generalizing m with
  | nil => rfl
  | cons x xs ih =>
    rw [List.foldl_cons, ih, hf]
    rfl

/-- The result is one of the elements. -/
theorem select_mem (m : α) (xs : List α) : select keep m xs ∈ m :: xs := by
  induction xs using List.reverseRecOn with
  | nil => exact List.mem_singleton.2 rfl
  | append_singleton xs x ih =>
    rw [select_append_singleton, choose]
    split
    · rcases List.mem_cons.1 ih with h | h
      · exact List.mem_cons.2 (Or.inl h)
      · exact List.mem_cons_of_mem m (List.mem_append_left [x] h)
    · exact List.mem_cons_of_mem m (List.mem_append_right xs (List.mem_singleton.2 rfl))

/-- When the test is a total preorder, the result is at the low end of it. -/
theorem select_rel {r : α → α → Prop} (hrefl : ∀ a, r a a) (htrans : ∀ a b c, r a b → r b c → r a c)
    (hkeep : ∀ a b, keep a b = true → r a b) (htake : ∀ a b, keep a b = false → r b a) (m : α) (xs : List α) :
    ∀ y ∈ m :: xs, r (select keep m xs) y := by
  induction xs using List.reverseRecOn with
  | nil =>
    intro y hy
    rw [List.mem_singleton.1 hy]
    exact hrefl m
  | append_singleton xs x ih =>
    intro y hy
    rw [select_append_singleton, choose]
    have hy : y ∈ m :: xs ∨ y = x := by simpa [or_assoc] using hy
    cases hk : keep (select keep m xs) x with
    | true =>
      rw [if_pos rfl]
      rcases hy with hy | rfl
      · exact ih y hy
      · exact hkeep _ _ hk
    | false =>
      rw [if_neg (by decide)]
      rcases hy with hy | rfl
      · exact htrans _ _ _ (htake _ _ hk) (ih y hy)
      · exact hrefl y

end Extremum
