import Mathlib.Order.Lattice

/-!
# Rows of intervals

A list of half-open intervals tiles the order from a point on when the first begins at the point, every other one where the one before it
ends, and none ends before it begins. In such a list the interval that holds a point is the first one that ends above it.
-/

namespace Tiling

variable {β K : Type} [LinearOrder K] {lo hi : β → K}

/-- The intervals follow one another from a point on. -/
def Tiles (lo hi : β → K) : K → List β → Prop
  | _, [] => True
  | a, b :: bs => lo b = a ∧ lo b ≤ hi b ∧ Tiles lo hi (hi b) bs

/-- Each begins where the one before it ends. -/
theorem tiles_of_zip {b : β} {bs : List β} (hordered : ∀ x ∈ b :: bs, lo x ≤ hi x)
    (hchain : ∀ x ∈ (b :: bs).zip bs, hi x.1 = lo x.2) : Tiles lo hi (lo b) (b :: bs) := by
  induction bs generalizing b with
  | nil => exact ⟨rfl, hordered b List.mem_cons_self, True.intro⟩
  | cons b' bs ih =>
    have hnext : hi b = lo b' := hchain (b, b') List.mem_cons_self
    refine ⟨rfl, hordered b List.mem_cons_self, ?_⟩
    rw [hnext]
    exact ih (fun x hx => hordered x (List.mem_cons_of_mem b hx)) fun x hx => hchain x (List.mem_cons_of_mem _ hx)

/-- No interval begins below the point. -/
theorem Tiles.le_lo {a : K} {bs : List β} (h : Tiles lo hi a bs) : ∀ b ∈ bs, a ≤ lo b ∧ lo b ≤ hi b := by
  induction bs generalizing a with
  | nil => exact fun b hb => absurd hb List.not_mem_nil
  | cons b bs ih =>
    obtain ⟨rfl, hle, hrest⟩ := h
    refine List.forall_mem_cons.2 ⟨⟨le_rfl, hle⟩, fun x hx => ?_⟩
    obtain ⟨hlow, hordered⟩ := ih hrest x hx
    exact ⟨le_trans hle hlow, hordered⟩

/-- They end in order. -/
theorem Tiles.pairwise_hi {a : K} {bs : List β} (h : Tiles lo hi a bs) : bs.Pairwise fun b b' => hi b ≤ hi b' := by
  induction bs generalizing a with
  | nil => exact List.Pairwise.nil
  | cons b bs ih =>
    obtain ⟨-, -, hrest⟩ := h
    refine List.pairwise_cons.2 ⟨fun x hx => ?_, ih hrest⟩
    obtain ⟨hlow, hordered⟩ := hrest.le_lo x hx
    exact le_trans hlow hordered

/-- Below the point there is no interval. -/
theorem Tiles.find_below {a x : K} {bs : List β} (h : Tiles lo hi a bs) (hx : x < a) :
    bs.find? (fun b => lo b ≤ x ∧ x < hi b) = none := by
  refine List.find?_eq_none.2 fun b hb hholds => ?_
  have hlow := (h.le_lo b hb).1
  exact (lt_of_lt_of_le hx hlow).not_ge (of_decide_eq_true hholds).1

/-- From the point on, the first interval that ends above a point is the one that holds it. -/
theorem Tiles.find_above {a x : K} {bs : List β} (h : Tiles lo hi a bs) (hx : a ≤ x) :
    bs.find? (fun b => lo b ≤ x ∧ x < hi b) = bs.find? fun b => x < hi b := by
  induction bs generalizing a with
  | nil => rfl
  | cons b bs ih =>
    obtain ⟨rfl, -, hrest⟩ := h
    by_cases hlt : x < hi b
    · rw [List.find?_cons_of_pos (by simp [hx, hlt]), List.find?_cons_of_pos (by simp [hlt])]
    · rw [List.find?_cons_of_neg (by simp [hlt]), List.find?_cons_of_neg (by simp [hlt]), ih hrest (not_lt.1 hlt)]

end Tiling
