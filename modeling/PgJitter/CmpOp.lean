import Mathlib.Order.Compare
import Mathlib.Order.Lattice

/-!
# Comparisons

The six comparison operators, as conditions on the sign of a three-way comparison, which is how the source's macros take them.
-/

namespace PgJitter

/-- The comparison operators. -/
inductive CmpOp where
  | eq
  | ne
  | lt
  | le
  | gt
  | ge
  deriving DecidableEq, Repr

/-- The condition on a three-way result. -/
def CmpOp.cond : CmpOp → Int → Bool
  | .eq, r => r == 0
  | .ne, r => r != 0
  | .lt, r => decide (r < 0)
  | .le, r => decide (r ≤ 0)
  | .gt, r => decide (r > 0)
  | .ge, r => decide (r ≥ 0)

/-- A comparison as a number. -/
def orderingToInt : Ordering → Int
  | .lt => -1
  | .eq => 0
  | .gt => 1

/-- A truth value as an `int32`. -/
def boolToInt (b : Bool) : Int := if b then 1 else 0

/-- A comparison, as the C code writes it. -/
theorem orderingToInt_cmp {α : Type*} [LinearOrder α] (a b : α) :
    orderingToInt (cmp a b) = if a < b then -1 else if b < a then 1 else 0 := by
  unfold cmp cmpUsing
  split_ifs <;> rfl

/-- The other argument order. -/
theorem orderingToInt_cmp_swap {α : Type*} [LinearOrder α] (a b : α) :
    orderingToInt (cmp b a) = -orderingToInt (cmp a b) := by
  rw [← cmp_swap]
  cases cmp a b <;> rfl

end PgJitter
