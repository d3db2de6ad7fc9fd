import Mathlib.Data.Int.Notation
import Mathlib.Data.List.Range
import Mathlib.Algebra.Ring.Nat

/-!
# Binary search

Searches in an array that is only looked at through a test of an index: for the first index that passes, over a half-open interval
that is halved until it is empty or until it holds one index, and for an index that compares equal, over a closed one.
-/

namespace BinarySearch

/-! ## The first index that passes -/

/-- Halve `[lo, hi)` until it is empty, keeping the first index that passes at its end. -/
def lowerBound (p : Nat → Bool) (lo hi : Nat) : Nat :=
  if lo < hi then
    if p (lo + (hi - lo) / 2) then lowerBound p lo (lo + (hi - lo) / 2) else lowerBound p (lo + (hi - lo) / 2 + 1) hi
  else lo
termination_by hi - lo

/-- An index after one that passes passes too. -/
def UpClosed (p : Nat → Bool) (hi : Nat) : Prop := ∀ i j, i ≤ j → j < hi → p i = true → p j = true

/-- `r` is the first index that passes, or the end. -/
structure IsFirst (p : Nat → Bool) (hi r : Nat) : Prop where
  le : r ≤ hi
  before : ∀ i < r, p i = false
  here : r < hi → p r = true

/-- The search finds the first index that passes, when nothing before the interval does and the end of it does. -/
theorem lowerBound_isFirst {p : Nat → Bool} {n lo hi : Nat} (hle : lo ≤ hi) (hhi : hi ≤ n) (hp : UpClosed p n)
    (hbefore : ∀ i < lo, p i = false) (hafter : hi < n → p hi = true) : IsFirst p n (lowerBound p lo hi) := by
  fun_induction lowerBound p lo hi with
  | case1 lo hi hlt hmid ih => exact ih (by omega) (by omega) hbefore fun _ => hmid
  | case2 lo hi hlt hmid ih =>
    refine ih (by omega) hhi (fun i hi' => ?_) hafter
    -- an earlier index that passed would make the middle pass
    by_contra hne
    exact hmid (hp i _ (by omega) (by omega) (by simpa using hne))
  | case3 lo hi hge =>
    obtain rfl : lo = hi := by omega
    exact ⟨hhi, hbefore, hafter⟩

/-- The search of a whole array. -/
theorem isFirst_lowerBound {p : Nat → Bool} {n : Nat} (hp : UpClosed p n) : IsFirst p n (lowerBound p 0 n) :=
  lowerBound_isFirst (Nat.zero_le n) (Nat.le_refl n) hp (fun _ h => absurd h (Nat.not_lt_zero _))
    fun h => absurd h (Nat.lt_irrefl n)

/-! ## A window of one index -/

/-- Where the window of `n` indices at `base` starts once it is halved: past its first half, when the last index of that half fails. -/
def advance (p : Nat → Bool) (base n : Nat) : Nat := if p (base + n / 2 - 1) then base else base + n / 2

/-- Halve a window until it holds one index. -/
def narrow (p : Nat → Bool) (base n : Nat) : Nat := if 1 < n then narrow p (advance p base n) (n - n / 2) else base
termination_by n

/-- The halved window is a part of the window. -/
theorem advance_mem (p : Nat → Bool) (base n : Nat) : base ≤ advance p base n ∧ advance p base n + (n - n / 2) ≤ base + n := by
  unfold advance
  split <;> omega

/-- What is left is an index of the window. -/
theorem narrow_mem (p : Nat → Bool) {base n : Nat} (hn : 0 < n) : base ≤ narrow p base n ∧ narrow p base n < base + n := by
  fun_induction narrow p base n with
  | case1 base n hlt ih =>
    have hpart := advance_mem p base n
    have hleft := ih (by omega)
    omega
  | case2 base n hge => omega

/-- One halving keeps the first index that passes, if the window has one: the half that is dropped fails, for its last index does. -/
theorem advance_window {p : Nat → Bool} {hi r base n : Nat} (hp : UpClosed p hi) (hr : IsFirst p hi r) (hn : 1 < n)
    (hfits : base + n ≤ hi) (hwindow : base ≤ r ∧ r < base + n) :
    advance p base n ≤ r ∧ r < advance p base n + (n - n / 2) := by
  unfold advance
  split
  · rename_i hpass
    have hle : r ≤ base + n / 2 - 1 := by
      by_contra hgt
      rw [hr.before _ (by omega)] at hpass
      exact absurd hpass Bool.false_ne_true
    omega
  · rename_i hfail
    have hlt : base + n / 2 - 1 < r := by
      by_contra hge
      exact hfail (hp r _ (by omega) (by omega) (hr.here (by omega)))
    omega

/-- The index that is left is the first that passes, when the window has it. -/
theorem narrow_eq {p : Nat → Bool} {hi r base n : Nat} (hp : UpClosed p hi) (hr : IsFirst p hi r) (hfits : base + n ≤ hi)
    (hwindow : base ≤ r ∧ r < base + n) : narrow p base n = r := by
  fun_induction narrow p base n with
  | case1 base n hlt ih =>
    have hpart := advance_mem p base n
    exact ih (by omega) (advance_window hp hr hlt hfits hwindow)
  | case2 base n hge => omega

/-! ## An index that compares equal -/

/-- Halve `[lo, hi]` by how what is sought compares with the middle. -/
def findEq (c : Int → Ordering) (lo hi : Int) : Option Int :=
  if lo ≤ hi then
    match c (lo + (hi - lo) / 2) with
    | .eq => some (lo + (hi - lo) / 2)
    | .gt => findEq c (lo + (hi - lo) / 2 + 1) hi
    | .lt => findEq c lo (lo + (hi - lo) / 2 - 1)
  else none
termination_by (hi + 1 - lo).toNat

/-- What is sought compares with the entries as with an increasing array. -/
def Increasing (c : Int → Ordering) (n : Int) : Prop :=
  ∀ i j, 0 ≤ i → i < j → j < n → (c j ≠ .lt → c i = .gt) ∧ (c i ≠ .gt → c j = .lt)

/-- The index found compares equal, and when none is found no entry does. -/
theorem findEq_spec {c : Int → Ordering} {n lo hi : Int} (hlo : 0 ≤ lo) (hhi : hi < n) (hc : Increasing c n)
    (hbefore : ∀ i, 0 ≤ i → i < lo → c i = .gt) (hafter : ∀ i, hi < i → i < n → c i = .lt) :
    (∀ k, findEq c lo hi = some k → 0 ≤ k ∧ k < n ∧ c k = .eq) ∧
      (findEq c lo hi = none → ∀ i, 0 ≤ i → i < n → c i ≠ .eq) := by
  fun_induction findEq c lo hi with
  | case1 lo hi hle hmid =>
    refine ⟨fun k hk => ?_, fun h => nomatch h⟩
    obtain rfl := Option.some.inj hk
    exact ⟨by omega, by omega, hmid⟩
  | case2 lo hi hle hmid ih =>
    refine ih (by omega) hhi (fun i h0 hi' => ?_) hafter
    rcases Int.lt_or_eq_of_le (Int.le_of_lt_add_one hi') with hlt | rfl
    · exact (hc i _ h0 hlt (by omega)).1 (by rw [hmid]; decide)
    · exact hmid
  | case3 lo hi hle hmid ih =>
    refine ih hlo (by omega) hbefore fun i hi' hn => ?_
    rcases Int.lt_or_eq_of_le (Int.sub_one_lt_iff.1 hi') with hlt | rfl
    · exact (hc _ i (by omega) hlt hn).2 (by rw [hmid]; decide)
    · exact hmid
  | case4 lo hi hgt =>
    refine ⟨fun k hk => (nomatch hk), fun _ i h0 hn => ?_⟩
    rcases Int.lt_or_le i lo with h | h
    · rw [hbefore i h0 h]
      decide
    · rw [hafter i (by omega) hn]
      decide

end BinarySearch
