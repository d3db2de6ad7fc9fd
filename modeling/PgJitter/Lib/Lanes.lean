import Mathlib.Data.BitVec

/-!
# Lanes of a register

A register is a bit vector, cut into lanes of one width from its low end. A register is built from its lanes, a lane of a lane is a
lane, and a wider lane is built from the narrow ones that it covers.
-/

namespace Lanes

variable {n : Nat}

/-- The lane `k`, of width `w`. -/
def lane (w k : Nat) (v : BitVec n) : BitVec w := v.extractLsb' (w * k) w

/-- The register of `n` bits with the lanes `f 0`, ..., `f (m - 1)`. -/
def ofLanes (n w : Nat) : Nat → (Nat → BitVec w) → BitVec n
  | 0, _ => 0
  | m + 1, f => ofLanes n w m f ||| ((f m).setWidth n <<< (w * m))

/-- The bits of a lane. -/
@[simp] theorem getLsbD_lane (w k : Nat) (v : BitVec n) (i : Nat) :
    (lane w k v).getLsbD i = (decide (i < w) && v.getLsbD (w * k + i)) :=
  BitVec.getLsbD_extractLsb' (w * k) w v i

/-- The bits of a register that is built from lanes. -/
theorem getLsbD_ofLanes {w m : Nat} (f : Nat → BitVec w) (i : Nat) :
    (ofLanes n w m f).getLsbD i = (decide (i < n) && decide (i < w * m) && (f (i / w)).getLsbD (i % w)) := by
  induction m with
  | zero => simp [ofLanes]
  | succ m ih =>
    rw [ofLanes, BitVec.getLsbD_or, ih, BitVec.getLsbD_shiftLeft, BitVec.getLsbD_setWidth, Nat.mul_succ]
    rcases Nat.lt_or_ge i (w * m) with hlow | hhigh
    · have hnext : i < w * m + w := by omega
      simp [hlow, hnext]
    · rcases Nat.lt_or_ge i (w * m + w) with hnext | hpast
      · have hw : 0 < w := by omega
        have hdiv : i / w = m := by
          rw [Nat.div_eq_iff hw, Nat.mul_comm]
          omega
        have hmod : i % w = i - w * m := by
          have hsplit := Nat.div_add_mod i w
          rw [hdiv] at hsplit
          omega
        have hlow : ¬ i < w * m := by omega
        have hbit : i - w * m < n ∨ n ≤ i := by omega
        rcases hbit with hbit | hbit
        · simp [hlow, hnext, hdiv, hmod, hbit]
        · simp [hlow, hnext, Nat.not_lt.2 hbit]
      · have hlow : ¬ i < w * m := by omega
        have hlast : ¬ i < w * m + w := by omega
        simp only [hlow, hlast, decide_false, Bool.and_false, Bool.false_and, Bool.false_or]
        rw [BitVec.getLsbD_of_ge (f m) (i - w * m) (by omega)]
        simp

/-- A lane of a register that is built from lanes. -/
theorem lane_ofLanes {w m k : Nat} (f : Nat → BitVec w) (hk : k < m) (hn : w * m ≤ n) : lane w k (ofLanes n w m f) = f k := by
  refine BitVec.eq_of_getLsbD_eq fun i hi => ?_
  have hw : 0 < w := by omega
  have hlast : w * k + w ≤ w * m := by
    rw [← Nat.mul_succ]
    exact Nat.mul_le_mul_left w hk
  have hdiv : (w * k + i) / w = k := by rw [Nat.mul_add_div hw, Nat.div_eq_of_lt hi, Nat.add_zero]
  have hmod : (w * k + i) % w = i := by rw [Nat.mul_add_mod, Nat.mod_eq_of_lt hi]
  rw [getLsbD_lane, getLsbD_ofLanes, hdiv, hmod]
  simp [hi, show w * k + i < n by omega, show w * k + i < w * m by omega]

/-- A wide lane of a register that is built from narrow lanes is built from those it covers. -/
theorem lane_ofLanes_group {w g m k : Nat} (f : Nat → BitVec w) (hk : g * (k + 1) ≤ m) (hn : w * m ≤ n) :
    lane (w * g) k (ofLanes n w m f) = ofLanes (w * g) w g fun j => f (g * k + j) := by
  refine BitVec.eq_of_getLsbD_eq fun i hi => ?_
  have hw : 0 < w := Nat.pos_of_ne_zero fun h0 => by simp [h0] at hi
  have hpos : w * g * k + i < w * m := by
    have hle := Nat.mul_le_mul_left w hk
    rw [Nat.mul_succ, Nat.mul_add, ← Nat.mul_assoc] at hle
    omega
  have hdiv : (w * g * k + i) / w = g * k + i / w := by rw [Nat.mul_assoc, Nat.mul_add_div hw]
  have hmod : (w * g * k + i) % w = i % w := by rw [Nat.mul_assoc, Nat.mul_add_mod]
  rw [getLsbD_lane, getLsbD_ofLanes, getLsbD_ofLanes, hdiv, hmod]
  simp [hi, show w * g * k + i < n by omega, hpos]

/-- A lane of a lane. -/
theorem lane_lane {w g j k : Nat} (hk : k < g) (v : BitVec n) : lane w k (lane (w * g) j v) = lane w (g * j + k) v := by
  refine BitVec.eq_of_getLsbD_eq fun i hi => ?_
  have hin : w * k + i < w * g := by
    have hle := Nat.mul_le_mul_left w (Nat.succ_le_of_lt hk)
    rw [Nat.mul_succ] at hle
    omega
  rw [getLsbD_lane, getLsbD_lane, getLsbD_lane]
  simp [hi, hin, Nat.mul_add, Nat.mul_assoc, Nat.add_assoc]

/-- The lane 0 of a shifted register. -/
theorem lane_ushiftRight {w j k : Nat} (v : BitVec n) : lane w k (v >>> (w * j)) = lane w (j + k) v := by
  refine BitVec.eq_of_getLsbD_eq fun i hi => ?_
  rw [getLsbD_lane, getLsbD_lane, BitVec.getLsbD_ushiftRight, Nat.mul_add, Nat.add_assoc]

/-- A word and its sign make the word of twice the width. -/
theorem ofLanes_sign (w : Nat) (v : BitVec w) :
    (ofLanes (2 * w) w 2 fun k => if k = 0 then v else v.sshiftRight (w - 1)) = v.signExtend (2 * w) := by
  refine BitVec.eq_of_getLsbD_eq fun i hi => ?_
  have hw : 0 < w := by omega
  rw [getLsbD_ofLanes, BitVec.getLsbD_signExtend]
  rcases Nat.lt_or_ge i w with hlow | hhigh
  · simp [hi, hlow, Nat.div_eq_of_lt hlow, Nat.mod_eq_of_lt hlow, show i < w * 2 by omega]
  · have hdiv : i / w = 1 := by
      rw [Nat.div_eq_iff hw]
      omega
    have hmsb : v.msb = v.getLsbD (w - 1) := BitVec.msb_eq_getLsbD_last v
    have hlow : ¬ i < w := by omega
    have hmod : i % w < w := Nat.mod_lt i hw
    simp only [hi, hdiv, hlow, show i < w * 2 by omega, decide_true, Bool.true_and, if_false, Nat.one_ne_zero,
      BitVec.getLsbD_sshiftRight]
    rcases Nat.eq_zero_or_pos (i % w) with hzero | hpos
    · simp [hzero, hmsb, show ¬ w ≤ 0 by omega]
    · have hpast : ¬ w - 1 + i % w < w := by omega
      simp [hpast, hmod]

end Lanes
