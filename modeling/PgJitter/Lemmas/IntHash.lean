import PgJitter.IntHash

/-!
# Helpers for `IntHash.lean`: the fold of a small value, and the low halves of the registers

The fold leaves the low half of a value that was extended with its sign. The low halves of the registers go through a round as the three
words of `final` do, whatever the upper halves are.
-/

namespace PgJitter
namespace IntHashAux

open HashReg

/-! ## The fold -/

/-- The low half of a sign extension. -/
theorem low32_signExtend (a : BitVec 32) : low32 (a.signExtend 64) = a := by
  refine BitVec.eq_of_getLsbD_eq fun i hi => ?_
  rw [low32, BitVec.getLsbD_setWidth, BitVec.getLsbD_signExtend]
  simp [hi, show i < 64 by omega]

/-- A value is not negative when its sign bit is clear. -/
theorem toInt_nonneg_iff (v : BitVec 64) : 0 ≤ v.toInt ↔ v.msb = false := by
  rw [BitVec.msb_eq_toInt, decide_eq_false_iff_not, Int.not_lt]

/-- A sign extension in two steps. -/
theorem signExtend_signExtend (a : BitVec 16) : (a.signExtend 32).signExtend 64 = a.signExtend 64 := by
  refine BitVec.eq_of_toInt_eq ?_
  rw [BitVec.toInt_signExtend_of_le (by decide), BitVec.toInt_signExtend_of_le (by decide), BitVec.toInt_signExtend_of_le (by decide)]

/-- The bits of the upper half of a sign extension are its sign. -/
theorem upper_signExtend (a : BitVec 32) (i : Nat) (hi : i < 32) : (a.signExtend 64).getLsbD (32 + i) = a.msb := by
  rw [BitVec.getLsbD_signExtend]
  simp [show 32 + i < 64 by omega]

/-- The fold leaves the low half of a value that was extended with its sign, where the other half is the upper one. -/
theorem foldInt8_signExtend (a hihalf : BitVec 32) (hupper : ∀ i < 32, hihalf.getLsbD i = (a.signExtend 64).getLsbD (32 + i)) :
    foldInt8 (a.signExtend 64) hihalf = a := by
  have hsign : 0 ≤ (a.signExtend 64).toInt ↔ a.msb = false := by
    rw [BitVec.toInt_signExtend_of_le (by decide), BitVec.msb_eq_toInt, decide_eq_false_iff_not, Int.not_lt]
  have hbits : ∀ i < 32, hihalf.getLsbD i = a.msb := fun i hi => (hupper i hi).trans (upper_signExtend a i hi)
  refine BitVec.eq_of_getLsbD_eq fun i hi => ?_
  rw [foldInt8, low32_signExtend, BitVec.getLsbD_xor]
  cases hmsb : a.msb with
  | false => rw [if_pos (hsign.2 hmsb), hbits i hi, hmsb, Bool.xor_false]
  | true =>
    have hneg : ¬ 0 ≤ (a.signExtend 64).toInt := fun h => nomatch hmsb.symm.trans (hsign.1 h)
    rw [if_neg hneg, BitVec.getLsbD_not, hbits i hi, hmsb]
    simp [hi]

/-- The upper half by a shift with the sign, or without. -/
theorem upper_shift (v : BitVec 64) : (∀ i < 32, (low32 (v.sshiftRight 32)).getLsbD i = v.getLsbD (32 + i)) ∧
    ∀ i < 32, (low32 (v >>> 32)).getLsbD i = v.getLsbD (32 + i) := by
  constructor
  · intro i hi
    rw [low32, BitVec.getLsbD_setWidth, BitVec.getLsbD_sshiftRight]
    simp [hi, show ¬ 64 ≤ i by omega, show 32 + i < 64 by omega]
  · intro i hi
    rw [low32, BitVec.getLsbD_setWidth, BitVec.getLsbD_ushiftRight]
    simp [hi]

/-- The two shifts give one upper half. -/
theorem upper_shift_eq (v : BitVec 64) : low32 (v.sshiftRight 32) = low32 (v >>> 32) :=
  BitVec.eq_of_getLsbD_eq fun i hi => ((upper_shift v).1 i hi).trans ((upper_shift v).2 i hi).symm

/-! ## Intervals -/

/-- Two wide integers that compare equal are equal. -/
theorem eq_of_int128Compare {x y : BitVec 128} (h : int128Compare x y = 0) : x = y := by
  unfold int128Compare at h
  split at h
  · exact nomatch h
  · rename_i hxy
    split at h
    · exact nomatch h
    · rename_i hyx
      rw [BitVec.slt_iff_toInt_lt] at hxy hyx
      exact BitVec.eq_of_toInt_eq (by omega)

/-! ## Runs -/

/-- The low halves of the registers. -/
def lows (regs : HashRegs) : HashReg → BitVec 32 := fun r => low32 (regs r)

/-- The low half of a register whose halves are known. -/
theorem low32_append (upper v : BitVec 32) : low32 (upper ++ v) = v := by
  refine BitVec.eq_of_getLsbD_eq fun i hi => ?_
  rw [low32, BitVec.getLsbD_setWidth, BitVec.getLsbD_append]
  simp [hi]

/-- The low halves after a write. -/
theorem lows_update (regs : HashRegs) (dst : HashReg) (v : Datum) :
    lows (Function.update regs dst v) = Function.update (lows regs) dst (low32 v) := by
  funext r
  by_cases hr : r = dst
  · subst hr
    simp [lows]
  · simp [lows, hr]

/-- A run of two pieces. -/
theorem runHash_append (upper : Nat → BitVec 32) (n : Nat) (is js : List HashInsn) (regs : HashRegs) :
    runHash upper n (is ++ js) regs = runHash upper (n + is.length) js (runHash upper n is regs) := by
  induction is generalizing n regs with
  | nil => rfl
  | cons i is ih => rw [List.cons_append, runHash, runHash, ih, List.length_cons, Nat.add_assoc, Nat.add_comm 1]

/-- A round on three words. -/
def finalRound (rx ry : HashReg) (k : Nat) (w : HashReg → BitVec 32) : HashReg → BitVec 32 :=
  Function.update w rx ((w rx ^^^ w ry) - (w ry).rotateLeft k)

/-- The low halves after a round, but for the scratch register. -/
theorem lows_emitFinalRound (upper : Nat → BitVec 32) (n : Nat) {rx ry : HashReg} (hxy : ry ≠ rx) (hx : rx ≠ r3) (hy : ry ≠ r3) (k : Nat)
    {regs : HashRegs} {w : HashReg → BitVec 32} (hw : ∀ r, r ≠ r3 → lows regs r = w r) :
    ∀ r, r ≠ r3 → lows (runHash upper n (emitFinalRound rx ry k) regs) r = finalRound rx ry k w r := by
  intro r hr
  have hvx := hw rx hx
  have hvy := hw ry hy
  have hvr := hw r hr
  rw [lows] at hvx hvy
  simp only [emitFinalRound, runHash, HashInsn.exec, lows_update, low32_append, finalRound]
  by_cases heq : r = rx
  · subst heq
    simp [hx, hxy, hvx, hvy, low32_append]
  · simp [heq, hr, hvr]

/-- The words that the rounds begin with. -/
def finalStart (k : BitVec 32) : HashReg → BitVec 32
  | r0 => hashInit + k
  | _ => hashInit

/-- The seven rounds on three words. -/
def finalWords (w : HashReg → BitVec 32) : HashReg → BitVec 32 :=
  finalRound r2 r1 24 (finalRound r1 r0 14 (finalRound r0 r2 4 (finalRound r2 r1 16
    (finalRound r1 r0 25 (finalRound r0 r2 11 (finalRound r2 r1 14 w))))))

/-- The hash is the last of the three words. -/
theorem finalWords_start (k : BitVec 32) : finalWords (finalStart k) r2 = hashBytesUint32 k := rfl

/-- The low halves after the rounds. -/
theorem lows_emitFinal (upper : Nat → BitVec 32) (n : Nat) {regs : HashRegs} {w : HashReg → BitVec 32}
    (hw : ∀ r, r ≠ r3 → lows regs r = w r) : ∀ r, r ≠ r3 → lows (runHash upper n emitFinal regs) r = finalWords w r := by
  simp only [emitFinal, runHash_append]
  refine lows_emitFinalRound upper _ (by decide) (by decide) (by decide) 24 ?_
  refine lows_emitFinalRound upper _ (by decide) (by decide) (by decide) 14 ?_
  refine lows_emitFinalRound upper _ (by decide) (by decide) (by decide) 4 ?_
  refine lows_emitFinalRound upper _ (by decide) (by decide) (by decide) 16 ?_
  refine lows_emitFinalRound upper _ (by decide) (by decide) (by decide) 25 ?_
  refine lows_emitFinalRound upper _ (by decide) (by decide) (by decide) 11 ?_
  exact lows_emitFinalRound upper _ (by decide) (by decide) (by decide) 14 hw

/-- What the code for `hashint4` leaves. -/
theorem run_emitHashint4 (upper : Nat → BitVec 32) (n : Nat) (regs : HashRegs) :
    runHash upper n emitHashint4 regs r0 = (hashBytesUint32 (low32 (regs r0))).setWidth 64 := by
  have hstart : ∀ r, r ≠ r3 →
      lows (runHash upper n [.addImm32 r0 r0 hashInit, .movImm32 r1 hashInit, .movImm32 r2 hashInit] regs) r =
        finalStart (low32 (regs r0)) r := by
    intro r hr
    simp only [runHash, HashInsn.exec, lows_update, low32_append]
    cases r with
    | r0 => simp [finalStart, BitVec.add_comm]
    | r1 => simp [finalStart]
    | r2 => simp [finalStart]
    | r3 => exact absurd rfl hr
  have hfinal := lows_emitFinal upper (n + 3) hstart r2 (by decide)
  rw [finalWords_start, lows] at hfinal
  simp only [emitHashint4, runHash_append]
  rw [runHash, runHash, HashInsn.exec, Function.update_self]
  exact congrArg (BitVec.setWidth 64) hfinal

/-- The mask of the sign. -/
theorem low32_sshiftRight_63 (v : BitVec 64) : low32 (v.sshiftRight 63) = if v.msb then BitVec.allOnes 32 else 0#32 := by
  refine BitVec.eq_of_getLsbD_eq fun i hi => ?_
  have hbit : (low32 (v.sshiftRight 63)).getLsbD i = v.msb := by
    rw [low32, BitVec.getLsbD_setWidth, BitVec.getLsbD_sshiftRight, BitVec.msb_eq_getLsbD_last]
    rcases Nat.eq_zero_or_pos i with rfl | hpos
    · simp
    · simp [hi, show ¬ 63 + i < 64 by omega, show ¬ 64 ≤ i by omega]
  cases hmsb : v.msb with
  | false => simpa [hmsb] using hbit
  | true => rw [hbit, hmsb, if_pos rfl, BitVec.getLsbD_allOnes, decide_eq_true hi]

/-- What the code of the fold leaves. -/
theorem low32_emitFoldInt8 (upper : Nat → BitVec 32) (n : Nat) (regs : HashRegs) :
    low32 (runHash upper n emitFoldInt8 regs r0) = foldInt8 (regs r0) (low32 (regs r0 >>> 32)) := by
  have hlow : low32 ((low32 (regs r0)).setWidth 64) = low32 (regs r0) := by
    rw [low32, BitVec.setWidth_setWidth_of_le _ (by decide), BitVec.setWidth_eq]
  simp only [emitFoldInt8, runHash, HashInsn.exec]
  rw [Function.update_self, low32_append, foldInt8]
  simp only [Function.update_self, Function.update_of_ne, ne_eq, reduceCtorEq, not_false_eq_true, low32_append, hlow]
  rw [low32_sshiftRight_63]
  cases hmsb : (regs r0).msb with
  | false => simp [(toInt_nonneg_iff _).2 hmsb]
  | true =>
    have hneg : ¬ 0 ≤ (regs r0).toInt := fun h => nomatch hmsb.symm.trans ((toInt_nonneg_iff _).1 h)
    rw [if_neg hneg, if_pos rfl, BitVec.xor_allOnes]

end IntHashAux
end PgJitter
