import PgJitter.Lemmas.IntHash

/-!
# Equal values of the integer family have equal hashes

Across the widths, for intervals that compare equal, and in the emitted instructions.
-/

namespace PgJitter

open IntHashAux HashReg

namespace IntHashAux

/-- A wide hash of a word is its hash. -/
theorem jitHashint8_int4 (a : BitVec 32) : jitHashint8 (a.signExtend 64) = (jitHashint4 a).setWidth 64 := by
  rw [jitHashint8, jitHashint4, foldInt8_signExtend a _ (upper_shift _).1]

/-- A wide hash of a half word is its hash. -/
theorem jitHashint8_int2 (a : BitVec 64) : jitHashint8 ((a.setWidth 16).signExtend 64) = (jitHashint2 a).setWidth 64 := by
  rw [← signExtend_signExtend, jitHashint8_int4]
  rfl

/-- An extended wide hash of a word is its extended hash. -/
theorem jitHashint8extended_int4 (ext : BitVec 32 → BitVec 64 → BitVec 64) (val seed : BitVec 64) :
    jitHashint8extended ext ((low32 val).signExtend 64) seed = jitHashint4extended ext val seed := by
  rw [jitHashint8extended, jitHashint4extended, foldInt8_signExtend (low32 val) _ (upper_shift _).2]

/-- An extended wide hash of a half word is its extended hash. -/
theorem jitHashint8extended_int2 (ext : BitVec 32 → BitVec 64 → BitVec 64) (val seed : BitVec 64) :
    jitHashint8extended ext ((val.setWidth 16).signExtend 64) seed = jitHashint2extended ext val seed := by
  rw [← signExtend_signExtend, jitHashint8extended, foldInt8_signExtend _ _ (upper_shift _).2]
  rfl

/-- Intervals that compare equal have one hash. -/
theorem jitIntervalHash_eq {a b : Interval} (heq : jitIntervalEq a b = 1) : jitIntervalHash a = jitIntervalHash b := by
  have hcmp : int128Compare a.span128 b.span128 = 0 := by
    rw [jitIntervalEq, jitIntervalCmpInternal] at heq
    split at heq
    · assumption
    · simp at heq
  rw [jitIntervalHash, jitIntervalHash, eq_of_int128Compare hcmp]

/-- The code for the wide hash folds the value and then hashes the word. -/
theorem run_emitHashint8 (upper : Nat → BitVec 32) (n : Nat) (regs : HashRegs) :
    runHash upper n emitHashint8 regs r0 = jitHashint8 (regs r0) := by
  rw [emitHashint8, runHash_append, run_emitHashint4, low32_emitFoldInt8, jitHashint8, upper_shift_eq]

end IntHashAux

/-- A value of the integer family has one hash in every width, extended or not and for every seed; intervals that `jit_interval_eq` calls
equal have one hash; and the emitted instructions leave in the low half of the result what `jit_hashint4` and `jit_hashint8` return,
whatever the upper halves of the registers are. -/
theorem hash_family_right (ext : BitVec 32 → BitVec 64 → BitVec 64) :
    (∀ a : BitVec 32, jitHashint8 (a.signExtend 64) = (jitHashint4 a).setWidth 64) ∧
    (∀ a : BitVec 64, jitHashint4 ((a.setWidth 16).signExtend 32) = jitHashint2 a ∧
      jitHashint8 ((a.setWidth 16).signExtend 64) = (jitHashint2 a).setWidth 64) ∧
    (∀ val seed : BitVec 64, jitHashint8extended ext ((low32 val).signExtend 64) seed = jitHashint4extended ext val seed ∧
      jitHashint4extended ext ((val.setWidth 16).signExtend 64) seed = jitHashint2extended ext val seed ∧
      jitHashint8extended ext ((val.setWidth 16).signExtend 64) seed = jitHashint2extended ext val seed) ∧
    (∀ a b : Interval, jitIntervalEq a b = 1 → jitIntervalHash a = jitIntervalHash b) ∧
    ∀ (upper : Nat → BitVec 32) (n : Nat) (regs : HashRegs),
      low32 (runHash upper n emitHashint4 regs r0) = jitHashint4 (low32 (regs r0)) ∧
      low32 (runHash upper n emitHashint8 regs r0) = low32 (jitHashint8 (regs r0)) := by
  refine ⟨jitHashint8_int4, fun a => ⟨rfl, jitHashint8_int2 a⟩, fun val seed => ⟨jitHashint8extended_int4 ext val seed, ?_,
    jitHashint8extended_int2 ext val seed⟩, fun a b heq => jitIntervalHash_eq heq, fun upper n regs => ⟨?_, ?_⟩⟩
  · rw [jitHashint4extended, ← signExtend_signExtend, low32_signExtend]
    rfl
  · rw [run_emitHashint4, low32, BitVec.setWidth_setWidth_of_le _ (by decide), BitVec.setWidth_eq]
    rfl
  · rw [run_emitHashint8]

/-- A negative value, in three widths. -/
example : jitHashint8 (-7) = (jitHashint4 (-7)).setWidth 64 ∧ jitHashint4 (-7) = jitHashint2 (-7) := by decide

namespace IntHashWitness

/-- One month. -/
def aMonth : Interval := { time := 0, day := 0, month := 1 }

/-- Thirty days. -/
def thirtyDays : Interval := { time := 0, day := 30, month := 0 }

/-- They compare equal, so they have one hash. -/
theorem month_and_thirty_days : jitIntervalEq aMonth thirtyDays = 1 ∧ jitIntervalHash aMonth = jitIntervalHash thirtyDays := by
  have heq : jitIntervalEq aMonth thirtyDays = 1 := by decide
  exact ⟨heq, (hash_family_right fun k _ => k.setWidth 64).2.2.2.1 _ _ heq⟩

end IntHashWitness

end PgJitter
