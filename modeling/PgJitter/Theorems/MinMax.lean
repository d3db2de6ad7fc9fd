import PgJitter.Lemmas.MinMax

/-!
# MIN and MAX

A run of the inlined transitions ends with the minimum or maximum of its inputs: always for the integer types that are compared at
their own width, and for floats and OIDs when the inputs are in order.
-/

namespace PgJitter

open MinMaxAux

variable {α β : Type} [LinearOrder α] [LinearOrder β]

/-- The run over a non-empty sequence ends with a value equal to its minimum or maximum if and only if the inputs are in order, which
for int2, int4, int8, date, timestamp and time they always are. -/
theorem inline_min_max_right_iff (F : FloatFormats α β) (isMin : Bool) (ty : MinMaxType) (x : Datum) (xs : List Datum) :
    MinMaxRight F isMin ty (x :: xs) ↔ InputsInOrder F isMin (x :: xs) ty := by
  cases ty with
  | int2 => exact iff_of_true (minMaxRight_int2 x xs) trivial
  | int4 => exact iff_of_true (minMaxRight_int4 x xs) trivial
  | int8 => exact iff_of_true (minMaxRight_int8 x xs) trivial
  | float4 => exact minMaxRight_float_iff (fun d => F.toF32 (low32 d)) (fun _ _ => Iff.rfl) step_float4 x xs
  | float8 => exact minMaxRight_float_iff F.toF64 (fun _ _ => Iff.rfl) step_float8 x xs
  | date => exact iff_of_true (minMaxRight_date x xs) trivial
  | oid => exact minMaxRight_oid_iff x xs
  | timestamp => exact iff_of_true (minMaxRight_timestamp x xs) trivial
  | time => exact iff_of_true (minMaxRight_time x xs) trivial

namespace MinMaxWitness

/-- Words as floats: the greatest word is NaN, every other its signed number. -/
def wordFloats : FloatFormats Int Int where
  toF32 d := if d = BitVec.intMax 32 then .nan else .num d.toInt
  toF64 d := if d = BitVec.intMax 64 then .nan else .num d.toInt

/-- The maximum of NaN and 1 comes out as 1, the minimum of 1 and NaN as NaN, and the minimum of the OIDs 3000000000, zero-extended, and
2500000000, sign-extended, as 3000000000. -/
theorem extremes_missed :
    ¬ MinMaxRight wordFloats false .float8 [BitVec.intMax 64, 1#64] ∧
    ¬ MinMaxRight wordFloats true .float8 [1#64, BitVec.intMax 64] ∧
    ¬ MinMaxRight wordFloats true .oid [3000000000#64, (2500000000#32).signExtend 64] := by
  refine ⟨?_, ?_, ?_⟩
  · rintro ⟨-, m, hm, hext, -, hle⟩
    have h1 := hext (BitVec.intMax 64) (by simp)
    rw [List.mem_cons, List.mem_singleton] at hm
    rcases hm with rfl | rfl
    · exact absurd hle (by decide)
    · exact absurd h1 (by decide)
  · rintro ⟨-, m, hm, hext, hle, -⟩
    have h1 := hext 1#64 (by simp)
    rw [List.mem_cons, List.mem_singleton] at hm
    rcases hm with rfl | rfl
    · exact absurd hle (by decide)
    · exact absurd h1 (by decide)
  · rintro ⟨-, m, hm, hext, hle, -⟩
    have h1 := hext ((2500000000#32).signExtend 64) (by simp)
    rw [List.mem_cons, List.mem_singleton] at hm
    rcases hm with rfl | rfl
    · exact absurd h1 (by decide)
    · exact absurd hle (by decide)

end MinMaxWitness

end PgJitter
