import PgJitter.Lib.Lanes
import PgJitter.Lib.StridedLoop
import Mathlib.Logic.Function.Basic

/-!
# The vectorised helpers

`simd_int4_array_eq`, `simd_int8_array_eq`, `simd_nullbitmap_all_notnull` and `simd_extract_int32_values` (`src/pg_jitter_simd.c`) in the
variants that the compiler can choose, register by register. No array, bitmap or tuple is long enough for an index to overflow.
-/

namespace PgJitter

open Lanes StridedLoop

/-- The instruction sets of which one is chosen when the helpers are compiled. -/
inductive SimdVariant where
  | neon
  | sse41
  | sse2
  | plain
  deriving DecidableEq, Repr

namespace SimdVariant

/-! ## Instructions -/

/-- A register. -/
abbrev Vec := BitVec 128

/-- `vdupq_n`: every lane has the value. -/
def vdupq {w : Nat} (m : Nat) (val : BitVec w) : Vec := ofLanes 128 w m fun _ => val

/-- `vld1q`: the lanes from the element `i` on. -/
def vld1q {w : Nat} (m : Nat) (data : Nat → BitVec w) (i : Nat) : Vec := ofLanes 128 w m fun k => data (i + k)

/-- `vceqq`: all bits of a lane, where the lanes are equal. -/
def vceqq (w m : Nat) (a b : Vec) : Vec := ofLanes 128 w m fun k => if lane w k a = lane w k b then BitVec.allOnes w else 0

/-- `vmaxvq_u32`: the largest lane. -/
def vmaxvqU32 (v : Vec) : Nat := ((List.range 4).map fun k => (lane 32 k v).toNat).foldr max 0

/-- `vminvq_u8`: the least lane. -/
def vminvqU8 (v : Vec) : Nat := ((List.range 16).map fun k => (lane 8 k v).toNat).foldr min 0xFF

/-- `vmovl_s32`: the two lanes of a half register, with their signs. -/
def vmovlS32 (v : BitVec 64) : Vec := ofLanes 128 64 2 fun k => (lane 32 k v).signExtend 64

/-- `_mm_loadu_si128` and `vld1q` of bytes. -/
def loadu (mem : Nat → BitVec 8) (off : Nat) : Vec := ofLanes 128 8 16 fun j => mem (off + j)

/-- `_mm_loadl_epi64`: the upper half is 0. -/
def loadl (mem : Nat → BitVec 8) (off : Nat) : Vec := ofLanes 128 8 8 fun j => mem (off + j)

/-- `_mm_cvtepi32_epi64`: the two low lanes, with their signs. -/
def cvtepi32Epi64 (v : Vec) : Vec := ofLanes 128 64 2 fun k => (lane 32 k v).signExtend 64

/-- `_mm_srli_si128`, by 8 bytes. -/
def srliSi128 (v : Vec) : Vec := v >>> 64

/-- `_mm_srai_epi32`, by 31 bits. -/
def sraiEpi32 (v : Vec) : Vec := ofLanes 128 32 4 fun k => (lane 32 k v).sshiftRight 31

/-- `_mm_unpacklo_epi32`: the two low lanes of both, in turn. -/
def unpackloEpi32 (a b : Vec) : Vec := ofLanes 128 32 4 fun k => if k % 2 = 0 then lane 32 (k / 2) a else lane 32 (k / 2) b

/-- `vst1q_s64` and `_mm_storeu_si128` to an array of words. -/
def storeu (values : Nat → BitVec 64) (i : Nat) (v : Vec) : Nat → BitVec 64 :=
  Function.update (Function.update values i (lane 64 0 v)) (i + 1) (lane 64 1 v)

/-! ## Searches -/

/-- A loop that leaves the function at a hit: `none`, or the index at its end. -/
def searchLoop (stride n : Nat) (hit : Nat → Bool) (i : Nat) : Option Nat :=
  (forStrided stride n (fun i (_ : Unit) => if hit i then none else some ()) i ()).map Prod.fst

/-- The loop over single elements, to the end: whether it leaves the function. -/
def scalarLoop (n : Nat) (hit : Nat → Bool) (i : Nat) : Bool := (searchLoop 1 n hit i).isNone

/-- `simd_int4_array_eq`. -/
def simdInt4ArrayEq (variant : SimdVariant) (val : BitVec 32) (data : Nat → BitVec 32) (nitems : Nat) : Bool :=
  match variant with
  | neon =>
    match searchLoop 4 nitems (fun i => vmaxvqU32 (vceqq 32 4 (vld1q 4 data i) (vdupq 4 val)) != 0) 0 with
    | none => true
    | some i => scalarLoop nitems (fun i => data i == val) i
  | _ => scalarLoop nitems (fun i => data i == val) 0

/-- `simd_int8_array_eq`. -/
def simdInt8ArrayEq (variant : SimdVariant) (val : BitVec 64) (data : Nat → BitVec 64) (nitems : Nat) : Bool :=
  match variant with
  | neon =>
    let cmp i := vceqq 64 2 (vld1q 2 data i) (vdupq 2 val)
    match searchLoop 2 nitems (fun i => lane 64 0 (cmp i) ||| lane 64 1 (cmp i) != 0) 0 with
    | none => true
    | some i => scalarLoop nitems (fun i => data i == val) i
  | _ => scalarLoop nitems (fun i => data i == val) 0

/-- The bytes that are whole, all of them set. -/
def fullBytesSet (variant : SimdVariant) (bits : Nat → BitVec 8) (fullBytes : Nat) : Bool :=
  match variant with
  | neon =>
    match searchLoop 16 fullBytes (fun i => vminvqU8 (vld1q 16 bits i) != 0xFF) 0 with
    | none => false
    | some i => !scalarLoop fullBytes (fun i => bits i != 0xFF) i
  | _ => !scalarLoop fullBytes (fun i => bits i != 0xFF) 0

/-- `simd_nullbitmap_all_notnull`. -/
def simdNullbitmapAllNotnull (variant : SimdVariant) (bits : Nat → BitVec 8) (ncols : Nat) : Bool :=
  let fullBytes := ncols >>> 3
  let trailing := ncols &&& 7
  if variant.fullBytesSet bits fullBytes = false then false
  else if trailing ≠ 0 then
    let mask := BitVec.ofNat 8 ((1 <<< trailing) - 1)
    bits fullBytes &&& mask == mask
  else true

/-! ## Extraction -/

/-- `*(int32 *)`. -/
def int32At (tupdata : Nat → BitVec 8) (off : Nat) : BitVec 32 := ofLanes 32 8 4 fun j => tupdata (off + j)

/-- The loop over single elements. -/
def extractLoop (tupdata : Nat → BitVec 8) (count i : Nat) (values : Nat → BitVec 64) : Option (Nat × (Nat → BitVec 64)) :=
  forStrided 1 count (fun i values => some (Function.update values i ((int32At tupdata (i * 4)).signExtend 64))) i values

/-- One turn of the vector loop, with its stride; the plain variant has none. -/
def extractBody : SimdVariant → (Nat → BitVec 8) → Option (Nat × (Nat → (Nat → BitVec 64) → Nat → BitVec 64))
  | neon, tupdata => some (4, fun i values =>
      let v := loadu tupdata (i * 4)
      let lo := vmovlS32 (lane 64 0 v)
      let hi := vmovlS32 (lane 64 1 v)
      storeu (storeu values i lo) (i + 2) hi)
  | sse41, tupdata => some (4, fun i values =>
      let v := loadu tupdata (i * 4)
      let lo := cvtepi32Epi64 v
      let hi := cvtepi32Epi64 (srliSi128 v)
      storeu (storeu values i lo) (i + 2) hi)
  | sse2, tupdata => some (2, fun i values =>
      let v := loadl tupdata (i * 4)
      storeu values i (unpackloEpi32 v (sraiEpi32 v)))
  | plain, _ => none

/-- `simd_extract_int32_values`. -/
def simdExtractInt32Values (variant : SimdVariant) (tupdata : Nat → BitVec 8) (values : Nat → BitVec 64) (count : Nat) :
    Option (Nat → BitVec 64) :=
  match variant.extractBody tupdata with
  | none => (extractLoop tupdata count 0 values).map Prod.snd
  | some (stride, body) =>
    (forStrided stride count (fun i values => some (body i values)) 0 values).bind fun (i, values) =>
      (extractLoop tupdata count i values).map Prod.snd

end SimdVariant

end PgJitter
