import PgJitter.Expr
import PgJitter.Lib.Assembly
import PgJitter.Lib.LinearProbing
import Mathlib.Logic.Function.Iterate

/-!
# IN lists

The code that `sljit_compile_expr` (`src/pg_jitter_sljit.c`) emits for `EEOP_HASHED_SCALARARRAYOP` with a constant array of a
by-value type. The constants are read through the null bitmap and sorted as signed words; then, by the length of the list and the
settings, the scalar is compared with them by SIMD chunks, by a comparison tree laid out as code, or by a probe of a hash table
(`src/pg_jitter_simd.c`).
-/

namespace PgJitter

open Assembly

/-! ## The constants -/

/-- The equality functions for which the constants are extracted, and any other one with the length of its type. -/
inductive EqFn where
  | int2eq
  | int4eq
  | int8eq
  | dateEq
  | timestampEq
  | timeEq
  | cashEq
  | booleq
  | chareq
  | oideq
  | other (typlen : Nat)
  deriving DecidableEq, Repr

namespace EqFn

/-- The length in bytes of the type that the function compares, which is also its alignment. -/
def typlen : EqFn → Nat
  | booleq | chareq => 1
  | int2eq => 2
  | int4eq | dateEq | oideq => 4
  | int8eq | timestampEq | timeEq | cashEq => 8
  | other n => n

/-- A value of the type (of a bool, the ones that are 0 or 1). -/
abbrev Value (fn : EqFn) := BitVec (8 * fn.typlen)

/-- `pg_jitter_in_raw_datum_bsearch_safe`. -/
def inRawDatumBsearchSafe : EqFn → Bool
  | other _ => false
  | _ => true

/-- `pg_jitter_in_int32_hash_safe`. -/
def inInt32HashSafe : EqFn → Bool
  | int2eq | int4eq | dateEq | chareq | oideq => true
  | _ => false

end EqFn

/-- `fetch_att` of a value of the type. -/
def fetchAtt (charIsSigned : Bool) (fn : EqFn) (v : fn.Value) : Datum := fetchByval charIsSigned fn.typlen v

/-- A constant array as the extraction reads it: the number of items, the null bitmap if there is one, and the item found at an
offset of the data area. -/
structure ArrayType (w : Nat) where
  nitems : Nat
  nullBitmap : Option (List UInt8)
  load : Nat → BitVec w

/-- `att_align_nominal` of an offset. -/
def attAlignNominal (s align : Nat) : Nat := (s + align - 1) / align * align

/-- The variables of the extraction loop: the byte and the bit of the null bitmap, the offset in the data area, the Datums and
`array_has_nulls`. -/
structure ExtractState where
  bitmap : Nat
  bitmask : Nat
  s : Nat
  vals : List Datum
  hasNulls : Bool

variable {fn : EqFn}

/-- The test `bitmap && (*bitmap & bitmask) == 0`. -/
def ArrayType.itemIsNull (arr : ArrayType (8 * fn.typlen)) (st : ExtractState) : Bool :=
  match arr.nullBitmap with
  | none => false
  | some bytes => ((bytes.getD st.bitmap 0).toNat &&& st.bitmask) == 0

/-- The move to the next bit of the null bitmap. -/
def ArrayType.nextBit (arr : ArrayType (8 * fn.typlen)) (st : ExtractState) : ExtractState :=
  match arr.nullBitmap with
  | none => st
  | some _ =>
    let bitmask := st.bitmask <<< 1
    if bitmask = 0x100 then { st with bitmap := st.bitmap + 1, bitmask := 1 } else { st with bitmask := bitmask }

/-- One turn of the extraction loop. -/
def ArrayType.extractStep (charIsSigned : Bool) (arr : ArrayType (8 * fn.typlen)) (st : ExtractState) : ExtractState :=
  arr.nextBit
    (if arr.itemIsNull st then { st with hasNulls := true }
    else
      { st with
        vals := st.vals ++ [fetchAtt charIsSigned fn (arr.load st.s)]
        s := attAlignNominal (st.s + fn.typlen) fn.typlen })

/-- The extraction loop. -/
def ArrayType.extract (charIsSigned : Bool) (arr : ArrayType (8 * fn.typlen)) : ExtractState :=
  (arr.extractStep charIsSigned)^[arr.nitems] ⟨0, 1, 0, [], false⟩

/-- `pg_jitter_sort_raw_datums`: by the order of signed words. -/
def sortRawDatums (vals : List Datum) : List Datum := vals.mergeSort fun a b => a.sle b

/-! ## The hash table -/

/-- A bit of the loop of `pg_jitter_crc32c_sw_raw`. -/
def crc32cBit (crc : BitVec 32) : BitVec 32 := (crc >>> 1) ^^^ (0x82F63B78 &&& (0 - (crc &&& 1)))

/-- `pg_jitter_crc32c_sw_raw`. -/
def crc32cSwRaw (crc : BitVec 32) (data : List (BitVec 8)) : BitVec 32 :=
  data.foldl (fun crc p => crc32cBit^[8] (crc ^^^ p.setWidth 32)) crc

/-- `crc32_hash_int4`, over the four bytes of the word in memory. -/
def crc32HashInt4 (val : BitVec 32) : BitVec 32 :=
  crc32cSwRaw 0xFFFFFFFF [val.setWidth 8, (val >>> 8).setWidth 8, (val >>> 16).setWidth 8, (val >>> 24).setWidth 8]

/-- `Crc32HashTable`. -/
structure Crc32HashTable where
  mask : Nat
  nitems : Nat
  hasNulls : Bool
  table : LinearProbing.Table (BitVec 32)

/-- The slot at which the search for a value starts. -/
def homeSlot (mask : Nat) (val : BitVec 32) : Nat := (crc32HashInt4 val).toNat &&& mask

/-- The slot after a slot. -/
def nextSlot (mask h : Nat) : Nat := (h + 1) &&& mask

/-- `INT_MAX`. -/
def intMax : Nat := 0x7fffffff

/-- The doubling of `table_size` up to `min_slots`; `none` for the error on overflow. -/
def growTable (minSlots : Nat) : Nat → Nat → Option Nat
  | 0, _ => none
  | fuel + 1, tableSize =>
    if tableSize < minSlots then
      if tableSize > intMax / 2 then none else growTable minSlots fuel (tableSize * 2)
    else some tableSize

/-- `crc32_hash_build_int4`; `none` where it raises an error. Doubling 16 thirty times passes `INT_MAX`. -/
def crc32HashBuildInt4 (vals : List (BitVec 32)) (hasNulls : Bool) : Option Crc32HashTable :=
  if vals.length = 0 ∨ vals.length > intMax / 2 then none
  else
    (growTable (vals.length * 2) 30 16).bind fun tableSize =>
      if tableSize > (0x3fffffff - 12) / 8 then none
      else
        let mask := tableSize - 1
        some ⟨mask, vals.length, hasNulls, LinearProbing.build tableSize (nextSlot mask) (homeSlot mask) vals⟩

/-- `crc32_hash_probe_int4`; `none` if no slot of a round decides the search. -/
def crc32HashProbeInt4 (val : BitVec 32) (ht : Crc32HashTable) : Option Bool :=
  LinearProbing.lookup (nextSlot ht.mask) ht.table val (ht.mask + 1) (homeSlot ht.mask val)

/-! ## The instructions -/

/-- The instructions that the emission uses, some of them two or three machine instructions long. `cmpArgIsnull` loads the null
flag of the scalar and compares it with zero; the `load` instructions put the scalar into `R0`, whole, its low half, or its low
half with the sign; a chunk is compared lane by lane with the low half of `R0`; `R1` is the slot index of a probe. -/
inductive SaopInstr where
  | cmpArgIsnull
  | loadScalar
  | loadScalar32
  | loadScalarS32
  | cmpEqual (imm : Datum)
  | cmpSigLess (imm : Datum)
  | jump
  | cmpChunk (lanes : List (BitVec 32))
  | crc32Index (mask : Nat)
  | cmpSlotUnoccupied (ht : Crc32HashTable)
  | cmpSlotValue (ht : Crc32HashTable)
  | nextIndex (mask : Nat)
  | callProbe (ht : Crc32HashTable)
  | movR0 (imm : Datum)
  | cmpR0NotZero
  | storeResvalueImm (imm : Datum)
  | storeResnull (b : Bool)

/-- The registers, and the location of the result. -/
structure SaopState where
  r0 : Datum
  r1 : Nat
  res : NullableDatum

/-- A conditional jump. -/
def jumpIf (c : Bool) (s : SaopState) : Outcome SaopState := if c then .jump s else .next s

/-- An instruction, with `args[0]` of the call. -/
def SaopInstr.exec (arg : NullableDatum) (i : SaopInstr) (s : SaopState) : Outcome SaopState :=
  match i with
  | cmpArgIsnull => jumpIf arg.isnull s
  | loadScalar => .next { s with r0 := arg.value }
  | loadScalar32 => .next { s with r0 := (arg.value.setWidth 32).setWidth 64 }
  | loadScalarS32 => .next { s with r0 := (arg.value.setWidth 32).signExtend 64 }
  | cmpEqual imm => jumpIf (s.r0 == imm) s
  | cmpSigLess imm => jumpIf (s.r0.slt imm) s
  | jump => .jump s
  | cmpChunk lanes => jumpIf (lanes.contains (s.r0.setWidth 32)) s
  | crc32Index mask => .next { s with r1 := homeSlot mask (s.r0.setWidth 32) }
  | cmpSlotUnoccupied ht => jumpIf (ht.table s.r1).isNone s
  | cmpSlotValue ht => jumpIf ((ht.table s.r1).any fun u => u.signExtend 64 == s.r0) s
  | nextIndex mask => .next { s with r1 := nextSlot mask s.r1 }
  | callProbe ht =>
    match crc32HashProbeInt4 (s.r0.setWidth 32) ht with
    | none => .halt
    | some b => .next { s with r0 := boolGetDatum b }
  | movR0 imm => .next { s with r0 := imm }
  | cmpR0NotZero => jumpIf (s.r0 != 0) s
  | storeResvalueImm imm => .next { s with res := { s.res with value := imm } }
  | storeResnull b => .next { s with res := { s.res with isnull := b } }

/-- The code of one operation. -/
abbrev SaopProgram := Program SaopInstr

/-! ## The emission -/

/-- What is stored when the scalar was found. -/
def foundResult (inclause : Bool) : NullableDatum := ⟨boolGetDatum inclause, false⟩

/-- What is stored when the scalar was not found. -/
def notFoundResult (inclause arrayHasNulls : Bool) : NullableDatum :=
  if arrayHasNulls then ⟨0, true⟩ else ⟨boolGetDatum (!inclause), false⟩

/-- Store a result. -/
def storeResult (r : NullableDatum) : List SaopInstr := [.storeResvalueImm r.value, .storeResnull r.isnull]

/-- The three paths at the end of the code, each with a jump to its end: two results, with the jumps that lead to them, and the
null for a null scalar. -/
def emitResults (P : SaopProgram) (first second : NullableDatum) (firstJumps secondJumps nullJumps : List Nat) : SaopProgram :=
  let P := P.setLabels firstJumps P.here
  let P := P.emit (storeResult first)
  let doneFirst := P.here
  let P := P.emit [.jump]
  let P := P.setLabels secondJumps P.here
  let P := P.emit (storeResult second)
  let doneSecond := P.here
  let P := P.emit [.jump]
  let P := P.setLabels nullJumps P.here
  let P := P.emit (storeResult ⟨0, true⟩)
  let doneNull := P.here
  let P := P.emit [.jump]
  P.setLabels [doneFirst, doneSecond, doneNull] P.here

/-- An entry of the work stack: a range of the sorted constants, and the jump that leads to its node. -/
structure WorkItem where
  lo : Int
  hi : Int
  entryJump : Option Nat

/-- The code of the tree so far, with `found_jumps` and `notfound_jumps`. -/
structure TreeState where
  prog : SaopProgram
  found : List Nat
  notfound : List Nat

/-- Emit an instruction whose jump is recorded as leading to the found path. -/
def TreeState.emitFound (st : TreeState) (i : SaopInstr) : TreeState :=
  { st with prog := st.prog.emit [i], found := st.found ++ [st.prog.here] }

/-- Emit a jump to the not-found path. -/
def TreeState.emitNotFound (st : TreeState) : TreeState :=
  { st with prog := st.prog.emit [.jump], notfound := st.notfound ++ [st.prog.here] }

/-- Emit the label of a node. -/
def TreeState.enter (st : TreeState) : Option Nat → TreeState
  | none => st
  | some j => { st with prog := st.prog.setLabel j st.prog.here }

/-- The median of a range. -/
def median (lo hi : Int) : Int := lo + (hi - lo) / 2

/-- A constant of the sorted list. -/
def valAt (sorted : List Datum) (k : Int) : Datum := sorted.getD k.toNat 0

/-- One turn of the loop over the work stack: the code of a node, and the ranges pushed, the last one first. -/
def emitNode (sorted : List Datum) (w : WorkItem) (st : TreeState) : TreeState × List WorkItem :=
  let st := st.enter w.entryJump
  if w.lo > w.hi then (st.emitNotFound, [])
  else if w.lo = w.hi then ((st.emitFound (.cmpEqual (valAt sorted w.lo))).emitNotFound, [])
  else
    let mid := median w.lo w.hi
    let st := st.emitFound (.cmpEqual (valAt sorted mid))
    ({ st with prog := st.prog.emit [.cmpSigLess (valAt sorted mid)] },
      [⟨mid + 1, w.hi, none⟩, ⟨w.lo, mid - 1, some st.prog.here⟩])

/-- The number of nodes of a range and of the empty ranges under it, at most. -/
def WorkItem.size (w : WorkItem) : Nat := 2 * (w.hi - w.lo + 1).toNat + 1

/-- The ranges pushed are smaller than the one popped. -/
theorem emitNode_size (sorted : List Datum) (w : WorkItem) (st : TreeState) :
    ((emitNode sorted w st).2.map WorkItem.size).sum < w.size := by
  simp only [emitNode]
  split
  · simp [WorkItem.size]
  · split
    · simp [WorkItem.size]
    · simp only [WorkItem.size, median, List.map_cons, List.map_nil, List.sum_cons, List.sum_nil]
      omega

/-- The loop over the work stack. -/
def emitTree (sorted : List Datum) : List WorkItem → TreeState → TreeState
  | [], st => st
  | w :: work, st => emitTree sorted ((emitNode sorted w st).2 ++ work) (emitNode sorted w st).1
termination_by work => (work.map WorkItem.size).sum
decreasing_by
  have := emitNode_size sorted w st
  simp only [List.map_append, List.sum_append, List.map_cons, List.sum_cons]
  omega

/-- The comparison tree. -/
def emitBsearch (inclause arrayHasNulls : Bool) (sorted : List Datum) : SaopProgram :=
  let P : SaopProgram := Program.empty.emit [.cmpArgIsnull, .loadScalar]
  let st := emitTree sorted [⟨0, sorted.length - 1, none⟩] ⟨P, [], []⟩
  emitResults st.prog (foundResult inclause) (notFoundResult inclause arrayHasNulls) st.found st.notfound [0]

/-- The search for a padding value that is not among the constants. -/
def padVal (vals : List (BitVec 32)) : Nat → BitVec 32 → BitVec 32
  | 0, bits => bits
  | fuel + 1, bits => if vals.contains bits then padVal vals fuel (bits + 0x9E3779B9) else bits

/-- The number of chunks: `padded_nvals / simd_lanes`. -/
def chunkCount (nvals lanes : Nat) : Nat := (nvals + lanes - 1) / lanes

/-- The constants with the padding that fills the last chunk. -/
def simdVals (vals : List (BitVec 32)) (lanes : Nat) : List (BitVec 32) :=
  vals ++ List.replicate (chunkCount vals.length lanes * lanes - vals.length)
    (padVal vals vals.length (vals.headD 0 ^^^ 0x80000000))

/-- The chunks of the constants. -/
def simdChunks (vals : List (BitVec 32)) (lanes : Nat) : List (List (BitVec 32)) :=
  (List.range (chunkCount vals.length lanes)).map fun chunk => ((simdVals vals lanes).drop (chunk * lanes)).take lanes

/-- The SIMD scan. -/
def emitSimd (inclause arrayHasNulls : Bool) (vals : List (BitVec 32)) (lanes : Nat) : SaopProgram :=
  let P : SaopProgram := Program.empty.emit [.cmpArgIsnull, .loadScalar32]
  let chunks := simdChunks vals lanes
  let foundJumps := (List.range chunks.length).map (P.here + ·)
  let P := P.emit (chunks.map .cmpChunk)
  emitResults P (notFoundResult inclause arrayHasNulls) (foundResult inclause) [] foundJumps [0]

/-- The inline probe: the index, the loop, and 0 or 1 in `R0`. -/
def emitProbe (P : SaopProgram) (ht : Crc32HashTable) : SaopProgram :=
  let P := P.emit [.crc32Index ht.mask]
  let lblProbe := P.here
  let P := P.emit [.cmpSlotUnoccupied ht, .cmpSlotValue ht, .nextIndex ht.mask, .jump]
  let P := P.setLabel (lblProbe + 3) lblProbe
  let P := P.setLabel lblProbe P.here
  let P := P.emit [.movR0 0, .jump]
  let P := P.setLabel (lblProbe + 1) P.here
  let P := P.emit [.movR0 1]
  P.setLabel (lblProbe + 5) P.here

/-- The hash probe, inline or by a call of the helper. -/
def emitCrc32 (inclause arrayHasNulls inline : Bool) (ht : Crc32HashTable) : SaopProgram :=
  let P : SaopProgram := Program.empty.emit [.cmpArgIsnull, .loadScalarS32]
  let P := if inline then emitProbe P ht else P.emit [.callProbe ht]
  let found := P.here
  let P := P.emit [.cmpR0NotZero]
  emitResults P (notFoundResult inclause arrayHasNulls) (foundResult inclause) [] [found] [0]

/-- The settings and the platform: `sljit_shared_code_mode`, `pg_jitter.in_hash`, `in_bsearch_max`, `in_simd_max`, whether the
equality function has a direct version, whether the CPU has SIMD and AVX2 instructions and CRC32C ones, and the signedness of
`char`. -/
structure SaopConfig where
  sharedCodeMode : Bool
  inHashCrc32 : Bool
  inBsearchMax : Nat
  inSimdMax : Nat
  hasDirectFn : Bool
  hasSimd : Bool
  hasAvx2 : Bool
  hasCrc32c : Bool
  charIsSigned : Bool

/-- `simd_lanes`. -/
def SaopConfig.simdLanes (cfg : SaopConfig) : Nat := if cfg.hasAvx2 then 8 else 4

/-- `simd_max_nvals`. -/
def SaopConfig.simdMaxNvals (cfg : SaopConfig) : Nat := min cfg.inSimdMax (if cfg.hasAvx2 then 64 else 32)

/-- `crc32_hash_enabled`. -/
def SaopConfig.crc32HashEnabled (cfg : SaopConfig) (fn : EqFn) : Bool :=
  !cfg.sharedCodeMode && cfg.inHashCrc32 && fn.inInt32HashSafe

/-- `in_extract_max`. -/
def SaopConfig.inExtractMax (cfg : SaopConfig) (fn : EqFn) : Nat :=
  if cfg.crc32HashEnabled fn then 16384 else cfg.inBsearchMax

/-- The three kinds of code. -/
inductive SaopStrategy where
  | simd
  | bsearch
  | crc32
  deriving DecidableEq, Repr

/-- The code for a constant array, with its kind, or `none` where the operation is left to `ExecEvalHashedScalarArrayOp` (or the
hash table cannot be built). -/
def emitHashedScalarArrayOp (cfg : SaopConfig) (inclause : Bool) (arr : ArrayType (8 * fn.typlen)) :
    Option (SaopStrategy × SaopProgram) :=
  if cfg.hasDirectFn ∧ fn.inRawDatumBsearchSafe ∧ 0 < arr.nitems ∧ arr.nitems ≤ cfg.inExtractMax fn then
    let ex := arr.extract cfg.charIsSigned
    let sorted := sortRawDatums ex.vals
    let vals32 := sorted.map fun d => d.setWidth 32
    let nvals := sorted.length
    if 0 < nvals ∧ cfg.sharedCodeMode = false ∧ nvals ≤ cfg.simdMaxNvals ∧ fn = .int4eq ∧ cfg.hasSimd then
      some (.simd, emitSimd inclause ex.hasNulls vals32 cfg.simdLanes)
    else if 0 < nvals ∧ nvals ≤ cfg.inBsearchMax then
      some (.bsearch, emitBsearch inclause ex.hasNulls sorted)
    else if 0 < nvals ∧ cfg.sharedCodeMode = false ∧ cfg.crc32HashEnabled fn then
      (crc32HashBuildInt4 vals32 ex.hasNulls).map fun ht =>
        (.crc32, emitCrc32 inclause ex.hasNulls cfg.hasCrc32c ht)
    else none
  else none

/-! ## What IN means -/

/-- The array holds the elements: the bit of each is set in the null bitmap exactly when it is not null, and the values of those
follow each other in the data area. -/
structure ArrayType.Holds (arr : ArrayType (8 * fn.typlen)) (elems : List (Option fn.Value)) : Prop where
  nitems_eq : arr.nitems = elems.length
  bit : ∀ bytes, arr.nullBitmap = some bytes → ∀ k e, elems[k]? = some e →
    (bytes.getD (k / 8) 0).toNat.testBit (k % 8) = e.isSome
  no_bitmap : arr.nullBitmap = none → ∀ e ∈ elems, e.isSome
  value : ∀ k v, elems[k]? = some (some v) → arr.load (((elems.take k).filterMap id).length * fn.typlen) = v

/-- `scalar IN (elems)`, or `NOT IN` without `inclause`, in three-valued logic. -/
def sqlIn {α : Type} [DecidableEq α] (inclause : Bool) (elems : List (Option α)) : Option α → Option Bool
  | none => none
  | some v => if some v ∈ elems then some inclause else if none ∈ elems then none else some (!inclause)

/-- The argument holds the value: null, or the value extended to a word with or without its sign. -/
def NullableDatum.Represents (arg : NullableDatum) : Option fn.Value → Prop
  | none => arg.isnull = true
  | some v => arg.isnull = false ∧ (arg.value = v.signExtend 64 ∨ arg.value = v.setWidth 64)

/-- The result holds a truth value. -/
def NullableDatum.IsTruth (r : NullableDatum) : Option Bool → Prop
  | none => r.isnull = true
  | some b => r = ⟨boolGetDatum b, false⟩

/-- The `k`-th value tried for the padding, when `bits` is the first. -/
def padCandidate (bits : BitVec 32) (k : Nat) : BitVec 32 := bits + BitVec.ofNat 32 k * 0x9E3779B9

/-- The code yields the truth value for the argument, from any registers. -/
def Yields (P : SaopProgram) (arg : NullableDatum) (truth : Option Bool) : Prop :=
  ∀ s, ∃ s', Runs (SaopInstr.exec arg) P (0, s) (P.here, s') ∧ s'.res.IsTruth truth

end PgJitter
