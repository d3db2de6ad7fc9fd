import PgJitter.Deform

/-!
# The loop-based deform

`pg_jitter_compile_deform_loop` emits one of several bodies, chosen by the descriptor: for a table whose columns all have the same
length and are passed in a word, a tight loop, with a loop that looks at the bitmap beside it when they may be null; for a wide
nullable table, a call of `deform_sparse_dispatch`; for code that is shared between processes, a loop over column descriptors; and
else a loop that dispatches each column to a handler of its kind. All bodies work on the arrays after the missing attributes were
set, and but for the call they end in one epilogue.
-/

namespace PgJitter

open Layout HeapTuple

/-! ## What the descriptor decides -/

/-- The bodies; `attlen` is the length that all columns have. -/
inductive DeformPath where
  | sparse
  | fast (attlen : Nat)
  | semiFast (attlen : Nat)
  | descriptors
  | dispatch
  deriving DecidableEq, Repr

/-- No column may be null. -/
def allNotnull (desc : TupleDesc) (natts : Nat) : Bool := (List.range natts).all fun k => (desc.att k).attnotnull

/-- All columns are passed in a word. -/
def allFixedByval (desc : TupleDesc) (natts : Nat) : Bool :=
  (List.range natts).all fun k => (desc.att k).attbyval && decide (0 < (desc.att k).attlen)

/-- All columns have the length of the first. -/
def uniformAttlen (desc : TupleDesc) (natts : Nat) : Bool :=
  (List.range natts).all fun k => (desc.att k).attlen == (desc.att 0).attlen

/-- The body for a descriptor; `genBuf` says that the code is for a shared buffer. -/
def deformPath (desc : TupleDesc) (natts : Nat) (genBuf : Bool) : DeformPath :=
  let uniform := allFixedByval desc natts && uniformAttlen desc natts && decide (0 < (desc.att 0).attlen)
  if !allNotnull desc natts && !genBuf && decide (64 ≤ natts) && !uniform then .sparse
  else if uniform && allNotnull desc natts then .fast (desc.att 0).attlen.toNat
  else if uniform then .semiFast (desc.att 0).attlen.toNat
  else if genBuf then .descriptors
  else .dispatch

/-- The emitted code: its body, whether it fetches the missing attributes first, and the kind of buffer. -/
structure DeformLoopCode where
  natts : Nat
  missingCheck : Bool
  genBuf : Bool
  path : DeformPath
  deriving DecidableEq, Repr

/-- `pg_jitter_compile_deform_loop`. -/
def pgJitterCompileDeformLoop (desc : TupleDesc) (ops : TupleTableSlotOps) (natts : Nat) (genBuf : Bool) :
    Option DeformLoopCode :=
  if ops.holdsTuple then
    if natts = 0 ∨ desc.natts < natts then none
    else
      some
        { natts, missingCheck := decide (guaranteedColumnNumber desc natts < (natts : Int) - 1), genBuf
          path := deformPath desc natts genBuf }
  else none

/-- The choice of `pg_jitter_compiled_deform_dispatch` between the loop and the unrolled code. -/
def deformDispatchUsesLoop (limits : DeformLimits) (desc : TupleDesc) (natts : Nat) : Bool :=
  decide (limits.deformThreshold < natts) || (decide (64 ≤ natts) && !allNotnull desc natts)

/-! ## Tight loops -/

/-- The vector unit: how many `int4` it widens at a time, for a run of a length. -/
structure VectorUnit where
  lanes : Nat → Nat
  lanes_pos : ∀ n, 0 < lanes n

variable (t : HeapTuple)

/-- `n` loads of `w` bytes in a row, into the columns from `attnum` on, one after the other. -/
def loadLoop (w : Nat) : Nat → Nat → Nat → (Nat → Datum) → Nat → Datum
  | 0, _, _, values => values
  | n + 1, off, attnum, values => loadLoop w n (off + w) (attnum + 1) (Function.update values attnum (t.load off w))

/-- `n` full vectors of `lanes` numbers, each loaded, widened and stored at once. -/
def vectorLoop (lanes : Nat) : Nat → Nat → Nat → (Nat → Datum) → Nat → Datum
  | 0, _, _, values => values
  | n + 1, off, attnum, values =>
    vectorLoop lanes n (off + 4 * lanes) (attnum + lanes)
      (fill (fun k => t.load (off + 4 * (k - attnum)) 4) values attnum (attnum + lanes))

/-- `emit_int4_to_datum_batch`: full vectors, and a scalar tail. -/
def int4ToDatumBatch (vu : VectorUnit) (count off attnum : Nat) (values : Nat → Datum) : Nat → Datum :=
  let lanes := vu.lanes count
  let full := count / lanes
  loadLoop t 4 (count % lanes) (off + 4 * (full * lanes)) (attnum + full * lanes) (vectorLoop t lanes full off attnum values)

/-- The columns of one length that are all stored and not null: clear the null flags up to `natts`, and load. -/
def uniformLoop (vu : VectorUnit) (attlen natts attnum : Nat) (s : DeformState) : DeformState :=
  let limit := min t.natts natts
  let isnull := fill (fun _ => false) s.isnull attnum natts
  if attlen = 4 then
    if limit ≤ attnum then { s with isnull }
    else
      { off := s.off + 4 * (limit - attnum), values := int4ToDatumBatch t vu (limit - attnum) s.off attnum s.values, isnull }
  else
    { off := s.off + attlen * (limit - attnum), values := loadLoop t attlen (limit - attnum) s.off attnum s.values, isnull }

/-- `simd_nullbitmap_all_notnull`: whether the first `ncols` bits of a bitmap are set. -/
def simdNullbitmapAllNotnull (bits : Nat → BitVec 8) (ncols : Nat) : Bool :=
  ((List.range (ncols / 8)).all fun i => bits i == 255) &&
    (ncols % 8 == 0 || bits (ncols / 8) &&& BitVec.ofNat 8 (2 ^ (ncols % 8) - 1) == BitVec.ofNat 8 (2 ^ (ncols % 8) - 1))

/-- The bit of an attribute in the bitmap. -/
def bitSet (attnum : Nat) : Bool := (t.tBits (attnum / 8)).getLsbD (attnum % 8)

/-- Run a step for `n` columns from `attnum` on. -/
def forColumns (step : Nat → DeformState → DeformState) : Nat → Nat → DeformState → DeformState
  | _, 0, s => s
  | attnum, n + 1, s => forColumns step (attnum + 1) n (step attnum s)

/-- A column of one length in a tuple with a bitmap. -/
def uniformNullStep (attlen attnum : Nat) (s : DeformState) : DeformState :=
  if bitSet t attnum then { s.store attnum ⟨t.load s.off attlen, false⟩ with off := s.off + attlen }
  else s.store attnum ⟨0, true⟩

/-! ## Loops over column descriptors -/

variable (charIsSigned : Bool) (desc : TupleDesc)

/-- A column that is not null, in `deform_sparse_dispatch`. -/
def sparseColumn (col : Nat) (s : DeformState) : DeformState :=
  let d := desc.att col
  let off :=
    if d.attlen = -1 then t.attAlignPointer d s.off
    else if 1 < d.attalignby then alignUp d.attalignby s.off
    else s.off
  { s.store col ⟨t.fetchAtt charIsSigned d off, false⟩ with off := t.attAddlengthPointer d off }

/-- A column by its bit in the bitmap. -/
def sparseBit (col : Nat) (s : DeformState) : DeformState :=
  if bitSet t col then sparseColumn t charIsSigned desc col s else s.store col ⟨0, true⟩

/-- The lowest bit that is set, of a byte that is not 0. -/
def ctz (bm : BitVec 8) : Nat := ((List.range 8).find? fun i => bm.getLsbD i).getD 8

/-- The columns of a byte whose bits are set, from the lowest bit on: take a bit, clear it. A byte has at most 8. -/
def sparseBits (base : Nat) : Nat → BitVec 8 → DeformState → DeformState
  | 0, _, s => s
  | n + 1, bm, s => if bm = 0 then s else sparseBits base n (bm &&& (bm - 1)) (sparseColumn t charIsSigned desc (base + ctz bm) s)

/-- The bytes of the bitmap from `bi` on: of a full one, first all columns are set to null. -/
def sparseBytes (limit : Nat) : Nat → Nat → DeformState → DeformState
  | _, 0, s => s
  | bi, n + 1, s =>
    let base := bi * 8
    if limit < base + 8 then forColumns (sparseBit t charIsSigned desc) base (limit - base) s
    else
      sparseBytes limit (bi + 1) n
        (sparseBits t charIsSigned desc base 8 (t.tBits bi)
          { s with
            values := fill (fun _ => 0) s.values base (base + 8)
            isnull := fill (fun _ => true) s.isnull base (base + 8) })

/-- `deform_sparse_dispatch`. -/
def deformSparseDispatch (slot : TupleTableSlot) (natts : Nat) : TupleTableSlot :=
  let slot := if t.natts < natts then slotGetmissingattrs desc slot t.natts natts else slot
  let attnum := slot.nvalid
  let s : DeformState := ⟨if attnum = 0 then 0 else slot.off, slot.values, slot.isnull⟩
  let limit := min natts t.natts
  let s :=
    if !t.hasnulls then forColumns (sparseColumn t charIsSigned desc) attnum (limit - attnum) s
    else
      let startByte := attnum / 8
      let nbytes := (limit + 7) / 8
      if 0 < attnum % 8 then
        let endCol := min (startByte * 8 + 8) limit
        let s := forColumns (sparseBit t charIsSigned desc) attnum (endCol - attnum) s
        sparseBytes t charIsSigned desc limit (startByte + 1) (nbytes - (startByte + 1)) s
      else sparseBytes t charIsSigned desc limit startByte (nbytes - startByte) s
  { nvalid := natts, off := s.off, values := s.values, isnull := s.isnull, slow := true }

/-- The visit of a column, by its bit in the bitmap: a null column is stored, and any other is aligned first. -/
def visitColumn (col : Nat) (s : DeformState) : DeformState :=
  if t.attIsnull col then s.store col ⟨0, true⟩
  else
    let off := t.attAlignPointer (desc.att col) s.off
    { s.store col ⟨t.fetchAtt charIsSigned (desc.att col) off, false⟩ with off := t.attAddlengthPointer (desc.att col) off }

/-- The reference that `deform_sparse_dispatch` is compared with: it visits the columns one by one. -/
def deformByColumn (slot : TupleTableSlot) (natts : Nat) : TupleTableSlot :=
  let slot := if t.natts < natts then slotGetmissingattrs desc slot t.natts natts else slot
  let s := forColumns (visitColumn t charIsSigned desc) slot.nvalid (min natts t.natts - slot.nvalid)
    ⟨if slot.nvalid = 0 then 0 else slot.off, slot.values, slot.isnull⟩
  { nvalid := natts, off := s.off, values := s.values, isnull := s.isnull, slow := true }

/-- A column of the loop over descriptors that shared code uses. -/
def descriptorStep (allNotnull : Bool) (attnum : Nat) (s : DeformState) : DeformState :=
  let d := desc.att attnum
  if !allNotnull && !d.attnotnull && t.hasnulls && !bitSet t attnum then s.store attnum ⟨0, true⟩
  else
    let off :=
      if d.attalignby ≤ 1 then s.off
      else if d.attlen = -1 ∧ t.byte s.off ≠ 0 then s.off
      else alignUp d.attalignby s.off
    let value :=
      if !d.attbyval then t.pointer off
      else if d.attlen = 1 then t.load off 1
      else if d.attlen = 2 then t.load off 2
      else if d.attlen = 4 then t.load off 4
      else t.load off 8
    let next :=
      if 0 < d.attlen then off + d.attlen.toNat
      else if d.attlen = -1 then off + t.varsizeAny off
      else off + (t.strlen off + 1)
    { s.store attnum ⟨value, false⟩ with off := next }

/-! ## The dispatch loop -/

/-- The handlers of the dispatch loop. -/
inductive DeformHandler where
  | bool
  | int2
  | int4
  | int8
  | varlena
  | cstring
  | generic
  deriving DecidableEq, Repr

/-- A dispatch byte: the handler, and the bit of a column that may be null. -/
structure DispatchByte where
  handler : DeformHandler
  nullable : Bool
  deriving DecidableEq, Repr

/-- The handler of an attribute. -/
def handlerOf (att : CompactAttribute) : DeformHandler :=
  if att.attbyval then
    if att.attlen = 1 then .bool
    else if att.attlen = 2 then .int2
    else if att.attlen = 4 then .int4
    else if att.attlen = 8 then .int8
    else .generic
  else if att.attlen = -1 then .varlena
  else if att.attlen = -2 then .cstring
  else .generic

/-- The dispatch array. -/
def dispatchByte (k : Nat) : DispatchByte := ⟨handlerOf (desc.att k), !(desc.att k).attnotnull⟩

/-- What the scan for batches has found: where the current run starts, how many columns are left of the run of a column (0 for
none), and whether there are runs of the two kinds. -/
structure BatchScan where
  runStart : Nat
  batchCount : Nat → Nat
  hasInt4Batch : Bool
  hasInt8Batch : Bool

/-- The counts of a run: at least 4 columns are left, and the count is a byte. -/
def runCounts (runStart runLen : Nat) (bc : Nat → Nat) : Nat → Nat :=
  fill (fun j => if 4 ≤ runStart + runLen - j then min (runStart + runLen - j) 255 else bc j) bc runStart (runStart + runLen)

/-- A step of the scan: at the end of a run of columns with the same byte, its counts. -/
def batchScanStep (natts : Nat) (b : BatchScan) (i : Nat) : BatchScan :=
  let d := dispatchByte desc b.runStart
  if i < natts ∧ dispatchByte desc i = d ∧ d.nullable = false then b
  else
    let runLen := i - b.runStart
    if d.handler = .int4 ∧ 4 ≤ runLen ∧ d.nullable = false then
      { b with batchCount := runCounts b.runStart runLen b.batchCount, hasInt4Batch := true, runStart := i }
    else if d.handler = .int8 ∧ 4 ≤ runLen ∧ d.nullable = false then
      { b with batchCount := runCounts b.runStart runLen b.batchCount, hasInt8Batch := true, runStart := i }
    else { b with runStart := i }

/-- The scan for batches, over the columns from the second on. -/
def batchScan (natts : Nat) : BatchScan :=
  (List.range natts).foldl (fun b i => batchScanStep desc natts b (i + 1)) ⟨0, fun _ => 0, false, false⟩

/-- The number of columns of the batch that a column starts, as its handler reads it; 0 for none. -/
def batchAt (natts attnum : Nat) : Nat :=
  match (dispatchByte desc attnum).handler with
  | .int4 => if (batchScan desc natts).hasInt4Batch then (batchScan desc natts).batchCount attnum else 0
  | .int8 => if (batchScan desc natts).hasInt8Batch then (batchScan desc natts).batchCount attnum else 0
  | _ => 0

/-- Store a value, leave the null flag, and go on with the next column. -/
def putColumn (attnum off : Nat) (value : Datum) (s : DeformState) : Nat × DeformState :=
  (1, { s with off := off, values := Function.update s.values attnum value })

/-- The null flags that a batch clears when columns may be null. -/
def clearBatch (allNotnull : Bool) (attnum count : Nat) (isnull : Nat → Bool) : Nat → Bool :=
  if allNotnull then isnull else fill (fun _ => false) isnull attnum (attnum + count)

/-- `DHANDLER_INT4`: the batch, or a column. -/
def int4Handler (vu : VectorUnit) (allNotnull : Bool) (count attnum : Nat) (s : DeformState) : Nat × DeformState :=
  let off := alignUp 4 s.off
  if count = 0 then putColumn attnum (off + 4) (t.load off 4) s
  else (count, ⟨off + 4 * count, int4ToDatumBatch t vu count off attnum s.values, clearBatch allNotnull attnum count s.isnull⟩)

/-- `DHANDLER_INT8`: a batch is copied. -/
def int8Handler (allNotnull : Bool) (count attnum : Nat) (s : DeformState) : Nat × DeformState :=
  let off := alignUp 8 s.off
  if count = 0 then putColumn attnum (off + 8) (t.load off 8) s
  else
    (count,
      { off := off + 8 * count
        values := fill (fun k => t.load (off + 8 * (k - attnum)) 8) s.values attnum (attnum + count)
        isnull := clearBatch allNotnull attnum count s.isnull })

/-- `DHANDLER_VARLENA`: a varlena that does not start here is aligned to 4. -/
def varlenaHandler (attnum : Nat) (s : DeformState) : Nat × DeformState :=
  let off := if t.byte s.off ≠ 0 then s.off else alignUp 4 s.off
  putColumn attnum (off + t.varsizeAny off) (t.pointer off) s

/-- `DHANDLER_GENERIC`, by the descriptor. -/
def genericHandler (attnum : Nat) (s : DeformState) : Nat × DeformState :=
  let d := desc.att attnum
  let off := if d.attalignby ≤ 1 then s.off else alignUp d.attalignby s.off
  let value :=
    if !d.attbyval then t.pointer off
    else if d.attlen = 1 then t.load off 1
    else if d.attlen = 2 then t.load off 2
    else if d.attlen = 4 then t.load off 4
    else t.load off 8
  putColumn attnum (off + d.attlen.toNat) value s

/-- Run the handler of a column. The first part of the result is the number of columns it took. -/
def runHandler (vu : VectorUnit) (natts attnum : Nat) (s : DeformState) : Nat × DeformState :=
  match (dispatchByte desc attnum).handler with
  | .bool => putColumn attnum (s.off + 1) (t.load s.off 1) s
  | .int2 => putColumn attnum (alignUp 2 s.off + 2) (t.load (alignUp 2 s.off) 2) s
  | .int4 => int4Handler t vu (allNotnull desc natts) (batchAt desc natts attnum) attnum s
  | .int8 => int8Handler t (allNotnull desc natts) (batchAt desc natts attnum) attnum s
  | .varlena => varlenaHandler t attnum s
  | .cstring => putColumn attnum (s.off + (t.strlen s.off + 1)) (t.pointer s.off) s
  | .generic => genericHandler t desc attnum s

/-- An iteration: eight columns whose byte of the bitmap is 0, or a null column, or a handler. -/
def dispatchStep (vu : VectorUnit) (natts limit : Nat) (hasnulls : Bool) (attnum : Nat) (s : DeformState) :
    Nat × DeformState :=
  let nullable := !allNotnull desc natts
  if nullable && decide (16 ≤ natts) && attnum % 8 == 0 && hasnulls && decide (attnum + 8 ≤ limit) &&
      t.tBits (attnum / 8) == 0 then
    (8, { s with
          values := fill (fun _ => 0) s.values attnum (attnum + 8)
          isnull := fill (fun _ => true) s.isnull attnum (attnum + 8) })
  else if nullable && hasnulls && !bitSet t attnum then (1, s.store attnum ⟨0, true⟩)
  else runHandler t desc vu natts attnum s

/-- A handler takes at least one column. -/
theorem runHandler_pos (vu : VectorUnit) (natts attnum : Nat) (s : DeformState) :
    0 < (runHandler t desc vu natts attnum s).1 := by
  unfold runHandler
  cases (dispatchByte desc attnum).handler with
  | int4 =>
    simp only [int4Handler]
    split
    · exact Nat.one_pos
    · rename_i h
      exact Nat.pos_of_ne_zero h
  | int8 =>
    simp only [int8Handler]
    split
    · exact Nat.one_pos
    · rename_i h
      exact Nat.pos_of_ne_zero h
  | bool | int2 | varlena | cstring | generic => exact Nat.one_pos

/-- An iteration takes at least one column. -/
theorem dispatchStep_pos (vu : VectorUnit) (natts limit : Nat) (hasnulls : Bool) (attnum : Nat) (s : DeformState) :
    0 < (dispatchStep t desc vu natts limit hasnulls attnum s).1 := by
  dsimp only [dispatchStep]
  split
  · exact Nat.succ_pos 7
  · split
    · exact Nat.one_pos
    · exact runHandler_pos t desc vu natts attnum s

/-- The dispatch loop. -/
def dispatchLoop (vu : VectorUnit) (natts limit : Nat) (hasnulls : Bool) (attnum : Nat) (s : DeformState) : DeformState :=
  if _h : limit ≤ attnum then s
  else
    have := dispatchStep_pos t desc vu natts limit hasnulls attnum s
    dispatchLoop vu natts limit hasnulls (attnum + (dispatchStep t desc vu natts limit hasnulls attnum s).1)
      (dispatchStep t desc vu natts limit hasnulls attnum s).2
termination_by limit - attnum

/-! ## The code -/

/-- The body of the code, on the arrays with the missing attributes; `none` stands for the call of `deform_sparse_dispatch`, which
returns on its own. -/
def runDeformPath (vu : VectorUnit) (code : DeformLoopCode) (attnum : Nat) (s : DeformState) : Option DeformState :=
  let limit := min t.natts code.natts
  match code.path with
  | .sparse => none
  | .fast attlen => some (uniformLoop t vu attlen code.natts attnum s)
  | .semiFast attlen =>
    if !t.hasnulls || simdNullbitmapAllNotnull t.tBits code.natts then some (uniformLoop t vu attlen code.natts attnum s)
    else if !code.genBuf && decide (64 ≤ code.natts) then none
    else some (forColumns (uniformNullStep t attlen) attnum (limit - attnum) s)
  | .descriptors => some (forColumns (descriptorStep t desc (allNotnull desc code.natts)) attnum (limit - attnum) s)
  | .dispatch =>
    let hasnulls := t.hasnulls && (allNotnull desc code.natts || !simdNullbitmapAllNotnull t.tBits code.natts)
    some (dispatchLoop t desc vu code.natts limit hasnulls attnum
      { s with isnull := fill (fun _ => false) s.isnull attnum code.natts })

/-- Run a deform. -/
def DeformLoopCode.run (code : DeformLoopCode) (vu : VectorUnit) (slot : TupleTableSlot) : TupleTableSlot :=
  let slot := if code.missingCheck && decide (t.natts < code.natts) then slotGetmissingattrs desc slot t.natts code.natts else slot
  match runDeformPath t desc vu code slot.nvalid ⟨if slot.nvalid = 0 then 0 else slot.off, slot.values, slot.isnull⟩ with
  | none => deformSparseDispatch t charIsSigned desc slot code.natts
  | some s => { nvalid := code.natts, off := s.off, values := s.values, isnull := s.isnull, slow := true }

/-! ## Where the code is right -/

/-- A null is never missing: the columns from `tts_nvalid` on that the tuple does not store have missing values. -/
def NoMissingNull (natts nvalid : Nat) : Prop :=
  ∀ k, nvalid ≤ k → t.natts ≤ k → k < natts → (desc.missing k).isSome = true

/-- To align to 4 is to align a varlena: where it is padded, its own alignment is no further. -/
def VarlenaFourAligned (k : Nat) : Prop :=
  t.attIsnull k = false → (desc.att k).attlen = -1 → t.byte (t.offAfter desc k) = 0 →
    alignUp 4 (t.offAfter desc k) = alignUp (desc.att k).attalignby (t.offAfter desc k)

/-- Where the columns end, when from `attnum` on they are taken batch by batch until the limit is reached. -/
def batchesEnd (natts limit attnum : Nat) : Nat :=
  if limit ≤ attnum then attnum else batchesEnd natts limit (attnum + max 1 (batchAt desc natts attnum))
termination_by limit - attnum

end PgJitter
