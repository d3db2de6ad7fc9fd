import Mathlib.Data.BitVec
import PgJitter.Expr
import PgJitter.Lib.Layout

/-!
# Deforming heap tuples

A heap tuple stores its non-null attributes one after the other, each at its alignment, behind a bitmap of the attributes that
are not null. To deform it is to set the `tts_values` and `tts_isnull` entries of a slot, from the attribute at which an earlier
deform stopped (`tts_nvalid`, with the offset it had reached). This module has the tuple and the slot, what a column holds, the
unrolled code of `pg_jitter_compile_deform` and the inline code of `sljit_emit_deform_inline`, which are emitted alike.

The bytes are little-endian. The emitted code loads a byte with its sign; whether `fetch_att` does is up to the platform's `char`.
-/

namespace PgJitter

open Layout

/-! ## Descriptors, tuples and slots -/

/-- What the checks of `CREATE TYPE` leave of the length, the passing and the alignment of a type: a value passed in a word has
the length of a machine type and is aligned to it; a varlena (-1) is aligned to 4 or 8, a cstring (-2) to 1. -/
def TypeValid (attlen : Int) (attbyval : Bool) (attalignby : Nat) : Prop :=
  (attbyval = true ∧ attlen ∈ [1, 2, 4, 8] ∧ (attalignby : Int) = attlen) ∨
    (attbyval = false ∧ ((0 < attlen ∧ attalignby ∈ [1, 2, 4, 8]) ∨ (attlen = -1 ∧ attalignby ∈ [4, 8]) ∨
      (attlen = -2 ∧ attalignby = 1)))

instance (attlen : Int) (attbyval : Bool) (attalignby : Nat) : Decidable (TypeValid attlen attbyval attalignby) :=
  inferInstanceAs (Decidable (_ ∨ _))

/-- The storage of `int4`, and of the types of one word. -/
theorem typeValid_int4 : TypeValid 4 true 4 := by decide

theorem typeValid_int8 : TypeValid 8 true 8 := by decide

/-- `CompactAttribute`: `attnotnull` is `JITTER_ATT_IS_NOTNULL`, a NOT NULL constraint known to hold. -/
structure CompactAttribute where
  attlen : Int
  attbyval : Bool
  attalignby : Nat
  attnotnull : Bool
  atthasmissing : Bool
  attisdropped : Bool
  valid : TypeValid attlen attbyval attalignby

/-- A tuple descriptor: its attributes, and the values (`constr->missing`) of those that a tuple stored before the column was
added does not have; `none` is a null. -/
structure TupleDesc where
  natts : Nat
  att : Nat → CompactAttribute
  missing : Nat → Option Datum

/-- A heap tuple: the number of attributes it stores, whether it has a null bitmap, the bytes from the bitmap on, the data from
`t_hoff` on, and the address of that data. -/
structure HeapTuple where
  natts : Nat
  hasnulls : Bool
  tBits : Nat → BitVec 8
  data : List (BitVec 8)
  addr : Datum

/-- `TupleTableSlotOps`. -/
inductive TupleTableSlotOps where
  | virtual
  | heapTuple
  | bufferHeapTuple
  | minimalTuple
  | other
  deriving DecidableEq, Repr

/-- A slot that holds a heap tuple; `slow` is `TTS_FLAG_SLOW`. -/
structure TupleTableSlot where
  nvalid : Nat
  off : Nat
  values : Nat → Datum
  isnull : Nat → Bool
  slow : Bool

/-- A column of a slot. -/
def TupleTableSlot.column (slot : TupleTableSlot) (k : Nat) : NullableDatum := ⟨slot.values k, slot.isnull k⟩

/-- `slot_getmissingattrs`: the columns from `startAttNum` to before `lastAttNum` get their missing values. -/
def slotGetmissingattrs (desc : TupleDesc) (slot : TupleTableSlot) (startAttNum lastAttNum : Nat) : TupleTableSlot :=
  { slot with
    values := fill (fun k => (desc.missing k).getD 0) slot.values startAttNum lastAttNum
    isnull := fill (fun k => (desc.missing k).isNone) slot.isnull startAttNum lastAttNum }

/-! ## Reading a tuple -/

namespace HeapTuple

variable (t : HeapTuple)

/-- `att_isnull`: there is a bitmap, and the bit of the attribute is clear. -/
def attIsnull (attnum : Nat) : Bool := t.hasnulls && !(t.tBits (attnum / 8)).getLsbD (attnum % 8)

/-- A byte of the data. -/
def byte (off : Nat) : BitVec 8 := t.data.getD off 0

/-- The unsigned number in `w` bytes. -/
def leNat (off : Nat) : Nat → Nat
  | 0 => 0
  | w + 1 => (t.byte off).toNat + 256 * leNat (off + 1) w

/-- The load of `w` bytes with sign extension that is emitted. -/
def load (off w : Nat) : Datum := (BitVec.ofNat (8 * w) (t.leNat off w)).signExtend 64

/-- A pointer into the data. -/
def pointer (off : Nat) : Datum := t.addr + BitVec.ofNat 64 off

/-- `VARTAG_SIZE`. -/
def vartagSize (tag : Nat) : Nat := if tag = 1 ∨ tag = 2 ∨ tag = 3 then 8 else if tag = 18 then 16 else 0

/-- `varsize_any`: a TOAST pointer, a short header, or a header of four bytes. -/
def varsizeAny (off : Nat) : Nat :=
  let b := (t.byte off).toNat
  if b = 1 then 2 + vartagSize (t.byte (off + 1)).toNat
  else if b % 2 = 1 then b / 2
  else t.leNat off 4 / 4

/-- `strlen`. -/
def strlen (off : Nat) : Nat := ((t.data.drop off).takeWhile (· != 0)).length

/-- `att_align_pointer`: a varlena whose first byte is not a padding byte is where it is. -/
def attAlignPointer (att : CompactAttribute) (off : Nat) : Nat :=
  if att.attlen = -1 ∧ t.byte off ≠ 0 then off else alignUp att.attalignby off

/-- `fetch_att`. -/
def fetchAtt (charIsSigned : Bool) (att : CompactAttribute) (off : Nat) : Datum :=
  if att.attbyval then
    fetchByval charIsSigned att.attlen.toNat (BitVec.ofNat (8 * att.attlen.toNat) (t.leNat off att.attlen.toNat))
  else t.pointer off

/-- `att_addlength_pointer`. -/
def attAddlengthPointer (att : CompactAttribute) (off : Nat) : Nat :=
  if 0 < att.attlen then off + att.attlen.toNat
  else if att.attlen = -1 then off + t.varsizeAny off
  else off + t.strlen off + 1

/-! ## What a column holds -/

variable (charIsSigned : Bool) (desc : TupleDesc)

/-- The offset after the first `k` attributes, which is where the deform of attribute `k` starts. -/
def offAfter : Nat → Nat
  | 0 => 0
  | k + 1 =>
    if t.attIsnull k then offAfter k
    else t.attAddlengthPointer (desc.att k) (t.attAlignPointer (desc.att k) (offAfter k))

/-- The value of a stored attribute: 0 when null. -/
def storedValue (k : Nat) : Datum :=
  if t.attIsnull k then 0 else t.fetchAtt charIsSigned (desc.att k) (t.attAlignPointer (desc.att k) (t.offAfter desc k))

/-- What the deform of PostgreSQL, attribute by attribute, gives for a column: a stored attribute, or its missing value. -/
def columnValue (k : Nat) : NullableDatum :=
  if k < t.natts then ⟨t.storedValue charIsSigned desc k, t.attIsnull k⟩
  else ⟨(desc.missing k).getD 0, (desc.missing k).isNone⟩

/-- Where the platform's `char` has no sign, the stored byte of a `char` column is one that a sign does not change. -/
def CharFits (k : Nat) : Prop :=
  charIsSigned = false → t.attIsnull k = false → (desc.att k).attbyval = true → (desc.att k).attlen = 1 →
    (t.byte (t.offAfter desc k)).msb = false

/-- That, of the stored columns that a deform up to `natts` sets. -/
def CharsFit (natts nvalid : Nat) : Prop := ∀ k, nvalid ≤ k → k < min natts t.natts → t.CharFits charIsSigned desc k

/-- A tuple of a relation with the descriptor: no stored NOT NULL attribute is null, and a NOT NULL column that has no missing
value, and is not dropped, is in every tuple. -/
structure Conforms (t : HeapTuple) (desc : TupleDesc) : Prop where
  notnull : ∀ k, k < t.natts → (desc.att k).attnotnull = true → t.attIsnull k = false
  guaranteed : ∀ k, (desc.att k).attnotnull = true → (desc.att k).atthasmissing = false → (desc.att k).attisdropped = false →
    k < desc.natts → k < t.natts

end HeapTuple

/-- A slot whose saved offset is that of its `tts_nvalid`. -/
def TupleTableSlot.Consistent (slot : TupleTableSlot) (t : HeapTuple) (desc : TupleDesc) : Prop :=
  slot.nvalid = 0 ∨ slot.off = t.offAfter desc (min slot.nvalid t.natts)

/-- A deform up to `natts` is right: the columns from `tts_nvalid` on are what they hold, and the slot is left consistent at
`natts`. -/
structure Deformed (charIsSigned : Bool) (t : HeapTuple) (desc : TupleDesc) (natts : Nat) (slot slot' : TupleTableSlot) :
    Prop where
  columns : ∀ k, slot.nvalid ≤ k → k < natts → slot'.column k = t.columnValue charIsSigned desc k
  nvalid : slot'.nvalid = natts
  off : slot'.off = t.offAfter desc (min natts t.natts)

/-! ## Unrolled code -/

/-- What the emitted code of a column does, in order. A check may leave the column, or the whole code. -/
inductive DeformInstr where
  /-- The offset of the first column. -/
  | resetOff
  /-- Out, when the tuple does not store the attribute. -/
  | availCheck (attnum : Nat)
  /-- When the attribute is null: store that, and go to the next column. -/
  | nullCheck (attnum : Nat)
  | alignIfLong (alignto : Nat)
  | align (alignto : Nat)
  | setOff (n : Nat)
  /-- A load of `w` bytes into the column. -/
  | storeValue (attnum w : Nat)
  /-- A pointer into the column. -/
  | storePointer (attnum : Nat)
  | addOff (n : Nat)
  | addVarsize
  | addStrlen
  deriving DecidableEq, Repr

/-- Where an instruction goes on. -/
inductive DeformFlow where
  | fall
  | nextColumn
  | out
  deriving DecidableEq, Repr

/-- The running offset and the arrays of the slot. -/
structure DeformState where
  off : Nat
  values : Nat → Datum
  isnull : Nat → Bool

/-- Store into a column. -/
def DeformState.store (s : DeformState) (attnum : Nat) (d : NullableDatum) : DeformState :=
  { s with values := Function.update s.values attnum d.value, isnull := Function.update s.isnull attnum d.isnull }

/-- Run an instruction. -/
def execDeformInstr (t : HeapTuple) (s : DeformState) : DeformInstr → DeformFlow × DeformState
  | .resetOff => (.fall, { s with off := 0 })
  | .availCheck attnum => (if t.natts ≤ attnum then .out else .fall, s)
  | .nullCheck attnum => if t.attIsnull attnum then (.nextColumn, s.store attnum ⟨0, true⟩) else (.fall, s)
  | .alignIfLong alignto => (.fall, if t.byte s.off ≠ 0 then s else { s with off := alignUp alignto s.off })
  | .align alignto => (.fall, { s with off := alignUp alignto s.off })
  | .setOff n => (.fall, { s with off := n })
  | .storeValue attnum w => (.fall, s.store attnum ⟨t.load s.off w, false⟩)
  | .storePointer attnum => (.fall, s.store attnum ⟨t.pointer s.off, false⟩)
  | .addOff n => (.fall, { s with off := s.off + n })
  | .addVarsize => (.fall, { s with off := s.off + t.varsizeAny s.off })
  | .addStrlen => (.fall, { s with off := s.off + (t.strlen s.off + 1) })

/-- Run the code of a column to its end or to its first jump. -/
def runColumn (t : HeapTuple) : List DeformInstr → DeformState → DeformFlow × DeformState
  | [], s => (.fall, s)
  | i :: is, s =>
    match execDeformInstr t s i with
    | (.fall, s) => runColumn t is s
    | r => r

/-- Run the code of the columns. -/
def runColumns (t : HeapTuple) : List (List DeformInstr) → DeformState → DeformState
  | [], s => s
  | c :: cs, s =>
    match runColumn t c s with
    | (.out, s) => s
    | (_, s) => runColumns t cs s

/-- What the compiler knows of the offset at which a column starts: `known_alignment` (`none` for -1) and
`attguaranteedalign`. -/
structure AlignState where
  known : Option Nat
  guaranteed : Bool
  deriving DecidableEq, Repr

/-- The last column that every tuple has, -1 when there is none. -/
def guaranteedColumnNumber (desc : TupleDesc) (natts : Nat) : Int :=
  (List.range natts).foldl
    (fun g k =>
      if (desc.att k).attnotnull && !(desc.att k).atthasmissing && !(desc.att k).attisdropped then (k : Int) else g) (-1)

/-- A column must be aligned at run time unless what is known is a multiple of its alignment. -/
def needsAlign (att : CompactAttribute) (known : Option Nat) : Bool :=
  decide (1 < att.attalignby) &&
    match known with
    | none => true
    | some n => n != alignUp att.attalignby n

/-- What is known after the null check and the alignment of a column. -/
def alignedState (att : CompactAttribute) (st : AlignState) : AlignState :=
  if needsAlign att st.known then
    ⟨st.known.map (alignUp att.attalignby), st.guaranteed && att.attnotnull && att.attlen != -1⟩
  else ⟨st.known, st.guaranteed && att.attnotnull⟩

/-- What is known where the next column starts, from what is known at the aligned column. -/
def nextState (att : CompactAttribute) (st : AlignState) : AlignState :=
  if att.attlen < 0 then ⟨none, false⟩
  else
    match att.attnotnull && st.guaranteed, st.known with
    | true, some n => ⟨some (n + att.attlen.toNat), st.guaranteed⟩
    | _, _ => if att.attnotnull && att.attlen.toNat % att.attalignby == 0 then ⟨some att.attalignby, false⟩ else ⟨none, false⟩

/-- The width of the load of a value passed in a word. -/
def movWidth (attlen : Int) : Option Nat := if attlen ∈ [1, 2, 4, 8] then some attlen.toNat else none

/-- The checks before a column. -/
def emitChecks (gcn : Int) (attnum : Nat) (att : CompactAttribute) : List DeformInstr :=
  (if attnum = 0 then [.resetOff] else []) ++ (if gcn < attnum then [.availCheck attnum] else []) ++
    (if att.attnotnull then [] else [.nullCheck attnum])

/-- The alignment of a column: at run time, or as a constant, or not at all. -/
def emitAlign (att : CompactAttribute) (st : AlignState) : List DeformInstr :=
  (if needsAlign att st.known then
      if att.attlen = -1 then [.alignIfLong att.attalignby] else [.align att.attalignby]
    else []) ++
    match alignedState att st with
    | ⟨some n, true⟩ => [.setOff n]
    | _ => []

/-- The load of a column. -/
def emitFetch (attnum : Nat) (att : CompactAttribute) : Option (List DeformInstr) :=
  if att.attbyval then (movWidth att.attlen).map fun w => [.storeValue attnum w] else some [.storePointer attnum]

/-- The step over a column, given what is known after it. -/
def emitAdvance (att : CompactAttribute) (next : AlignState) : List DeformInstr :=
  if 0 < att.attlen then
    match next with
    | ⟨some n, true⟩ => [.setOff n]
    | _ => [.addOff att.attlen.toNat]
  else if att.attlen = -1 then [.addVarsize]
  else [.addStrlen]

/-- The code of a column; `none` for a length that cannot be loaded. -/
def emitColumn (gcn : Int) (attnum : Nat) (att : CompactAttribute) (st : AlignState) : Option (List DeformInstr) :=
  (emitFetch attnum att).map fun fetch =>
    emitChecks gcn attnum att ++ emitAlign att st ++ fetch ++ emitAdvance att (nextState att (alignedState att st))

/-- The code of `n` columns from `attnum` on. -/
def emitColumns (desc : TupleDesc) (gcn : Int) : Nat → Nat → AlignState → Option (List (List DeformInstr))
  | _, 0, _ => some []
  | attnum, n + 1, st => do
    let c ← emitColumn gcn attnum (desc.att attnum) st
    let cs ← emitColumns desc gcn (attnum + 1) n (nextState (desc.att attnum) (alignedState (desc.att attnum) st))
    some (c :: cs)

/-- An emitted deform: the code of its columns, and whether it calls `slot_getmissingattrs` first. -/
structure DeformCode where
  natts : Nat
  missingCheck : Bool
  columns : List (List DeformInstr)
  deriving DecidableEq, Repr

/-- The prologue, the columns and the epilogue. -/
def emitDeform (desc : TupleDesc) (natts : Nat) : Option DeformCode :=
  (emitColumns desc (guaranteedColumnNumber desc natts) 0 natts ⟨some 0, true⟩).map fun columns =>
    { natts, missingCheck := decide (guaranteedColumnNumber desc natts < (natts : Int) - 1), columns }

/-- Run a deform: fetch the missing attributes, enter at the column `tts_nvalid`, and leave the slot at `natts`. -/
def DeformCode.run (code : DeformCode) (desc : TupleDesc) (t : HeapTuple) (slot : TupleTableSlot) : TupleTableSlot :=
  let slot := if code.missingCheck && decide (t.natts < code.natts) then slotGetmissingattrs desc slot t.natts code.natts else slot
  let s := runColumns t (code.columns.drop slot.nvalid) ⟨slot.off, slot.values, slot.isnull⟩
  { nvalid := code.natts, off := s.off, values := s.values, isnull := s.isnull, slow := true }

/-- The slots that hold a heap tuple. -/
def TupleTableSlotOps.holdsTuple (ops : TupleTableSlotOps) : Bool :=
  ops = .heapTuple || ops = .bufferHeapTuple || ops = .minimalTuple

/-- `pg_jitter_compile_deform`. -/
def pgJitterCompileDeform (desc : TupleDesc) (ops : TupleTableSlotOps) (natts : Nat) : Option DeformCode :=
  if ops.holdsTuple then
    if natts = 0 ∨ desc.natts < natts then none
    else emitDeform desc natts
  else none

/-- The limits on the number of columns that the machine sets. -/
structure DeformLimits where
  wideDeformLimit : Nat
  deformThreshold : Nat

/-- `sljit_emit_deform_inline`: not for wide tables, nor for the slots of minimal tuples. -/
def sljitEmitDeformInline (limits : DeformLimits) (desc : TupleDesc) (ops : TupleTableSlotOps) (natts : Nat) :
    Option DeformCode :=
  if ops.holdsTuple then
    if natts = 0 ∨ desc.natts < natts then none
    else if limits.wideDeformLimit < natts then none
    else if ((List.range natts).all fun k => (desc.att k).attnotnull) = false ∧ 64 ≤ natts then none
    else if limits.deformThreshold < natts then none
    else if ops = .minimalTuple then none
    else emitDeform desc natts
  else none

/-- The part of a FETCHSOME step that an inline deform is for: nothing to do when the slot has the columns. -/
def fetchsomeInline (code : DeformCode) (desc : TupleDesc) (t : HeapTuple) (lastVar : Nat) (slot : TupleTableSlot) :
    TupleTableSlot :=
  if lastVar ≤ slot.nvalid then slot else code.run desc t slot

end PgJitter
