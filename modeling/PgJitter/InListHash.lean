import PgJitter.LikeClassify
import PgJitter.ScalarArrayOp

/-!
# The hash tables and the sorted array of IN lists

`crc32_hash_build_int4`, `text_hash_build` and their probes (`src/pg_jitter_simd.c`) over any hash function, with every loop of the
source given a number of turns that it must not exceed, and `text_hash_build_from_array`, which walks a constant array and feeds the
texts that it finds. Then `sorted_array_build_int4` and `sorted_array_probe_int4`, which search a sorted list without a table.
-/

namespace PgJitter

open Layout

/-- What a function does: it raises an error, it returns, or one of its loops has not ended in the turns that it is given. -/
inductive LoopResult (α : Type) where
  | raised
  | returned (a : α)
  | unended
  deriving DecidableEq

namespace LoopResult

variable {α β : Type}

/-- Go on with what is returned. -/
def bind : LoopResult α → (α → LoopResult β) → LoopResult β
  | raised, _ => raised
  | returned a, f => f a
  | unended, _ => unended

@[simp] theorem raised_bind (f : α → LoopResult β) : raised.bind f = raised := rfl

@[simp] theorem returned_bind (a : α) (f : α → LoopResult β) : (returned a).bind f = f a := rfl

@[simp] theorem unended_bind (f : α → LoopResult β) : unended.bind f = unended := rfl

/-- A loop that gives a result, or does not end. -/
def ofLoop : Option α → LoopResult α
  | some a => returned a
  | none => unended

@[simp] theorem ofLoop_some (a : α) : ofLoop (some a) = returned a := rfl

@[simp] theorem ofLoop_none : ofLoop (none : Option α) = unended := rfl

end LoopResult

/-! ## The size of a table -/

/-- The doubling of `table_size` up to `min_slots`, with the error on overflow. -/
def tableSizeLoop (minSlots : Nat) : Nat → Nat → LoopResult Nat
  | 0, _ => .unended
  | turns + 1, tableSize =>
    if tableSize < minSlots then
      if tableSize > intMax / 2 then .raised else tableSizeLoop minSlots turns (tableSize * 2)
    else .returned tableSize

/-- The number of slots for so many values, with the checks of the size and of the allocation. -/
def hashTableSize (headerSize slotSize nvals : Nat) : LoopResult Nat :=
  if nvals = 0 ∨ nvals > intMax / 2 then .raised
  else
    (tableSizeLoop (nvals * 2) 30 16).bind fun tableSize =>
      if tableSize > (maxAllocSize - headerSize) / slotSize then .raised else .returned tableSize

/-! ## Integers -/

/-- `crc32_hash_build_int4`: no search for a free slot looks at a slot twice. -/
def crc32HashBuild (hash : BitVec 32 → BitVec 32) (vals : List (BitVec 32)) (hasNulls : Bool) : LoopResult Crc32HashTable :=
  (hashTableSize 12 8 vals.length).bind fun tableSize =>
    let mask := tableSize - 1
    (LoopResult.ofLoop (LinearProbing.tryBuild tableSize (nextSlot mask) (fun val => (hash val).toNat &&& mask) vals)).bind fun table =>
      .returned ⟨mask, vals.length, hasNulls, table⟩

/-- `crc32_hash_probe_int4`. -/
def crc32HashProbe (hash : BitVec 32 → BitVec 32) (val : BitVec 32) (ht : Crc32HashTable) : LoopResult Bool :=
  .ofLoop (LinearProbing.lookup (nextSlot ht.mask) ht.table val (ht.mask + 1) ((hash val).toNat &&& ht.mask))

/-! ## Texts -/

/-- `TextHashEntry`; a hash of 0 marks an empty entry. -/
structure TextHashEntry where
  hash : BitVec 32
  len : Nat
  data : List Byte

/-- `TextHashTable`. -/
structure TextHashTable where
  mask : Nat
  nitems : Nat
  hasNulls : Bool
  entries : Nat → TextHashEntry

/-- `text_hybrid_hash`, which is never 0; the hash is CRC32C for short strings and `sz_hash` for longer ones. -/
def textHybridHash (hash : List Byte → BitVec 32) (data : List Byte) : BitVec 32 := hash data ||| 1

/-- The search for an empty entry. -/
def emptyEntryLoop (mask : Nat) (entries : Nat → TextHashEntry) : Nat → Nat → Option Nat
  | 0, _ => none
  | turns + 1, idx => if (entries idx).hash ≠ 0 then emptyEntryLoop mask entries turns (nextSlot mask idx) else some idx

/-- One turn of the loop of `text_hash_build`. -/
def textHashInsert (hash : List Byte → BitVec 32) (mask : Nat) (entries : Nat → TextHashEntry) (src : List Byte) :
    Option (Nat → TextHashEntry) :=
  let h := textHybridHash hash src
  (emptyEntryLoop mask entries (mask + 1) (h.toNat &&& mask)).map fun idx =>
    Function.update entries idx ⟨h, src.length, src⟩

/-- `text_hash_build`; `bytes` is the payload of the text at a Datum. -/
def textHashBuild (hash : List Byte → BitVec 32) (bytes : Datum → List Byte) (textDatums : List Datum) (hasNulls : Bool) :
    LoopResult TextHashTable :=
  (hashTableSize 16 16 textDatums.length).bind fun tableSize =>
    let mask := tableSize - 1
    (LoopResult.ofLoop ((textDatums.map bytes).foldlM (textHashInsert hash mask) fun _ => ⟨0, 0, []⟩)).bind fun entries =>
      .returned ⟨mask, textDatums.length, hasNulls, entries⟩

/-- The loop of `text_hash_probe`. -/
def textProbeLoop (sz : StringZilla) (mask : Nat) (entries : Nat → TextHashEntry) (h : BitVec 32) (data : List Byte) :
    Nat → Nat → Option Bool
  | 0, _ => none
  | turns + 1, idx =>
    let e := entries idx
    if e.hash = 0 then some false
    else if e.hash = h && e.len = data.length && sz.equal data (e.data.take data.length) then some true
    else textProbeLoop sz mask entries h data turns (nextSlot mask idx)

/-- `text_hash_probe`. -/
def textHashProbe (sz : StringZilla) (hash : List Byte → BitVec 32) (bytes : Datum → List Byte) (datum : Datum) (ht : TextHashTable) :
    LoopResult Bool :=
  let data := bytes datum
  let h := textHybridHash hash data
  .ofLoop (textProbeLoop sz ht.mask ht.entries h data (ht.mask + 1) (h.toNat &&& ht.mask))

/-! ## The walk over an array -/

/-- `TEXTOID`. -/
def textOid : Nat := 25

/-- The longest array that is walked. -/
def maxTextItems : Int := 16384

/-- The loop of `text_hash_build_from_array`: `text_vals`, and `has_nulls`, which `resultnull` holds here. -/
def textValsLoop (charIsSigned : Bool) (arr : ArrayDatum) (typ : TypLenByValAlign) : Nat → SaopLoopState → List Datum × Bool
  | 0, st => ([], st.resultnull)
  | n + 1, st =>
    if arr.elementIsNull st then textValsLoop charIsSigned arr typ n (arr.nextBit { st with resultnull := true })
    else
      let rest := textValsLoop charIsSigned arr typ n
        (arr.nextBit { st with s := alignUp typ.typalign (arr.attAddlengthPointer typ st.s) })
      (arr.fetchAtt charIsSigned typ st.s :: rest.1, rest.2)

/-- `text_hash_build_from_array`: the table, if one is built, and `*has_nulls_out`. -/
def textHashBuildFromArray (hash : List Byte → BitVec 32) (bytes : Datum → List Byte) (cat : TypeCatalog) (saopEligible : Bool)
    (charIsSigned : Bool) (arr : ArrayDatum) : LoopResult (Option TextHashTable × Bool) :=
  if saopEligible = false then .returned (none, false)
  else
    let nitems := arrayGetNItems arr.dims
    let typ := cat.getTyplenbyvalalign arr.elemtype
    if typ.typbyval = false ∧ arr.elemtype = textOid ∧ 0 < nitems ∧ nitems ≤ maxTextItems then
      let walk := textValsLoop charIsSigned arr typ nitems.toNat ⟨0, 1, 0, false⟩
      if 0 < walk.1.length then
        (textHashBuild hash bytes walk.1 walk.2).bind fun ht => .returned (some ht, walk.2)
      else .returned (none, walk.2)
    else .returned (none, false)

/-- The Datums of the elements that are not null. -/
def textDatums (charIsSigned : Bool) (arr : ArrayDatum) (typ : TypLenByValAlign) (elems : List (Option (List (BitVec 8)))) :
    List Datum :=
  ((arr.arguments charIsSigned typ elems).filter fun arg => !arg.isnull).map NullableDatum.value

/-! ## What a table answers -/

/-- The probes of a table of integers end, and answer membership. -/
def Crc32HashTable.Answers (hash : BitVec 32 → BitVec 32) (ht : Crc32HashTable) (vals : List (BitVec 32)) : Prop :=
  ∀ val, ∃ found, crc32HashProbe hash val ht = .returned found ∧ (found = true ↔ val ∈ vals)

/-- The probes of a table of texts end, and answer membership of the payload. -/
def TextHashTable.Answers (sz : StringZilla) (hash : List Byte → BitVec 32) (bytes : Datum → List Byte) (ht : TextHashTable)
    (texts : List (List Byte)) : Prop :=
  ∀ datum, ∃ found, textHashProbe sz hash bytes datum ht = .returned found ∧ (found = true ↔ bytes datum ∈ texts)

/-! ## The sorted array -/

/-- `SortedInt32Array`; memory past the entries of `vals` is not of the array. -/
structure SortedInt32Array where
  nvals : Nat
  hasNulls : Bool
  vals : List (BitVec 32)

/-- Why a search gives no answer: it reads outside the array, or its loop has not ended in the turns that it is given. -/
inductive SearchFault where
  | outside
  | unended
  deriving DecidableEq

/-- `sa->vals[i]`. -/
def SortedInt32Array.entry (sa : SortedInt32Array) (i : Nat) : Except SearchFault (BitVec 32) :=
  match sa.vals[i]? with
  | some v => .ok v
  | none => .error .outside

/-- `sorted_array_build_int4`, once its memory is allocated. -/
def sortedArrayBuildInt4 (vals : List (BitVec 32)) (hasNulls : Bool) : SortedInt32Array := ⟨vals.length, hasNulls, vals⟩

/-- The loop of `sorted_array_probe_int4`: `base`, as an index of `vals`, and `n`. The prefetch reads nothing. -/
def sortedArrayProbeLoop (sa : SortedInt32Array) (val : BitVec 32) : Nat → Nat → Nat → Except SearchFault (Nat × Nat)
  | 0, _, _ => .error .unended
  | turns + 1, base, n =>
    if n > 1 then
      let half := n >>> 1
      (sa.entry (base + (half - 1))).bind fun v => sortedArrayProbeLoop sa val turns (base + (v.slt val).toNat * half) (n - half)
    else .ok (base, n)

/-- `sorted_array_probe_int4`, with so many turns of its loop. -/
def sortedArrayProbeInt4 (turns : Nat) (val : BitVec 32) (sa : SortedInt32Array) : Except SearchFault (BitVec 32) :=
  (sortedArrayProbeLoop sa val turns 0 sa.nvals).bind fun (base, n) =>
    if n > 0 then (sa.entry base).bind fun v => .ok (if v = val then 1 else 0) else .ok 0

end PgJitter
