import PgJitter.Deform
import PgJitter.HashedSaop
import PgJitter.Lib.ByteMemory
import PgJitter.Lib.Kleene
import PgJitter.SimdHelpers

/-!
# ANY and ALL over an array

`pg_jitter_scalararrayop_loop` (`src/pg_jitter_simd.c`): the elements of an array are read one after the other, through the null
bitmap if there is one, and compared with a scalar; an `= ANY` of an integer array without a bitmap is left to `simd_int4_array_eq`
or `simd_int8_array_eq`. What an array holds, and the answer in three-valued logic, are stated apart from the code.
-/

namespace PgJitter

open Layout

/-! ## Arrays and comparisons -/

/-- The three columns of `pg_type` that `get_typlenbyvalalign` reads, the alignment in bytes. -/
structure TypLenByValAlign where
  typlen : Int
  typbyval : Bool
  typalign : Nat

/-- The types of the database, as `CREATE TYPE` lets them be. -/
structure TypeCatalog where
  getTyplenbyvalalign : Nat → TypLenByValAlign
  valid : ∀ oid, TypeValid (getTyplenbyvalalign oid).typlen (getTyplenbyvalalign oid).typbyval (getTyplenbyvalalign oid).typalign

/-- An array: its dimensions, the type of its elements, the null bitmap if there is one, and the bytes from `ARR_DATA_PTR` on, with
their address, which is a multiple of every alignment. -/
structure ArrayDatum where
  dims : List Int
  elemtype : Nat
  nullBitmap : Option (Nat → BitVec 8)
  data : List (BitVec 8)
  addr : Datum

/-- `ArrayGetNItems`. -/
def arrayGetNItems (dims : List Int) : Int := if dims = [] then 0 else dims.prod

/-- A comparison function: the two for which there is a shortcut, or any other one. -/
inductive PGFunction where
  | int4eq
  | int8eq
  | other (f : NullableDatum → NullableDatum → NullableDatum)

/-- The call of a comparison function; `int4eq` and `int8eq` do not look at the null flags. -/
def PGFunction.call : PGFunction → NullableDatum → NullableDatum → NullableDatum
  | int4eq, a, b => ⟨boolGetDatum (a.value.setWidth 32 == b.value.setWidth 32), false⟩
  | int8eq, a, b => ⟨boolGetDatum (a.value == b.value), false⟩
  | other f, a, b => f a b

/-- The fields of `op->d.scalararrayop`, with what was looked up for `element_type`; 0 is `InvalidOid`. -/
structure ScalarArrayOp where
  elementType : Nat
  useOr : Bool
  typ : TypLenByValAlign
  fnAddr : PGFunction
  fnStrict : Bool

/-! ## The elements -/

namespace ArrayDatum

variable (arr : ArrayDatum)

/-- The data as that of a tuple: the macros that read an element are those that read an attribute. -/
def area : HeapTuple := ⟨0, false, fun _ => 0, arr.data, arr.addr⟩

/-- The data as an array of words of `w` bytes. -/
def words (w : Nat) (i : Nat) : BitVec (8 * w) := BitVec.ofNat (8 * w) (arr.area.leNat (w * i) w)

/-- `fetch_att`. -/
def fetchAtt (charIsSigned : Bool) (typ : TypLenByValAlign) (s : Nat) : Datum :=
  if typ.typbyval then
    fetchByval charIsSigned typ.typlen.toNat (BitVec.ofNat (8 * typ.typlen.toNat) (arr.area.leNat s typ.typlen.toNat))
  else arr.area.pointer s

/-- `att_addlength_pointer`. -/
def attAddlengthPointer (typ : TypLenByValAlign) (s : Nat) : Nat :=
  if 0 < typ.typlen then s + typ.typlen.toNat
  else if typ.typlen = -1 then s + arr.area.varsizeAny s
  else s + arr.area.strlen s + 1

end ArrayDatum

/-! ## The loop -/

/-- The variables of the loop: the byte and the bit of the null bitmap, the offset of the next element, and `resultnull`. -/
structure SaopLoopState where
  bitmap : Nat
  bitmask : Nat
  s : Nat
  resultnull : Bool

/-- The test `bitmap && (*bitmap & bitmask) == 0`. -/
def ArrayDatum.elementIsNull (arr : ArrayDatum) (st : SaopLoopState) : Bool :=
  match arr.nullBitmap with
  | none => false
  | some bits => ((bits st.bitmap).toNat &&& st.bitmask) == 0

/-- The move to the next bit of the null bitmap, at the end of a turn. -/
def ArrayDatum.nextBit (arr : ArrayDatum) (st : SaopLoopState) : SaopLoopState :=
  match arr.nullBitmap with
  | none => st
  | some _ =>
    let bitmask := st.bitmask <<< 1
    if bitmask = 0x100 then { st with bitmap := st.bitmap + 1, bitmask := 1 } else { st with bitmask := bitmask }

namespace ScalarArrayOp

variable (op : ScalarArrayOp)

/-- `args[1]` of a turn, with the offset of the element after it. -/
def fetchElement (charIsSigned : Bool) (arr : ArrayDatum) (st : SaopLoopState) : NullableDatum × Nat :=
  if arr.elementIsNull st then (⟨0, true⟩, st.s)
  else (⟨arr.fetchAtt charIsSigned op.typ st.s, false⟩, alignUp op.typ.typalign (arr.attAddlengthPointer op.typ st.s))

/-- The call of a turn: a strict function is not called for a null element. -/
def callElement (scalar elt : NullableDatum) : NullableDatum :=
  if elt.isnull && op.fnStrict then ⟨0, true⟩ else op.fnAddr.call scalar elt

/-- The loop over the elements, with the number of them that are left. -/
def elementLoop (charIsSigned : Bool) (arr : ArrayDatum) (scalar : NullableDatum) : Nat → SaopLoopState → NullableDatum
  | 0, st => ⟨boolGetDatum (!op.useOr), st.resultnull⟩
  | n + 1, st =>
    let elt := (op.fetchElement charIsSigned arr st).1
    let st := { st with s := (op.fetchElement charIsSigned arr st).2 }
    let this := op.callElement scalar elt
    if this.isnull then elementLoop charIsSigned arr scalar n (arr.nextBit { st with resultnull := true })
    else if op.useOr then
      if datumGetBool this.value then ⟨boolGetDatum true, false⟩ else elementLoop charIsSigned arr scalar n (arr.nextBit st)
    else if !datumGetBool this.value then ⟨boolGetDatum false, false⟩
    else elementLoop charIsSigned arr scalar n (arr.nextBit st)

/-- The generic path. -/
def generic (charIsSigned : Bool) (arr : ArrayDatum) (scalar : NullableDatum) (nitems : Nat) : NullableDatum :=
  op.elementLoop charIsSigned arr scalar nitems ⟨0, 1, 0, false⟩

/-- The shortcut for an integer array without nulls, where it is taken. -/
def shortcut (variant : SimdVariant) (arr : ArrayDatum) (scalar : Datum) (nitems : Nat) : Option Bool :=
  if arr.nullBitmap.isNone && op.typ.typbyval && op.useOr then
    match op.fnAddr with
    | .int4eq =>
      if op.typ.typlen = 4 then some (variant.simdInt4ArrayEq (scalar.setWidth 32) (arr.words 4) nitems) else none
    | .int8eq => if op.typ.typlen = 8 then some (variant.simdInt8ArrayEq scalar (arr.words 8) nitems) else none
    | .other _ => none
  else none

/-- The element type is looked up when it is not the one of the last call. -/
def cacheElementType (cat : TypeCatalog) (elemtype : Nat) : ScalarArrayOp :=
  if op.elementType ≠ elemtype then { op with elementType := elemtype, typ := cat.getTyplenbyvalalign elemtype } else op

/-- `pg_jitter_scalararrayop_loop`: the step afterwards, and what it leaves in `resvalue` and `resnull`, which had `res`. -/
def loop (cat : TypeCatalog) (variant : SimdVariant) (charIsSigned : Bool) (arr : ArrayDatum) (scalar res : NullableDatum) :
    ScalarArrayOp × NullableDatum :=
  let nitems := arrayGetNItems arr.dims
  if nitems ≤ 0 then (op, ⟨boolGetDatum (!op.useOr), false⟩)
  else if scalar.isnull && op.fnStrict then (op, { res with isnull := true })
  else
    let op := op.cacheElementType cat arr.elemtype
    match op.shortcut variant arr scalar.value nitems.toNat with
    | some found => (op, ⟨boolGetDatum found, false⟩)
    | none => (op, op.generic charIsSigned arr scalar nitems.toNat)

/-- What was looked up is of the type it is kept for. -/
def Consistent (cat : TypeCatalog) : Prop := op.elementType = 0 ∨ op.typ = cat.getTyplenbyvalalign op.elementType

end ScalarArrayOp

/-! ## What an array holds -/

/-- The bytes of a varlena: a TOAST pointer, or a value whose short or long header has its length. -/
def IsVarlena : List (BitVec 8) → Prop
  | [] => False
  | b :: bs =>
    if b = 1 then ∃ tag, bs.head? = some tag ∧ bs.length = 1 + HeapTuple.vartagSize tag.toNat
    else if b.toNat % 2 = 1 then b.toNat / 2 = bs.length + 1
    else 3 ≤ bs.length ∧ ByteMemory.leNat (b :: bs.take 3) / 4 = bs.length + 1

/-- The bytes of a cstring. -/
def IsCstring (bs : List (BitVec 8)) : Prop := ∃ cs, bs = cs ++ [0] ∧ 0 ∉ cs

namespace TypLenByValAlign

variable (typ : TypLenByValAlign)

/-- The bytes of a value of the type. -/
def Image (bs : List (BitVec 8)) : Prop :=
  if 0 < typ.typlen then (bs.length : Int) = typ.typlen else if typ.typlen = -1 then IsVarlena bs else IsCstring bs

/-- Where the elements of an array are: each at the alignment of the type, the nulls nowhere. -/
def place : Nat → List (Option (List (BitVec 8))) → List (Option (Nat × List (BitVec 8)))
  | _, [] => []
  | off, none :: elems => none :: place off elems
  | off, some bs :: elems => some (off, bs) :: place (alignUp typ.typalign (off + bs.length)) elems

end TypLenByValAlign

namespace ArrayDatum

variable (arr : ArrayDatum)

/-- Whether an element is null by the bitmap. -/
def nullAt (k : Nat) : Bool :=
  match arr.nullBitmap with
  | none => false
  | some bits => !(bits (k / 8)).getLsbD (k % 8)

/-- The elements of an array of the type: the nulls are those of the bitmap, and each other element is where it belongs. -/
structure Holds (typ : TypLenByValAlign) (elems : List (Option (List (BitVec 8)))) : Prop where
  elemtype : arr.elemtype ≠ 0
  nitems : arrayGetNItems arr.dims = elems.length
  null : ∀ k e, elems[k]? = some e → arr.nullAt k = e.isNone
  image : ∀ bs, some bs ∈ elems → typ.Image bs
  stored : ∀ off bs, some (off, bs) ∈ typ.place 0 elems → (arr.data.drop off).take bs.length = bs

/-- The argument that an element is passed as: the number its bytes stand for, or a pointer to them. -/
def argument (charIsSigned : Bool) (typ : TypLenByValAlign) : Option (Nat × List (BitVec 8)) → NullableDatum
  | none => ⟨0, true⟩
  | some (off, bs) =>
    ⟨if typ.typbyval then fetchByval charIsSigned bs.length (BitVec.ofNat (8 * bs.length) (ByteMemory.leNat bs))
      else arr.addr + BitVec.ofNat 64 off, false⟩

/-- The arguments that the elements are passed as. -/
def arguments (charIsSigned : Bool) (typ : TypLenByValAlign) (elems : List (Option (List (BitVec 8)))) : List NullableDatum :=
  (typ.place 0 elems).map (arr.argument charIsSigned typ)

end ArrayDatum

/-! ## The answer -/

/-- The comparison of the scalar with an element: of a strict function it is unknown when one of them is null. -/
def ScalarArrayOp.compare (op : ScalarArrayOp) (scalar elt : NullableDatum) : Option Bool :=
  if op.fnStrict && (scalar.isnull || elt.isnull) then none
  else if (op.fnAddr.call scalar elt).isnull then none
  else some (datumGetBool (op.fnAddr.call scalar elt).value)

/-- `scalar op ANY (elements)`, or `ALL` without `useOr`. -/
def ScalarArrayOp.sqlResult (op : ScalarArrayOp) (scalar : NullableDatum) (elts : List NullableDatum) : Option Bool :=
  if op.useOr then Kleene.anyOf (elts.map (op.compare scalar)) else Kleene.allOf (elts.map (op.compare scalar))

end PgJitter
