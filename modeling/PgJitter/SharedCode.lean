import PgJitter.DeformCache
import PgJitter.Lib.ByteMemory
import PgJitter.Lib.Layout

/-!
# Compiled code shared between processes

The segment of a parallel query: `pg_jitter_init_shared_dsm`, `pg_jitter_store_shared_code`, `pg_jitter_find_shared_code`
(`src/pg_jitter_common.c`), and the part of `pg_jitter_compile_shared_deform` and `pg_jitter_attach_shared_deform`
(`src/pg_jitter_deform_jit.c`) that writes and reads it. The header is a record; the rest of the segment is bytes, at offsets from
its start. The lock is held for the whole of a store and of a find, so these are single steps.
-/

namespace PgJitter

open ByteMemory Layout

/-! ## Layout of the segment -/

/-- `MAXALIGN`. -/
def maxAlign (n : Nat) : Nat := alignUp 8 n

/-- `SIZE_MAX`. -/
def sizeMax : Nat := 2 ^ 64 - 1

/-- `sizeof(SharedJitCompiledCode)`. -/
def sizeofSharedHeader : Nat := 88

/-- `offsetof(SharedJitCodeEntry, code_bytes)`. -/
def offsetofCodeBytes : Nat := 32

/-- `sizeof(DeformColDesc)`. -/
def sizeofDeformColDesc : Nat := 8

/-- `SharedJitCompiledCode`, but for its lock. -/
structure SharedHeader where
  numEntries : Nat
  capacity : Nat
  used : Nat
  deformAddr : BitVec 64
  deformPageSize : Nat
  deformUsedSize : Nat
  deformCodeSize : Nat
  deformDescOffset : Nat
  deformNatts : Nat
  deformAttrsHash : BitVec 32
  deformOpsKind : Option TupleTableSlotOps
  deformTdtypeid : Nat
  deformTdtypmod : Int
  deriving DecidableEq

/-- A segment. -/
structure SharedSegment where
  header : SharedHeader
  bytes : Nat → BitVec 8

/-- `pg_jitter.shared_code_max`, in KB, within the bounds that its definition gives. -/
structure SharedCodeMax where
  kb : Nat
  lower : 64 ≤ kb
  upper : kb ≤ 1048576

/-- `pg_jitter_init_shared_dsm`: a new segment is filled with zeros. -/
def initSharedDsm (max : SharedCodeMax) : SharedSegment where
  header :=
    { numEntries := 0, capacity := max.kb * 1024, used := maxAlign sizeofSharedHeader, deformAddr := 0#64, deformPageSize := 0
      deformUsedSize := 0, deformCodeSize := 0, deformDescOffset := 0, deformNatts := 0, deformAttrsHash := 0#32
      deformOpsKind := none, deformTdtypeid := 0, deformTdtypmod := 0 }
  bytes := fun _ => 0#8

/-! ## Entries -/

/-- What identifies the code of an expression. -/
structure SharedCodeKey where
  planNodeId : BitVec 32
  exprIndex : BitVec 32
  exprFingerprint : BitVec 64
  deriving DecidableEq, Repr

/-- What is stored: `SharedJitCodeEntry`, where `code_size` is the length of the code. -/
structure SharedJitCodeEntry where
  key : SharedCodeKey
  dylibRefAddr : BitVec 64
  code : List (BitVec 8)
  deriving DecidableEq, Repr

/-- The bytes of an entry: its fields one after the other, then the code. -/
def SharedJitCodeEntry.image (entry : SharedJitCodeEntry) : List (BitVec 8) :=
  leBytes 4 entry.key.planNodeId.toNat ++ leBytes 4 entry.key.exprIndex.toNat ++ leBytes 8 entry.key.exprFingerprint.toNat ++
    leBytes 8 entry.code.length ++ leBytes 8 entry.dylibRefAddr.toNat ++ entry.code

/-- `pg_jitter_store_shared_code`. -/
def storeSharedCode (s : SharedSegment) (entry : SharedJitCodeEntry) : SharedSegment × Bool :=
  let h := s.header
  if entry.code.length = 0 then (s, false)
  else if entry.code.length > sizeMax - offsetofCodeBytes then (s, false)
  else
    let entryPayload := offsetofCodeBytes + entry.code.length
    if entryPayload > sizeMax - 7 then (s, false)
    else
      let entrySize := maxAlign entryPayload
      if h.deformUsedSize > h.capacity then (s, false)
      else
        let usableCapacity := h.capacity - h.deformUsedSize
        if h.used > usableCapacity ∨ entrySize > usableCapacity - h.used then (s, false)
        else
          ({ header := { h with used := h.used + entrySize, numEntries := h.numEntries + 1 }
             bytes := write s.bytes h.used entry.image }, true)

/-! ## Finding an entry -/

/-- What a scan can complain of, in the order of the source's error codes. -/
inductive SharedCodeError where
  /-- invalid shared deform reservation -/
  | reservation (deformUsedSize capacity : Nat)
  /-- invalid shared code usage -/
  | usage (used usableCapacity : Nat)
  /-- shared code entry header overruns DSM -/
  | headerOverrun (offset usableCapacity index : Nat)
  /-- shared code entry size overflows -/
  | sizeOverflow (offset codeSize index : Nat)
  /-- shared code aligned entry size overflows -/
  | alignedOverflow (offset entryPayload index : Nat)
  /-- shared code entry overruns DSM -/
  | entryOverrun (offset entrySize usableCapacity index : Nat)
  deriving DecidableEq, Repr

/-- The code that was found: where its bytes are in the segment, how many there are, and the reference address. -/
structure FoundCode where
  codeBytes : Nat
  codeSize : Nat
  dylibRefAddr : BitVec 64
  deriving DecidableEq, Repr

/-- What a find gives: the code, or what was wrong, and the fingerprint of an entry that differed only in it. -/
structure FindResult where
  found : Option FoundCode
  error : Option SharedCodeError
  mismatchLeaderFp : Option (BitVec 64)
  deriving DecidableEq, Repr

/-- The key of the entry at an offset. -/
def entryKeyAt (bytes : Nat → BitVec 8) (offset : Nat) : SharedCodeKey where
  planNodeId := BitVec.ofNat 32 (leNat (read bytes offset 4))
  exprIndex := BitVec.ofNat 32 (leNat (read bytes (offset + 4) 4))
  exprFingerprint := BitVec.ofNat 64 (leNat (read bytes (offset + 8) 8))

/-- The `code_size` of the entry at an offset. -/
def entryCodeSizeAt (bytes : Nat → BitVec 8) (offset : Nat) : Nat := leNat (read bytes (offset + 16) 8)

/-- The `dylib_ref_addr` of the entry at an offset. -/
def entryRefAt (bytes : Nat → BitVec 8) (offset : Nat) : BitVec 64 := BitVec.ofNat 64 (leNat (read bytes (offset + 24) 8))

/-- The loop of `pg_jitter_find_shared_code`: `n` entries are left, `i` is the index of the next one. -/
def findLoop (bytes : Nat → BitVec 8) (usableCapacity : Nat) (key : SharedCodeKey) :
    (n i offset : Nat) → (mismatch : Option (BitVec 64)) → FindResult
  | 0, _, _, mismatch => ⟨none, none, mismatch⟩
  | n + 1, i, offset, mismatch =>
    if offset > usableCapacity ∨ offsetofCodeBytes > usableCapacity - offset then
      ⟨none, some (.headerOverrun offset usableCapacity i), mismatch⟩
    else
      let codeSize := entryCodeSizeAt bytes offset
      if codeSize > sizeMax - offsetofCodeBytes then ⟨none, some (.sizeOverflow offset codeSize i), mismatch⟩
      else
        let entryPayload := offsetofCodeBytes + codeSize
        if entryPayload > sizeMax - 7 then ⟨none, some (.alignedOverflow offset entryPayload i), mismatch⟩
        else
          let entrySize := maxAlign entryPayload
          if entrySize > usableCapacity - offset then
            ⟨none, some (.entryOverrun offset entrySize usableCapacity i), mismatch⟩
          else
            let entryKey := entryKeyAt bytes offset
            if entryKey = key then
              ⟨some ⟨offset + offsetofCodeBytes, codeSize, entryRefAt bytes offset⟩, none, mismatch⟩
            else
              let mismatch :=
                if entryKey.planNodeId = key.planNodeId ∧ entryKey.exprIndex = key.exprIndex ∧ mismatch.isNone then
                  some entryKey.exprFingerprint
                else mismatch
              findLoop bytes usableCapacity key n (i + 1) (offset + entrySize) mismatch

/-- `pg_jitter_find_shared_code`. -/
def findSharedCode (s : SharedSegment) (key : SharedCodeKey) : FindResult :=
  let h := s.header
  if h.deformUsedSize > h.capacity then ⟨none, some (.reservation h.deformUsedSize h.capacity), none⟩
  else
    let usableCapacity := h.capacity - h.deformUsedSize
    if h.used > usableCapacity then ⟨none, some (.usage h.used usableCapacity), none⟩
    else findLoop s.bytes usableCapacity key h.numEntries 0 (maxAlign sizeofSharedHeader) none

/-! ## The reservation at the end of the segment -/

/-- One call of `pg_jitter_compile_shared_deform`: its arguments, and what the compiler and the system give it. -/
structure ReserveCall where
  desc : DescriptorData
  ops : TupleTableSlotOps
  natts : Nat
  /-- The generated code. -/
  code : List (BitVec 8)
  /-- The descriptors of the columns, as bytes. -/
  descs : List (BitVec 8)
  /-- The size of the buffer that the code needs. -/
  codeBufferSize : Nat
  /-- The size of a page is `2 ^ pageShift`. -/
  pageShift : Nat
  /-- Where the page is mapped. -/
  pageAddr : BitVec 64
  /-- The first pass generates code. -/
  probeOk : Bool
  /-- A page can be mapped. -/
  mapOk : Bool
  /-- The second pass generates code of the same sizes. -/
  compileOk : Bool
  /-- The page can be made executable. -/
  protectOk : Bool
  /-- There is one descriptor for each column. -/
  descsLength : descs.length = sizeofDeformColDesc * natts
  /-- Only the descriptors of columns are compiled. -/
  nattsPos : 0 < natts
  /-- A mapping is not at the null pointer. -/
  pageAddrNe : pageAddr ≠ 0#64

/-- The size of the mapping: what is used of it, in whole pages. -/
def ReserveCall.totalSize (call : ReserveCall) : Nat :=
  alignUp (2 ^ call.pageShift) (maxAlign call.codeBufferSize + call.descs.length)

/-- `pg_jitter_compile_shared_deform`, as far as the segment goes. -/
def compileSharedDeform (hash : AttrsHash) (s : SharedSegment) (call : ReserveCall) : SharedSegment × Bool :=
  let h := s.header
  if h.deformAddr ≠ 0#64 then (s, false)
  else if sharedDeformSlotOpsKind call.ops = none then (s, false)
  else if call.probeOk = false ∨ call.code.length = 0 ∨ call.codeBufferSize = 0 ∨ call.code.length > call.codeBufferSize then
    (s, false)
  else
    let descOffset := maxAlign call.codeBufferSize
    let storedSize := call.code.length + call.descs.length
    if h.used + storedSize > h.capacity then (s, false)
    else if call.mapOk = false then (s, false)
    else if call.compileOk = false then (s, false)
    else if call.protectOk = false then (s, false)
    else
      let dsmDest := h.capacity - storedSize
      ({ header :=
           { h with
             deformAddr := call.pageAddr, deformPageSize := call.totalSize, deformUsedSize := storedSize
             deformCodeSize := call.code.length, deformDescOffset := descOffset, deformNatts := call.natts
             deformAttrsHash := hash (call.desc.attrs call.natts), deformOpsKind := sharedDeformSlotOpsKind call.ops
             deformTdtypeid := call.desc.tdtypeid, deformTdtypmod := call.desc.tdtypmod }
         bytes := write (write s.bytes dsmDest call.code) (dsmDest + call.code.length) call.descs }, true)

/-- What `pg_jitter_attach_shared_deform` does. -/
inductive AttachResult where
  /-- `false`, and nothing is mapped. -/
  | refused
  /-- `true`, as a shared function is there already. -/
  | already
  /-- `true`: a page of a size at an address, with what was copied into it. -/
  | attached (addr : BitVec 64) (size : Nat) (page : Nat → BitVec 8)

/-- `pg_jitter_attach_shared_deform`; a new page is filled with zeros. -/
def attachSharedDeform (s : SharedSegment) (already mapOk protectOk : Bool) : AttachResult :=
  let h := s.header
  if h.deformAddr = 0#64 then .refused
  else if h.deformNatts = 0 ∨ h.deformCodeSize = 0 ∨ h.deformUsedSize = 0 ∨ h.deformDescOffset < h.deformCodeSize ∨
      h.deformDescOffset > h.deformPageSize then .refused
  else
    let descSize := sizeofDeformColDesc * h.deformNatts
    if h.deformUsedSize ≠ h.deformCodeSize + descSize ∨ descSize > h.deformPageSize - h.deformDescOffset then .refused
    else if already then .already
    else if mapOk = false then .refused
    else if protectOk = false then .refused
    else
      let dsmSrc := h.capacity - h.deformUsedSize
      let page := write (fun _ => 0#8) 0 (read s.bytes dsmSrc h.deformCodeSize)
      .attached h.deformAddr h.deformPageSize
        (write page h.deformDescOffset (read s.bytes (dsmSrc + h.deformCodeSize) descSize))

/-! ## Histories -/

/-- The segments that some history leads to, with the stores that succeeded in it (where each went, and what it stored), and the
reservation. -/
inductive SharedHistory (max : SharedCodeMax) (hash : AttrsHash) :
    SharedSegment → List (Nat × SharedJitCodeEntry) → Option ReserveCall → Prop where
  | init : SharedHistory max hash (initSharedDsm max) [] none
  | stored {s t : SharedSegment} {stores : List (Nat × SharedJitCodeEntry)} {reserved : Option ReserveCall}
      (h : SharedHistory max hash s stores reserved) (entry : SharedJitCodeEntry) (ht : storeSharedCode s entry = (t, true)) :
      SharedHistory max hash t (stores ++ [(s.header.used, entry)]) reserved
  | storeRejected {s t : SharedSegment} {stores : List (Nat × SharedJitCodeEntry)} {reserved : Option ReserveCall}
      (h : SharedHistory max hash s stores reserved) (entry : SharedJitCodeEntry) (ht : storeSharedCode s entry = (t, false)) :
      SharedHistory max hash t stores reserved
  | reserved {s t : SharedSegment} {stores : List (Nat × SharedJitCodeEntry)} {reserved : Option ReserveCall}
      (h : SharedHistory max hash s stores reserved) (call : ReserveCall) (ht : compileSharedDeform hash s call = (t, true)) :
      SharedHistory max hash t stores (some call)
  | reserveRejected {s t : SharedSegment} {stores : List (Nat × SharedJitCodeEntry)} {reserved : Option ReserveCall}
      (h : SharedHistory max hash s stores reserved) (call : ReserveCall) (ht : compileSharedDeform hash s call = (t, false)) :
      SharedHistory max hash t stores reserved

/-- How many bytes of the segment a stored entry takes. -/
def SharedJitCodeEntry.size (entry : SharedJitCodeEntry) : Nat := maxAlign (offsetofCodeBytes + entry.code.length)

end PgJitter
