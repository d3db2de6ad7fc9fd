import PgJitter.Lemmas.SharedCode

/-!
# The shared segment over whole histories

After any stores and reservations, a find gives the code of the first store with its key, the stored entries and the reserved
bytes do not meet, and a worker attaches to what the leader reserved.
-/

namespace PgJitter

open ByteMemory Layout SharedCodeAux

/-- What holds of a segment after a history: `stores` are the stores that succeeded, `reserved` the reservation. -/
structure SharedCodeRight (s : SharedSegment) (stores : List (Nat × SharedJitCodeEntry)) (reserved : Option ReserveCall) :
    Prop where
  /-- A find complains of nothing. -/
  noError : ∀ key, (findSharedCode s key).error = none
  /-- It finds code exactly for the keys that were stored. -/
  found : ∀ key, (findSharedCode s key).found.isSome = true ↔ ∃ x ∈ stores, x.2.key = key
  /-- And it finds the code, the size and the address of the first store. -/
  foundFirst : ∀ key fc, (findSharedCode s key).found = some fc → ∃ x, stores.find? (·.2.key = key) = some x ∧
    read s.bytes fc.codeBytes fc.codeSize = x.2.code ∧ fc.codeSize = x.2.code.length ∧ fc.dylibRefAddr = x.2.dylibRefAddr
  /-- The entries are where they were stored, behind the header and before the reserved bytes. -/
  entries : ∀ x ∈ stores, maxAlign sizeofSharedHeader ≤ x.1 ∧ x.1 + x.2.size ≤ s.header.capacity - s.header.deformUsedSize ∧
    read s.bytes x.1 x.2.image.length = x.2.image
  /-- They do not meet. -/
  disjoint : stores.Pairwise fun x y => x.1 + x.2.size ≤ y.1
  /-- The reserved bytes end with the segment. -/
  tail : ∀ call, reserved = some call → s.header.deformUsedSize = call.code.length + call.descs.length ∧
    s.header.deformUsedSize ≤ s.header.capacity
  /-- A worker that can map and protect the page reads the code and the descriptors back. -/
  attached : ∀ call, reserved = some call → ∃ page,
    attachSharedDeform s false true true = .attached call.pageAddr call.totalSize page ∧
      read page 0 call.code.length = call.code ∧
      read page (maxAlign call.codeBufferSize) call.descs.length = call.descs
  /-- The number of entries is an `int`, and stays one. -/
  count : s.header.numEntries < 2 ^ 31
  /-- A rejected store leaves everything as it was. -/
  rejected : ∀ entry, (storeSharedCode s entry).2 = false → (storeSharedCode s entry).1 = s

namespace SharedCodeAux

/-! ## The invariant -/

/-- What the header and the end of the segment hold of a reservation. -/
def Tail (s : SharedSegment) : Option ReserveCall → Prop
  | none => s.header.deformAddr = 0#64 ∧ s.header.deformUsedSize = 0
  | some call =>
    s.header.deformAddr = call.pageAddr ∧ s.header.deformPageSize = call.totalSize ∧
      s.header.deformUsedSize = call.code.length + call.descs.length ∧ s.header.deformCodeSize = call.code.length ∧
      s.header.deformDescOffset = maxAlign call.codeBufferSize ∧ s.header.deformNatts = call.natts ∧
      0 < call.code.length ∧ call.code.length ≤ call.codeBufferSize ∧
      read s.bytes (s.header.capacity - s.header.deformUsedSize) call.code.length = call.code ∧
      read s.bytes (s.header.capacity - s.header.deformUsedSize + call.code.length) call.descs.length = call.descs

/-- The entries are a chain up to `used`, and the reserved bytes lie behind it. -/
structure Packed (s : SharedSegment) (stores : List (Nat × SharedJitCodeEntry)) (reserved : Option ReserveCall) : Prop where
  count : s.header.numEntries = stores.length
  chain : Chain s.bytes (maxAlign sizeofSharedHeader) stores s.header.used
  capacity : s.header.capacity ≤ 2 ^ 30
  room : s.header.used + s.header.deformUsedSize ≤ s.header.capacity
  tail : Tail s reserved

/-- The empty segment. -/
theorem packed_init (max : SharedCodeMax) : Packed (initSharedDsm max) [] none where
  count := rfl
  chain := rfl
  capacity := by
    show max.kb * 1024 ≤ 2 ^ 30
    have := max.upper
    omega
  room := by
    show 88 + 0 ≤ max.kb * 1024
    have := max.lower
    omega
  tail := ⟨rfl, rfl⟩

/-- Bytes of a tail that a change does not touch. -/
theorem Tail.congr {s t : SharedSegment} {reserved : Option ReserveCall} (h : Tail s reserved)
    (hheader : t.header = { s.header with used := t.header.used, numEntries := t.header.numEntries })
    (hbytes : ∀ a, s.header.capacity - s.header.deformUsedSize ≤ a → t.bytes a = s.bytes a) : Tail t reserved := by
  cases reserved with
  | none =>
    unfold Tail at h ⊢
    rw [hheader]
    exact h
  | some call =>
    obtain ⟨haddr, hpage, hused, hcode, hoff, hnatts, hpos, hfits, hreadCode, hreadDescs⟩ := h
    unfold Tail
    rw [hheader]
    refine ⟨haddr, hpage, hused, hcode, hoff, hnatts, hpos, hfits, ?_, ?_⟩
    · exact (read_congr fun a hlo _ => hbytes a hlo).trans hreadCode
    · exact (read_congr fun a hlo _ => hbytes a ((Nat.le_add_right _ _).trans hlo)).trans hreadDescs

/-- What a store that succeeded did. -/
theorem store_cases {s t : SharedSegment} {entry : SharedJitCodeEntry} (h : storeSharedCode s entry = (t, true)) :
    Fits entry ∧ s.header.used + entry.size ≤ s.header.capacity - s.header.deformUsedSize ∧
      t = { header := { s.header with used := s.header.used + entry.size, numEntries := s.header.numEntries + 1 }
            bytes := write s.bytes s.header.used entry.image } := by
  unfold storeSharedCode at h
  dsimp only at h
  split at h
  · nomatch h
  rename_i hempty
  split at h
  · nomatch h
  split at h
  · nomatch h
  rename_i hpayload
  split at h
  · nomatch h
  split at h
  · nomatch h
  rename_i hroom
  obtain ⟨rfl, -⟩ := Prod.mk.inj h
  rw [not_or] at hroom
  have hmax : 7 ≤ sizeMax := by decide
  refine ⟨⟨Nat.pos_of_ne_zero hempty, by omega⟩, ?_, rfl⟩
  have hsize : maxAlign (offsetofCodeBytes + entry.code.length) = entry.size := rfl
  omega

/-- A store that is rejected changes nothing. -/
theorem store_rejected {s : SharedSegment} {entry : SharedJitCodeEntry} (h : (storeSharedCode s entry).2 = false) :
    (storeSharedCode s entry).1 = s := by
  unfold storeSharedCode at h ⊢
  dsimp only at h ⊢
  split
  · rfl
  split
  · rfl
  split
  · rfl
  split
  · rfl
  split
  · rfl
  · simp_all

/-- A store appends to the chain. -/
theorem Packed.store {s t : SharedSegment} {stores : List (Nat × SharedJitCodeEntry)} {reserved : Option ReserveCall}
    (h : Packed s stores reserved) {entry : SharedJitCodeEntry} (ht : storeSharedCode s entry = (t, true)) :
    Packed t (stores ++ [(s.header.used, entry)]) reserved := by
  obtain ⟨hfits, hroom, rfl⟩ := store_cases ht
  have hlen := length_image_le entry
  have hroom' := h.room
  refine ⟨?_, ?_, h.capacity, ?_, ?_⟩
  · show s.header.numEntries + 1 = _
    rw [h.count, List.length_append, List.length_singleton]
  · have hkept := h.chain.congr (fun a _ hhi => write_of_lt s.bytes entry.image hhi)
    exact hkept.snoc hfits (read_write s.bytes s.header.used entry.image)
  · show s.header.used + entry.size + s.header.deformUsedSize ≤ s.header.capacity
    omega
  · exact h.tail.congr rfl (fun a hlo => write_of_ge s.bytes entry.image (by omega))

/-- What a reservation that succeeded did. -/
theorem reserve_cases {hash : AttrsHash} {s t : SharedSegment} {call : ReserveCall}
    (h : compileSharedDeform hash s call = (t, true)) :
    0 < call.code.length ∧ call.code.length ≤ call.codeBufferSize ∧
      s.header.used + (call.code.length + call.descs.length) ≤ s.header.capacity ∧ s.header.deformAddr = 0#64 ∧
      t.header =
        { s.header with
          deformAddr := call.pageAddr, deformPageSize := call.totalSize
          deformUsedSize := call.code.length + call.descs.length, deformCodeSize := call.code.length
          deformDescOffset := maxAlign call.codeBufferSize, deformNatts := call.natts
          deformAttrsHash := hash (call.desc.attrs call.natts), deformOpsKind := sharedDeformSlotOpsKind call.ops
          deformTdtypeid := call.desc.tdtypeid, deformTdtypmod := call.desc.tdtypmod } ∧
      t.bytes = write (write s.bytes (s.header.capacity - (call.code.length + call.descs.length)) call.code)
        (s.header.capacity - (call.code.length + call.descs.length) + call.code.length) call.descs := by
  unfold compileSharedDeform at h
  dsimp only at h
  split at h
  · nomatch h
  rename_i haddr
  split at h
  · nomatch h
  split at h
  · nomatch h
  rename_i hcode
  split at h
  · nomatch h
  rename_i hroom
  split at h
  · nomatch h
  split at h
  · nomatch h
  split at h
  · nomatch h
  obtain ⟨rfl, -⟩ := Prod.mk.inj h
  simp only [not_or, not_not] at haddr hcode
  exact ⟨Nat.pos_of_ne_zero hcode.2.1, by omega, by omega, haddr, rfl, rfl⟩

/-- A reservation that is rejected changes nothing. -/
theorem reserve_rejected {hash : AttrsHash} {s t : SharedSegment} {call : ReserveCall}
    (h : compileSharedDeform hash s call = (t, false)) : t = s := by
  unfold compileSharedDeform at h
  dsimp only at h
  repeat' split at h
  all_goals
    obtain ⟨rfl, hfalse⟩ := Prod.mk.inj h
    first
      | rfl
      | nomatch hfalse

/-- A reservation takes from the end, behind the chain. -/
theorem Packed.reserve {hash : AttrsHash} {s t : SharedSegment} {stores : List (Nat × SharedJitCodeEntry)}
    {reserved : Option ReserveCall} (h : Packed s stores reserved) {call : ReserveCall}
    (ht : compileSharedDeform hash s call = (t, true)) : Packed t stores (some call) := by
  obtain ⟨hpos, hfits, hroom, -, hheader, hbytes⟩ := reserve_cases ht
  set dest := s.header.capacity - (call.code.length + call.descs.length) with hdest
  have hbelow : ∀ a, a < s.header.used → t.bytes a = s.bytes a := by
    intro a ha
    rw [hbytes, write_of_lt _ _ (by omega), write_of_lt _ _ (by omega)]
  refine ⟨?_, ?_, ?_, ?_, ?_⟩
  · rw [hheader]
    exact h.count
  · rw [hheader]
    exact h.chain.congr (fun a _ hhi => hbelow a hhi)
  · rw [hheader]
    exact h.capacity
  · rw [hheader]
    exact hroom
  · unfold Tail
    rw [hheader, hbytes]
    refine ⟨rfl, rfl, rfl, rfl, rfl, rfl, hpos, hfits, ?_, read_write _ _ _⟩
    show read _ dest call.code.length = call.code
    rw [read_write_of_disjoint _ _ (.inl le_rfl)]
    exact read_write _ _ _

/-- The invariant holds after every history. -/
theorem packed_history {max : SharedCodeMax} {hash : AttrsHash} {s : SharedSegment} {stores : List (Nat × SharedJitCodeEntry)}
    {reserved : Option ReserveCall} (h : SharedHistory max hash s stores reserved) : Packed s stores reserved := by
  induction h with
  | init => exact packed_init max
  | stored _ entry ht ih => exact ih.store ht
  | storeRejected _ entry ht ih =>
    have hsame := store_rejected (by rw [ht])
    rw [ht] at hsame
    obtain rfl := hsame
    exact ih
  | reserved _ call ht ih => exact ih.reserve ht
  | reserveRejected _ call ht ih =>
    obtain rfl := reserve_rejected ht
    exact ih

/-! ## Reading -/

/-- A find is the scan of the chain. -/
theorem Packed.find {s : SharedSegment} {stores : List (Nat × SharedJitCodeEntry)} {reserved : Option ReserveCall}
    (h : Packed s stores reserved) (key : SharedCodeKey) :
    (findSharedCode s key).error = none ∧ (findSharedCode s key).found =
      (stores.find? (·.2.key = key)).map fun x => ⟨x.1 + offsetofCodeBytes, x.2.code.length, x.2.dylibRefAddr⟩ := by
  have hroom := h.room
  have hlast : s.header.used ≤ s.header.capacity - s.header.deformUsedSize := by omega
  unfold findSharedCode
  dsimp only
  rw [if_neg (by omega), if_neg (by omega), h.count]
  exact findLoop_chain h.chain hlast key 0 none

/-- Attaching copies the code and the descriptors to their places in the page. -/
theorem Packed.attach {s : SharedSegment} {stores : List (Nat × SharedJitCodeEntry)} {call : ReserveCall}
    (h : Packed s stores (some call)) : ∃ page,
      attachSharedDeform s false true true = .attached call.pageAddr call.totalSize page ∧
        read page 0 call.code.length = call.code ∧
        read page (maxAlign call.codeBufferSize) call.descs.length = call.descs := by
  obtain ⟨haddr, hpage, hused, hcode, hoff, hnatts, hpos, hfits, hreadCode, hreadDescs⟩ := h.tail
  have hlen := call.descsLength
  have htotal : maxAlign call.codeBufferSize + call.descs.length ≤ call.totalSize := le_alignUp (Nat.two_pow_pos _) _
  have hbuffer := le_maxAlign call.codeBufferSize
  have hne := call.nattsPos
  unfold attachSharedDeform
  dsimp only
  rw [haddr, if_neg call.pageAddrNe, hpage, hoff, hcode, hnatts, hused, if_neg (by omega), ← hlen, if_neg (by omega)]
  refine ⟨_, rfl, ?_, ?_⟩
  · rw [← hused, hreadCode, hreadDescs, read_write_of_disjoint _ _ (.inl (by omega))]
    exact read_write _ _ _
  · rw [← hused, hreadCode, hreadDescs]
    exact read_write _ _ _

end SharedCodeAux

/-- After every history of stores and reservations on a new segment, finds, entries and the reservation are right. -/
theorem shared_code_right (max : SharedCodeMax) (hash : AttrsHash) (s : SharedSegment) (stores : List (Nat × SharedJitCodeEntry))
    (reserved : Option ReserveCall) (h : SharedHistory max hash s stores reserved) : SharedCodeRight s stores reserved := by
  have hpacked := packed_history h
  have hroom := hpacked.room
  refine ⟨fun key => (hpacked.find key).1, ?_, ?_, ?_, hpacked.chain.pairwise, ?_, ?_, ?_, fun _ => store_rejected⟩
  · intro key
    rw [(hpacked.find key).2, Option.isSome_map, List.find?_isSome]
    simp
  · intro key fc hfc
    rw [(hpacked.find key).2] at hfc
    obtain ⟨x, hx, rfl⟩ := Option.map_eq_some_iff.mp hfc
    obtain ⟨-, -, hfits, hread⟩ := hpacked.chain.mem (List.mem_of_find?_eq_some hx)
    obtain ⟨-, -, -, hcode⟩ := entry_fields hread hfits
    exact ⟨x, hx, hcode, rfl, rfl⟩
  · intro x hx
    obtain ⟨hlo, hhi, -, hread⟩ := hpacked.chain.mem hx
    exact ⟨hlo, by omega, hread⟩
  · intro call hcall
    subst hcall
    obtain ⟨-, -, hused, -⟩ := hpacked.tail
    exact ⟨hused, by omega⟩
  · intro call hcall
    subst hcall
    exact hpacked.attach
  · have hlength := hpacked.chain.length_le
    rw [← hpacked.count] at hlength
    have hcapacity := hpacked.capacity
    unfold offsetofCodeBytes at hlength
    omega

namespace SharedCodeWitness

/-- The smallest segment. -/
def smallest : SharedCodeMax := ⟨64, by decide, by decide⟩

/-- Two bytes of code for expression 0 of node 3. -/
def firstEntry : SharedJitCodeEntry := ⟨⟨3#32, 0#32, 0x51#64⟩, 0x4000#64, [0x90#8, 0xc3#8]⟩

/-- Other code for the same expression. -/
def secondEntry : SharedJitCodeEntry := ⟨⟨3#32, 0#32, 0x51#64⟩, 0x5000#64, [0xc3#8]⟩

/-- The checksum of the attribute of one column of type `int4`. -/
def columnHash : AttrsHash := fun _ => 0x6d6f7009#32

/-- A reservation for an anonymous record of one such column. -/
def oneColumn : ReserveCall where
  desc := ⟨2249, -1, ⟨1, fun _ => ⟨4, true, 4, true, false, false, typeValid_int4⟩, fun _ => none⟩, fun _ => []⟩
  ops := .minimalTuple
  natts := 1
  code := [0xc3#8]
  descs := [4#8, 0#8, 4#8, 1#8, 1#8, 0#8, 0#8, 0#8]
  codeBufferSize := 16
  pageShift := 12
  pageAddr := 0x10000#64
  probeOk := true
  mapOk := true
  compileOk := true
  protectOk := true
  descsLength := rfl
  nattsPos := by decide
  pageAddrNe := by decide

/-- The segment after the first store. -/
def stored : SharedSegment := (storeSharedCode (initSharedDsm smallest) firstEntry).1

/-- The reservation behind it. -/
def reserved : SharedSegment := (compileSharedDeform columnHash stored oneColumn).1

/-- The second store. -/
def storedTwice : SharedSegment := (storeSharedCode reserved secondEntry).1

/-- All three succeed. -/
theorem history : SharedHistory smallest columnHash storedTwice
    [((initSharedDsm smallest).header.used, firstEntry), (reserved.header.used, secondEntry)] (some oneColumn) := by
  have h₁ : (storeSharedCode (initSharedDsm smallest) firstEntry).2 = true := by decide +kernel
  have h₂ : (compileSharedDeform columnHash stored oneColumn).2 = true := by decide +kernel
  have h₃ : (storeSharedCode reserved secondEntry).2 = true := by decide +kernel
  exact .stored (.reserved (.stored .init firstEntry (Prod.ext rfl h₁)) oneColumn (Prod.ext rfl h₂)) secondEntry (Prod.ext rfl h₃)

/-- With two stores for one key around a reservation, the first store is found. -/
theorem first_store_found : ∃ fc, (findSharedCode storedTwice firstEntry.key).found = some fc ∧
    read storedTwice.bytes fc.codeBytes fc.codeSize = [0x90#8, 0xc3#8] ∧ fc.dylibRefAddr = 0x4000#64 := by
  have hright := shared_code_right smallest columnHash _ _ _ history
  have hsome := (hright.found firstEntry.key).2 ⟨_, List.mem_cons_self, rfl⟩
  obtain ⟨fc, hfc⟩ := Option.isSome_iff_exists.mp hsome
  obtain ⟨x, hx, hread, -, href⟩ := hright.foundFirst firstEntry.key fc hfc
  have hfirst : x.2 = firstEntry := by
    rw [List.find?_cons_of_pos (by simp)] at hx
    rw [← Option.some.inj hx]
  rw [hfirst] at hread href
  exact ⟨fc, hfc, hread, href⟩

end SharedCodeWitness

end PgJitter
