import PgJitter.Lemmas.JsonString

/-!
# The keys of an object

A key list holds distinct keys, in a list alone or with a table of open addressing over it; adding a key decides whether it is
there, whichever of the two it is, and what the list has allocated is freed with it.
-/

namespace PgJitter

open JsonGrammar LinearProbing

namespace JsonKeysAux

open JsonScanAux JsonStringAux

/-! ## The slot table -/

/-- The keys in the slots of a table. -/
def keyTable (keys : List PgKey) (table : Table Nat) : Table (List Byte) := fun i => (table i).map (keyBytesAt keys)

/-- A slot table of `slotCap` slots holds the first keys of a list. -/
structure Holds (slotCap : Nat) (keys : List PgKey) (table : Table Nat) (ks : List (List Byte)) : Prop where
  built : Built slotCap (keyHome slotCap) (keyTable keys table) ks
  index : ∀ i index, table i = some index → index < keys.length

theorem keyNext_eq (b i : Nat) : keyNext (2 ^ b) i = (i + 1) % 2 ^ b := Nat.and_two_pow_sub_one_eq_mod _ _

theorem keyHome_lt (b : Nat) (bytes : List Byte) : keyHome (2 ^ b) bytes < 2 ^ b := by
  unfold keyHome
  rw [Nat.and_two_pow_sub_one_eq_mod]
  exact Nat.mod_lt _ (Nat.two_pow_pos b)

theorem keyTable_eq_none {keys : List PgKey} {table : Table Nat} {i : Nat} : keyTable keys table i = none ↔ table i = none :=
  Option.map_eq_none_iff

/-- Free slots are found in the same place when the keys are looked at. -/
theorem freeSlot_keyTable (next : Nat → Nat) (keys : List PgKey) (table : Table Nat) (fuel i : Nat) :
    freeSlot next (keyTable keys table) fuel i = freeSlot next table fuel i := by
  induction fuel generalizing i with
  | zero => rfl
  | succ fuel ih =>
    rw [freeSlot, freeSlot, ih]
    exact if_congr keyTable_eq_none rfl rfl

theorem keyTable_update (keys : List PgKey) (table : Table Nat) (pos index : Nat) :
    keyTable keys (Function.update table pos (some index)) =
      Function.update (keyTable keys table) pos (some (keyBytesAt keys index)) := by
  funext i
  unfold keyTable
  by_cases h : i = pos
  · subst h
    rw [Function.update_self, Function.update_self]
    rfl
  · rw [Function.update_of_ne h, Function.update_of_ne h]

/-- The walk through a table ends at an equal key, or at the first free slot. -/
theorem probeKey_eq (table : Table Nat) (slotCap : Nat) (keys : List PgKey) (bytes : List Byte) (fuel i : Nat) :
    probeKey table slotCap keys bytes fuel i = match lookup (keyNext slotCap) (keyTable keys table) bytes fuel i with
      | none => .error .diverges
      | some true => .ok none
      | some false => .ok (freeSlot (keyNext slotCap) table fuel i) := by
  induction fuel generalizing i with
  | zero => rfl
  | succ fuel ih =>
    rw [probeKey, lookup, freeSlot]
    cases hi : table i with
    | none => simp only [keyTable, hi, Option.map_none, if_true]
    | some index =>
      simp only [keyTable, hi, Option.map_some, reduceCtorEq, if_false]
      split
      · rfl
      · exact ih _

/-- The value is inserted where the free slot is. -/
theorem insert_keyTable {n : Nat} {next : Nat → Nat} {home : List Byte → Nat} {keys : List PgKey} {table : Table Nat} {index pos : Nat}
    (h : freeSlot next table n (home (keyBytesAt keys index)) = some pos) :
    LinearProbing.insert n next home (keyTable keys table) (keyBytesAt keys index) =
      keyTable keys (Function.update table pos (some index)) := by
  rw [keyTable_update, LinearProbing.insert, freeSlot_keyTable, h]

section Insert

variable {b : Nat} {keys : List PgKey} {table : Table Nat} {ks : List (List Byte)}

/-- A table that is not full has a free slot for every key. -/
theorem Holds.exists_free (h : Holds (2 ^ b) keys table ks) (hlen : ks.length < 2 ^ b) (bytes : List Byte) :
    ∃ pos, freeSlot (keyNext (2 ^ b)) table (2 ^ b) (keyHome (2 ^ b) bytes) = some pos := by
  obtain ⟨k, _, hfree, hbefore⟩ := exists_free_distance h.built.occupied hlen (keyHome_lt b bytes)
  have hwalk : freeSlot (keyNext (2 ^ b)) (keyTable keys table) (2 ^ b) ((keyHome (2 ^ b) bytes + 0) % 2 ^ b) = some _ :=
    freeSlot_walk (fun i _ => keyNext_eq b i) (Nat.two_pow_pos b) hfree hbefore (Nat.zero_le k) (by omega)
  rw [Nat.add_zero, Nat.mod_eq_of_lt (keyHome_lt b _), freeSlot_keyTable] at hwalk
  exact ⟨_, hwalk⟩

/-- A key whose index is put into that slot is in the table. -/
theorem Holds.insert (h : Holds (2 ^ b) keys table ks) (hlen : ks.length < 2 ^ b) {index pos : Nat} (hindex : index < keys.length)
    (hpos : freeSlot (keyNext (2 ^ b)) table (2 ^ b) (keyHome (2 ^ b) (keyBytesAt keys index)) = some pos) :
    Holds (2 ^ b) keys (Function.update table pos (some index)) (ks ++ [keyBytesAt keys index]) := by
  constructor
  · rw [← insert_keyTable hpos]
    exact built_insert (fun i _ => keyNext_eq b i) (keyHome_lt b) h.built hlen _
  · intro i j hj
    by_cases hi : i = pos
    · subst hi
      rw [Function.update_self] at hj
      cases hj
      exact hindex
    · rw [Function.update_of_ne hi] at hj
      exact h.index i j hj

/-- The keys of a list are the keys of a longer one. -/
theorem Holds.append (h : Holds (2 ^ b) keys table ks) (key : PgKey) : Holds (2 ^ b) (keys ++ [key]) table ks := by
  have htable : keyTable (keys ++ [key]) table = keyTable keys table := by
    funext i
    unfold keyTable
    cases hi : table i with
    | none => rfl
    | some index => simp only [Option.map_some, keyBytesAt, List.getElem?_append_left (h.index i index hi)]
  refine ⟨htable ▸ h.built, fun i index hi => ?_⟩
  have := h.index i index hi
  rw [List.length_append]
  omega

/-- The walk for a key ends at an equal key if there is one, and else where the key goes. -/
theorem Holds.probe (h : Holds (2 ^ b) keys table ks) (hlen : ks.length < 2 ^ b) (bytes : List Byte) :
    bytes ∈ ks ∧ probeKey table (2 ^ b) keys bytes (2 ^ b) (keyHome (2 ^ b) bytes) = .ok none ∨
      bytes ∉ ks ∧ ∃ pos, probeKey table (2 ^ b) keys bytes (2 ^ b) (keyHome (2 ^ b) bytes) = .ok (some pos) ∧
        freeSlot (keyNext (2 ^ b)) table (2 ^ b) (keyHome (2 ^ b) bytes) = some pos := by
  have hlookup := lookup_built (fun i _ => keyNext_eq b i) (keyHome_lt b) h.built hlen bytes
  rw [probeKey_eq]
  by_cases hmem : bytes ∈ ks
  · rw [show lookup _ _ _ _ _ = some true from hlookup.trans (congrArg some (by simpa using hmem))]
    exact Or.inl ⟨hmem, rfl⟩
  · rw [show lookup _ _ _ _ _ = some false from hlookup.trans (congrArg some (by simpa using hmem))]
    obtain ⟨pos, hpos⟩ := h.exists_free hlen bytes
    exact Or.inr ⟨hmem, pos, by rw [hpos], hpos⟩

end Insert

/-- Keys that are inserted one after the other are in the table afterwards. -/
theorem insertAll_spec {b : Nat} {keys : List PgKey} (indices : List Nat) {table : Table Nat} {ks : List (List Byte)}
    (h : Holds (2 ^ b) keys table ks) (hlen : ks.length + indices.length ≤ 2 ^ b) (hindex : ∀ i ∈ indices, i < keys.length) :
    ∃ table', insertAll (2 ^ b) keys indices table = .ok table' ∧
      Holds (2 ^ b) keys table' (ks ++ indices.map (keyBytesAt keys)) := by
  induction indices generalizing table ks with
  | nil => exact ⟨table, rfl, by rwa [List.map_nil, List.append_nil]⟩
  | cons i is ih =>
    rw [List.length_cons] at hlen
    obtain ⟨pos, hpos⟩ := h.exists_free (by omega) (keyBytesAt keys i)
    obtain ⟨table₂, h₂, hh₂⟩ := ih (h.insert (by omega) (hindex i List.mem_cons_self) hpos)
      (by rw [List.length_append, List.length_singleton]; omega)
      fun j hj => hindex j (List.mem_cons_of_mem _ hj)
    refine ⟨table₂, ?_, ?_⟩
    · rw [insertAll, keyHashInsert, hpos]
      exact h₂
    · rwa [List.append_assoc, List.singleton_append] at hh₂

/-- The key with an index is that of the list of keys. -/
theorem map_keyBytesAt (keys : List PgKey) : (List.range keys.length).map (keyBytesAt keys) = keys.map (·.bytes) := by
  refine List.ext_getElem (by simp) fun i h₁ h₂ => ?_
  have hi : i < keys.length := by simpa using h₂
  simp [keyBytesAt, List.getElem?_eq_getElem hi]

/-! ## The key list -/

/-- What holds of a list of the keys `ks`: the keys are distinct, and a table over them, which there is when they are many, is at
most half full. -/
structure KeysInv (keys : PgKeyList) (ks : List (List Byte)) : Prop where
  bytes : keys.keys.map (·.bytes) = ks
  nodup : ks.Nodup
  list : keys.slots = none → ks.length < keyHashThreshold
  table : ∀ slots, keys.slots = some slots →
    Holds keys.slotCap keys.keys slots.table ks ∧ 2 * ks.length ≤ keys.slotCap ∧ ∃ b, keys.slotCap = 2 ^ b

/-- The blocks that a key list owns. -/
def keysBlocks (keys : PgKeyList) : List Nat :=
  keys.keys.flatMap (fun key => key.ptr.toList) ++ ((keys.slots.map (·.ptr)).toList ++ keys.keysPtr.toList)

theorem KeysInv.length {keys : PgKeyList} {ks : List (List Byte)} (h : KeysInv keys ks) : keys.keys.length = ks.length := by
  rw [← h.bytes, List.length_map]

theorem keysInv_empty : KeysInv PgKeyList.empty [] :=
  ⟨rfl, List.nodup_nil, fun _ => by decide, fun _ h => nomatch h⟩

theorem owns_perm {heap : KeyHeap} {owned owned' : List Nat} (hp : owned'.Perm owned) (h : Owns heap owned) : Owns heap owned' :=
  (hp.append_left _).trans h

@[simp] theorem keysFree_cur (r : PgReader) (keys : PgKeyList) : (keysFree r keys).cur = r.cur := by
  have hfold : ∀ (ks : List PgKey) (r : PgReader), (ks.foldl (fun r key => r.free key.ptr) r).cur = r.cur := by
    intro ks
    induction ks with
    | nil => exact fun _ => rfl
    | cons k ks ih =>
      intro r
      rw [List.foldl_cons, ih, free_cur]
  rw [keysFree, free_cur, free_cur, hfold]

/-- All that a key list owns is freed with it. -/
theorem keysFree_spec {keys : PgKeyList} {owned : List Nat} {r : PgReader} (h : Owns r.heap (keysBlocks keys ++ owned)) :
    Owns (keysFree r keys).heap owned := by
  have hfold : ∀ (ks : List PgKey) (r : PgReader) (rest : List Nat), Owns r.heap (ks.flatMap (fun key => key.ptr.toList) ++ rest) →
      Owns (ks.foldl (fun r key => r.free key.ptr) r).heap rest := by
    intro ks
    induction ks with
    | nil => exact fun _ _ h => h
    | cons k ks ih =>
      intro r rest h
      rw [List.flatMap_cons, List.append_assoc] at h
      exact ih (r.free k.ptr) rest (owns_free h)
  refine owns_free (owns_free (hfold _ _ _ ?_))
  rwa [keysBlocks, List.append_assoc, List.append_assoc] at h

/-- The capacity of the table grows to a power of two, twice as large as the keys that are needed and no larger than can be. -/
theorem growSlotCap_spec {needed : Nat} (hneeded : needed ≤ 2 ^ 58) (k a : Nat) (hk : 2 * needed ≤ 2 ^ a * 2 ^ k)
    (ha : 2 ^ a < 2 ^ 60) :
    ∃ b, growSlotCap needed (k + 1) (2 ^ a) = .ok (some (2 ^ b)) ∧ 2 * needed ≤ 2 ^ b ∧ 2 ^ b < 2 ^ 60 := by
  induction k generalizing a with
  | zero =>
    rw [Nat.pow_zero, Nat.mul_one] at hk
    rw [growSlotCap, if_neg (by omega)]
    exact ⟨a, rfl, hk, ha⟩
  | succ k ih =>
    rw [growSlotCap]
    split
    · next hlt =>
      rw [if_neg (by unfold usizeMax; omega), ← Nat.pow_succ]
      refine ih (a + 1) ?_ ?_
      · rw [Nat.pow_succ, Nat.mul_assoc, ← Nat.pow_succ']
        exact hk
      · rw [Nat.pow_succ]
        omega
    · next hge => exact ⟨a, rfl, by omega, ha⟩

/-- A reader with a key list of the keys `ks`, which owns its blocks beside the `rest`. -/
structure KeysAt (ks : List (List Byte)) (rest : List Nat) (cur : List Byte) (r : PgReader) (keys : PgKeyList) : Prop where
  inv : KeysInv keys ks
  owns : Owns r.heap (keysBlocks keys ++ rest)
  cur : r.cur = cur

section Keys

variable {o : PgTextOptions} {r : PgReader} {keys : PgKeyList} {ks : List (List Byte)} {rest : List Nat} {cur : List Byte}
variable (halloc : ∀ n, o.allocOk n = true)
include halloc

/-- A new table holds all the keys. -/
theorem keysHashResize_spec (h : KeysAt ks rest cur r keys) {needed : Nat} (hneeded : needed ≤ 2 ^ 58) (hlen : ks.length ≤ needed) :
    ∃ r' keys', keysHashResize o r keys needed = .ok (true, r', keys') ∧ KeysAt ks rest cur r' keys' ∧
      keys'.slots ≠ none ∧ 2 * needed ≤ keys'.slotCap ∧ keys'.keys = keys.keys := by
  obtain ⟨b, hgrow, hb, hb'⟩ := growSlotCap_spec hneeded 63 6 (by omega) (by decide)
  obtain ⟨p, r₁, hmalloc, howns, hcur⟩ := malloc_spec halloc h.owns
  have hempty : Holds (2 ^ b) keys.keys (fun _ => none) [] := ⟨built_nil _ _, fun _ _ h => nomatch h⟩
  obtain ⟨table, hall, hholds⟩ := insertAll_spec (List.range keys.keys.length) hempty
    (by rw [List.length_range, h.inv.length, List.length_nil]; omega) fun i hi => List.mem_range.1 hi
  rw [List.nil_append, map_keyBytesAt, h.inv.bytes] at hholds
  refine ⟨r₁.free (keys.slots.map (·.ptr)), { keys with slots := some ⟨p, table⟩, slotCap := 2 ^ b }, ?_, ?_, nofun, hb, rfl⟩
  · unfold keysHashResize
    have hgrow' : growSlotCap needed 64 (keyHashThreshold * 2) = .ok (some (2 ^ b)) := hgrow
    rw [if_neg (by unfold usizeMax; omega), hgrow', ok_bind]
    dsimp only
    rw [if_neg (by unfold usizeMax sizeofPgKey; omega), hmalloc]
    dsimp only
    rw [hall, ok_bind]
    rfl
  · refine ⟨⟨h.inv.bytes, h.inv.nodup, nofun, ?_⟩, ?_, by rw [free_cur, hcur, h.cur]⟩
    · rintro _ ⟨⟩
      exact ⟨hholds, by dsimp only; omega, b, rfl⟩
    · refine owns_free (owns_perm ?_ howns)
      simp only [keysBlocks, Option.map_some, Option.toList_some]
      exact List.perm_iff_count.2 fun a => by simp only [List.count_append, List.count_cons, List.count_nil]; omega

/-- There is room for one more key, in the list or in the table. -/
theorem keysEnsureHash_spec (h : KeysAt ks rest cur r keys) (hlen : ks.length < 2 ^ 58) :
    ∃ r' keys', keysEnsureHash o r keys (ks.length + 1) = .ok (true, r', keys') ∧ KeysAt ks rest cur r' keys' ∧
      (keys'.slots = none → ks.length + 1 < keyHashThreshold) ∧
      (keys'.slots ≠ none → 2 * (ks.length + 1) ≤ keys'.slotCap) := by
  unfold keysEnsureHash
  have hresize := keysHashResize_spec halloc h (show ks.length + 1 ≤ 2 ^ 58 by omega) (by omega)
  obtain ⟨r', keys', heq, hat, hsome, hroom, _⟩ := hresize
  have hgrown : ∃ r' keys', keysHashResize o r keys (ks.length + 1) = .ok (true, r', keys') ∧ KeysAt ks rest cur r' keys' ∧
      (keys'.slots = none → ks.length + 1 < keyHashThreshold) ∧
      (keys'.slots ≠ none → 2 * (ks.length + 1) ≤ keys'.slotCap) :=
    ⟨r', keys', heq, hat, fun h => absurd h hsome, fun _ => hroom⟩
  cases hslots : keys.slots with
  | none =>
    dsimp only
    split
    · next hlt => exact ⟨r, keys, rfl, h, fun _ => hlt, fun hne => absurd hslots hne⟩
    · exact hgrown
  | some slots =>
    dsimp only
    split
    · next hle => exact ⟨r, keys, rfl, h, fun hno => (nomatch hno.symm.trans hslots), fun _ => by omega⟩
    · exact hgrown

/-- A key is appended, and its block belongs to the list from then on. -/
theorem keysAppend_spec {key : PgKey} (howns : Owns r.heap (keysBlocks keys ++ (key.ptr.toList ++ rest)))
    (hlen : keys.keys.length < 2 ^ 58) :
    ∃ r' keys', keysAppend o r keys key = (true, r', keys') ∧ Owns r'.heap (keysBlocks keys' ++ rest) ∧ r'.cur = r.cur ∧
      keys'.keys = keys.keys ++ [key] ∧ keys'.slots = keys.slots ∧ keys'.slotCap = keys.slotCap := by
  unfold keysAppend
  split
  · next hcap =>
    rw [if_neg (by unfold usizeMax sizeofPgKey; omega)]
    have hnew : (if keys.cap ≠ 0 then keys.cap * 2 else 8) ≤ usizeMax / sizeofPgKey := by
      unfold usizeMax sizeofPgKey
      split <;> omega
    dsimp only
    rw [if_neg (Nat.not_lt.2 hnew)]
    have howns' : Owns r.heap (keys.keysPtr.toList ++
        (keys.keys.flatMap (fun key => key.ptr.toList) ++ ((keys.slots.map (·.ptr)).toList ++ (key.ptr.toList ++ rest)))) := by
      refine owns_perm ?_ howns
      simp only [keysBlocks]
      exact List.perm_iff_count.2 fun a => by simp only [List.count_append]; omega
    obtain ⟨p, r', hrealloc, ho, hcur⟩ := realloc_spec halloc howns'
    rw [hrealloc]
    refine ⟨_, _, rfl, owns_perm ?_ ho, hcur, rfl, rfl, rfl⟩
    simp only [keysBlocks, List.flatMap_append, List.flatMap_cons, List.flatMap_nil, Option.toList_some]
    exact List.perm_iff_count.2 fun a => by simp only [List.count_append, List.count_cons, List.count_nil]; omega
  · refine ⟨_, _, rfl, owns_perm ?_ howns, rfl, rfl, rfl, rfl⟩
    simp only [keysBlocks, List.flatMap_append, List.flatMap_cons, List.flatMap_nil]
    exact List.perm_iff_count.2 fun a => by simp only [List.count_append, List.count_nil]; omega

/-- A key is added exactly if it is new; otherwise it is still the caller's. -/
theorem keysAddUnique_spec (key : PgKey) (h : KeysAt ks (key.ptr.toList ++ rest) cur r keys) (hlen : ks.length < 2 ^ 58) :
    ∃ r' keys', key.bytes ∈ ks ∧ keysAddUnique o r keys key = .ok (false, r', keys') ∧
        KeysAt ks (key.ptr.toList ++ rest) cur r' keys' ∨
      key.bytes ∉ ks ∧ keysAddUnique o r keys key = .ok (true, r', keys') ∧ KeysAt (ks ++ [key.bytes]) rest cur r' keys' := by
  obtain ⟨r₁, keys₁, hensure, h₁, hlist, hroom⟩ := keysEnsureHash_spec halloc h hlen
  have hcount : keys₁.keys.length < 2 ^ 58 := by rwa [h₁.inv.length]
  obtain ⟨r₂, keys₂, happ, howns, hcur, hkeys, hslots, hslotCap⟩ := keysAppend_spec halloc h₁.owns hcount
  have hbytes : keys₂.keys.map (·.bytes) = ks ++ [key.bytes] := by
    rw [hkeys, List.map_append, h₁.inv.bytes]
    rfl
  have hnodup : key.bytes ∉ ks → (ks ++ [key.bytes]).Nodup := by
    intro hmem
    refine List.nodup_append.2 ⟨h.inv.nodup, List.pairwise_singleton _ _, ?_⟩
    rintro a ha b hb rfl
    exact hmem (List.mem_singleton.1 hb ▸ ha)
  unfold keysAddUnique
  rw [if_neg (by rw [h.inv.length]; unfold usizeMax; omega), h.inv.length, hensure, ok_bind]
  dsimp only
  cases hs : keys₁.slots with
  | none =>
    dsimp only
    have hany : keys₁.keys.any (·.bytes == key.bytes) = true ↔ key.bytes ∈ ks := by
      rw [← h₁.inv.bytes, List.any_eq_true, List.mem_map]
      simp only [beq_iff_eq]
    by_cases hmem : key.bytes ∈ ks
    · rw [if_pos (hany.2 hmem)]
      exact ⟨r₁, keys₁, Or.inl ⟨hmem, rfl, h₁⟩⟩
    · rw [if_neg fun h => hmem (hany.1 h), happ]
      refine ⟨r₂, keys₂, Or.inr ⟨hmem, rfl, ⟨hbytes, hnodup hmem, fun _ => ?_, ?_⟩, howns, hcur.trans h₁.cur⟩⟩
      · rw [List.length_append, List.length_singleton]
        exact hlist hs
      · intro slots hslots'
        exact nomatch (hslots.trans hs).symm.trans hslots'
  | some slots =>
    dsimp only
    obtain ⟨hholds, _, b, hb⟩ := h₁.inv.table slots hs
    have hcap := hroom (by rw [hs]; exact Option.some_ne_none _)
    rw [hb] at hholds hcap ⊢
    rcases hholds.probe (by omega) key.bytes with ⟨hmem, hprobe⟩ | ⟨hmem, pos, hprobe, hpos⟩
    · rw [hprobe]
      exact ⟨r₁, keys₁, Or.inl ⟨hmem, rfl, h₁⟩⟩
    · rw [hprobe, ok_bind]
      dsimp only
      rw [happ]
      refine ⟨r₂, _, Or.inr ⟨hmem, rfl, ⟨hbytes, hnodup hmem, nofun, ?_⟩, ?_, hcur.trans h₁.cur⟩⟩
      · rintro _ ⟨⟩
        have hat : keyBytesAt (keys₁.keys ++ [key]) keys₁.keys.length = key.bytes := by
          unfold keyBytesAt
          rw [List.getElem?_concat_length]
          rfl
        have hins : Holds (2 ^ b) (keys₁.keys ++ [key]) (Function.update slots.table pos (some keys₁.keys.length))
            (ks ++ [keyBytesAt (keys₁.keys ++ [key]) keys₁.keys.length]) := (hholds.append key).insert (by omega)
          (by rw [List.length_append, List.length_singleton]; omega) (by rw [hat]; exact hpos)
        rw [hat] at hins
        dsimp only
        rw [hslotCap, hb, hkeys]
        refine ⟨hins, ?_, b, rfl⟩
        rw [List.length_append, List.length_singleton]
        exact hcap
      · refine owns_perm (List.Perm.of_eq ?_) howns
        simp only [keysBlocks, hslots, hs, Option.map_some]

end Keys

end JsonKeysAux

end PgJitter
