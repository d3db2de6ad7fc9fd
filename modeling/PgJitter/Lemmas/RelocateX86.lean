import PgJitter.Lemmas.Relocate
import PgJitter.RelocateX86

/-!
# The scan over code bytes

Which offsets the scan stands on, what it leaves of the bytes, and where the call constants of a buffer of whole instructions are.
-/

namespace PgJitter

open ByteMemory

namespace RelocateX86Aux

open RelocateAux

/-! ## Encodings -/

/-- The register of a `MOV`, as the scan reads it. -/
theorem extendReg_mov : ∀ (r x b : Bool) (rd : BitVec 3),
    extendReg (0b01001#5 ++ BitVec.ofBool r ++ BitVec.ofBool x ++ BitVec.ofBool b) (0b10111#5 ++ rd) =
      (regNum b rd).setWidth 8 := by
  decide

/-- The register of a branch without a prefix. -/
theorem extendReg_branch : ∀ (op : BitVec 3) (rm : BitVec 3),
    extendReg 0#8 (0b11#2 ++ op ++ rm) = (regNum false rm).setWidth 8 := by
  decide

/-- The register of a branch with a prefix. -/
theorem extendReg_rex : ∀ (wrx : BitVec 3) (b : Bool) (op : IndirectOp) (rm : BitVec 3),
    extendReg (0b0100#4 ++ wrx ++ BitVec.ofBool b) (0b11#2 ++ op.field ++ rm) = (regNum b rm).setWidth 8 := by
  intro wrx b op rm
  cases op <;> revert wrx b rm <;> decide

/-- A REX prefix is taken for one. -/
theorem rex_and_mask : ∀ (wrx : BitVec 3) (b : Bool), (0b0100#4 ++ wrx ++ BitVec.ofBool b) &&& 0xF0#8 = 0x40#8 := by
  decide

/-- The ModRM byte of a branch has the mode and the opcode that the scan looks for. -/
theorem modrm_test (op : IndirectOp) (rm : BitVec 3) :
    (0b11#2 ++ op.field ++ rm) &&& 0xC0#8 = 0xC0#8 ∧
      (((0b11#2 ++ op.field ++ rm) >>> 3) &&& 7#8 = 2#8 ∨ ((0b11#2 ++ op.field ++ rm) >>> 3) &&& 7#8 = 4#8) := by
  cases op <;> revert rm <;> decide

/-- The test for an indirect branch finds one through its register. -/
theorem followed_encode (rex : Option (BitVec 3 × Bool)) (op : IndirectOp) (rm : BitVec 3) (rest : List (BitVec 8)) :
    movabsFollowedByIndirectBranch ((X86Insn.branch rex op rm).encode ++ rest) ((regNum (rexB rex) rm).setWidth 8) = true := by
  obtain ⟨hmode, hop⟩ := modrm_test op rm
  cases rex with
  | none =>
    simp [movabsFollowedByIndirectBranch, X86Insn.encode, takeRex, rexB, extendReg_branch, hmode, hop]
  | some p =>
    obtain ⟨wrx, b⟩ := p
    simp [movabsFollowedByIndirectBranch, X86Insn.encode, takeRex, rexB, rex_and_mask, extendReg_rex, hmode, hop]

/-- The opcode of a `MOV`. -/
theorem opcode_and_mask : ∀ rd : BitVec 3, (0b10111#5 ++ rd) &&& 0xF8#8 = 0xB8#8 := by
  decide

/-! ## What one turn finds -/

/-- What one turn finds starts with one of the two prefixes, and the constant comes two bytes after it. -/
theorem eq_of_movabsCallAddr {bytes : List (BitVec 8)} {addr : BitVec 64} (h : movabsCallAddr bytes = some addr) :
    ∃ rex opc rest, (rex = 0x48#8 ∨ rex = 0x49#8) ∧ bytes = rex :: opc :: (leBytes 8 addr.toNat ++ rest) := by
  unfold movabsCallAddr at h
  split at h
  · rename_i rex opc b0 b1 b2 b3 b4 b5 b6 b7 rest
    rw [Option.ite_none_left_eq_some, Option.ite_none_left_eq_some, Option.ite_none_right_eq_some, Option.some.injEq] at h
    obtain ⟨hrex, -, -, rfl⟩ := h
    have hprefix : rex = 0x48#8 ∨ rex = 0x49#8 := by
      by_contra hne
      exact hrex (not_or.1 hne)
    refine ⟨rex, opc, rest, hprefix, ?_⟩
    have hlt : leNat [b0, b1, b2, b3, b4, b5, b6, b7] < 2 ^ 64 := Nat.lt_of_lt_of_eq (leNat_lt _) (by norm_num)
    rw [BitVec.toNat_ofNat, Nat.mod_eq_of_lt hlt]
    exact congrArg (fun bs => rex :: opc :: (bs ++ rest)) (leBytes_leNat [b0, b1, b2, b3, b4, b5, b6, b7]).symm
  · exact nomatch h

/-- A call constant with one of the two prefixes is found. -/
theorem movabsCallAddr_encode {r x b : Bool} {rd : BitVec 3} {imm : BitVec 64} {rex : Option (BitVec 3 × Bool)} {op : IndirectOp}
    {rm : BitVec 3} (rest : List (BitVec 8)) (hreg : regNum (rexB rex) rm = regNum b rd)
    (hrex : ((X86Insn.movImm64 r x b rd imm).encode)[0]? = some 0x48#8 ∨
      ((X86Insn.movImm64 r x b rd imm).encode)[0]? = some 0x49#8) :
    movabsCallAddr ((X86Insn.movImm64 r x b rd imm).encode ++ ((X86Insn.branch rex op rm).encode ++ rest)) = some imm := by
  have hfollow := followed_encode rex op rm rest
  rw [hreg, ← extendReg_mov r x b rd] at hfollow
  generalize hc : (0b01001#5 ++ BitVec.ofBool r ++ BitVec.ofBool x ++ BitVec.ofBool b) = c at hfollow
  have hc' : c = 0x48#8 ∨ c = 0x49#8 := by simpa [X86Insn.encode, hc] using hrex
  obtain ⟨b0, b1, b2, b3, b4, b5, b6, b7, hb⟩ : ∃ b0 b1 b2 b3 b4 b5 b6 b7, leBytes 8 imm.toNat = [b0, b1, b2, b3, b4, b5, b6, b7] :=
    ⟨_, _, _, _, _, _, _, _, rfl⟩
  have hval : leNat [b0, b1, b2, b3, b4, b5, b6, b7] = imm.toNat := by
    rw [← hb]
    exact leNat_leBytes imm.isLt
  rw [X86Insn.encode, hc, hb]
  have hlist : [c, 0b10111#5 ++ rd] ++ [b0, b1, b2, b3, b4, b5, b6, b7] ++ ((X86Insn.branch rex op rm).encode ++ rest) =
      c :: (0b10111#5 ++ rd) :: b0 :: b1 :: b2 :: b3 :: b4 :: b5 :: b6 :: b7 :: ((X86Insn.branch rex op rm).encode ++ rest) := rfl
  rw [hlist, movabsCallAddr, if_neg fun hne => hc'.elim hne.1 hne.2, if_neg (not_not_intro (opcode_and_mask rd)), if_pos hfollow, hval,
    BitVec.ofNat_toNat, BitVec.setWidth_eq]

/-! ## The offsets of the scan -/

variable {table : HelperTable} {delta : BitVec 64}

/-- Where nothing is patched the scan goes on with the next byte. -/
theorem scanReaches_cons {b : BitVec 8} {rest : List (BitVec 8)} {i : Nat} (h : ¬ Patches table delta (b :: rest)) :
    ScanReaches table delta (b :: rest) (i + 1) ↔ ScanReaches table delta rest i := by
  constructor
  · intro hr
    cases hr with
    | next _ _ _ _ hr => exact hr
    | skip _ _ hp _ => exact absurd hp h
  · exact .next b rest i h

/-- Where an instruction is patched the scan stands on its first byte and on what comes after it. -/
theorem scanReaches_patch {bytes : List (BitVec 8)} {i : Nat} (h : Patches table delta bytes) :
    ScanReaches table delta bytes i ↔ i = 0 ∨ ∃ i', i = i' + 10 ∧ ScanReaches table delta (bytes.drop 10) i' := by
  constructor
  · intro hr
    cases hr with
    | here => exact Or.inl rfl
    | next _ _ _ hn _ => exact absurd h hn
    | skip _ i' _ hr => exact Or.inr ⟨i', rfl, hr⟩
  · rintro (rfl | ⟨i', rfl, hr⟩)
    · exact .here bytes
    · exact .skip bytes i' h hr

/-- At the head the scan always stands. -/
theorem foundAt_zero {bytes : List (BitVec 8)} {addr : BitVec 64} :
    FoundAt table delta bytes 0 addr ↔ movabsCallAddr bytes = some addr :=
  ⟨fun h => h.2, fun h => ⟨.here bytes, h⟩⟩

theorem foundAt_cons {b : BitVec 8} {rest : List (BitVec 8)} {i : Nat} {addr : BitVec 64}
    (h : ¬ Patches table delta (b :: rest)) :
    FoundAt table delta (b :: rest) (i + 1) addr ↔ FoundAt table delta rest i addr := by
  unfold FoundAt
  rw [scanReaches_cons h, List.drop_succ_cons]

/-- Behind a call that is patched the scan goes on ten bytes further. -/
theorem foundAt_patch {bytes : List (BitVec 8)} {i : Nat} {addr : BitVec 64} (h : Patches table delta bytes) :
    FoundAt table delta bytes i addr ↔
      (i = 0 ∧ movabsCallAddr bytes = some addr) ∨ ∃ i', i = i' + 10 ∧ FoundAt table delta (bytes.drop 10) i' addr := by
  unfold FoundAt
  rw [scanReaches_patch h]
  constructor
  · rintro ⟨rfl | ⟨i', rfl, hr⟩, hc⟩
    · exact Or.inl ⟨rfl, hc⟩
    · exact Or.inr ⟨i', rfl, hr, by rwa [List.drop_drop, Nat.add_comm]⟩
  · rintro (⟨rfl, hc⟩ | ⟨i', rfl, hr, hc⟩)
    · exact ⟨Or.inl rfl, hc⟩
    · exact ⟨Or.inr ⟨i', rfl, hr⟩, by rwa [List.drop_drop, Nat.add_comm] at hc⟩

/-- Nothing is found before the end of an instruction that is patched, but the instruction itself. -/
theorem foundAt_separated {bytes : List (BitVec 8)} {i j : Nat} {addr : BitVec 64} (hf : FoundAt table delta bytes i addr)
    (hk : IsHelper table (addr + delta)) (hr : ScanReaches table delta bytes j) (hij : i < j) : i + 10 ≤ j := by
  obtain ⟨hi, hc⟩ := hf
  induction hi generalizing j with
  | here bytes =>
    obtain rfl | ⟨j', rfl, -⟩ := (scanReaches_patch ⟨addr, hc, hk⟩).1 hr
    · exact absurd hij (Nat.lt_irrefl 0)
    · omega
  | next b rest i hn _ ih =>
    obtain ⟨j', rfl⟩ := Nat.exists_eq_succ_of_ne_zero (show j ≠ 0 by omega)
    have := ih ((scanReaches_cons hn).1 hr) (by omega) hc
    omega
  | skip bytes i hp _ ih =>
    obtain rfl | ⟨j', rfl, hr'⟩ := (scanReaches_patch hp).1 hr
    · exact absurd hij (Nat.not_lt_zero _)
    · have := ih hr' (by omega) (by rwa [List.drop_drop, Nat.add_comm])
      omega

/-- The scan stands on every offset but those inside an instruction it patches. -/
theorem scanReaches_or_inside (table : HelperTable) (delta : BitVec 64) (i : Nat) (bytes : List (BitVec 8)) (h : i ≤ bytes.length) :
    ScanReaches table delta bytes i ∨
      ∃ j addr, FoundAt table delta bytes j addr ∧ IsHelper table (addr + delta) ∧ j < i ∧ i < j + 10 := by
  induction i using Nat.strong_induction_on generalizing bytes with
  | _ i ih =>
    by_cases hp : Patches table delta bytes
    · obtain ⟨addr, hc, hk⟩ := hp
      rcases Nat.lt_or_ge i 10 with hi | hi
      · rcases Nat.eq_zero_or_pos i with rfl | hpos
        · exact Or.inl (.here bytes)
        · exact Or.inr ⟨0, addr, foundAt_zero.2 hc, hk, hpos, by omega⟩
      · obtain ⟨i', rfl⟩ := Nat.exists_eq_add_of_le' hi
        rcases ih i' (by omega) (bytes.drop 10) (by simp; omega) with hr | ⟨j, addr', hf, hk', h1, h2⟩
        · exact Or.inl (.skip bytes i' ⟨addr, hc, hk⟩ hr)
        · exact Or.inr ⟨j + 10, addr', (foundAt_patch ⟨addr, hc, hk⟩).2 (Or.inr ⟨j, rfl, hf⟩), hk', by omega, by omega⟩
    · cases i with
      | zero => exact Or.inl (.here bytes)
      | succ i =>
        cases bytes with
        | nil => exact absurd h (Nat.not_succ_le_zero i)
        | cons b rest =>
          rcases ih i (by omega) rest (Nat.le_of_succ_le_succ h) with hr | ⟨j, addr, hf, hk, h1, h2⟩
          · exact Or.inl ((scanReaches_cons hp).2 hr)
          · exact Or.inr ⟨j + 1, addr, (foundAt_cons hp).2 hf, hk, by omega, by omega⟩

/-! ## What the loop does -/

/-- What a scan leaves: it patches what it finds, keeps every byte outside, and reports the addresses it does not know. -/
structure ScannedX86 (table : HelperTable) (delta : BitVec 64) (bytes : List (BitVec 8)) (r : RelocScanX86) : Prop where
  length : r.bytes.length = bytes.length
  unknown : r.unknownCallTarget = true ↔ ∃ i addr, FoundAt table delta bytes i addr ∧ ¬ IsHelper table (addr + delta)
  patched : ∀ i addr, FoundAt table delta bytes i addr → IsHelper table (addr + delta) → ImmAt r.bytes i (addr + delta)
  kept : ∀ k, (∀ i addr, FoundAt table delta bytes i addr → IsHelper table (addr + delta) → k < i + 2 ∨ i + 10 ≤ k) →
    r.bytes[k]? = bytes[k]?

/-- A byte in front, where nothing is patched. -/
theorem ScannedX86.keep {b : BitVec 8} {rest : List (BitVec 8)} {r : RelocScanX86} (h : ScannedX86 table delta rest r)
    (hn : ¬ Patches table delta (b :: rest)) {flag : Bool}
    (hflag : flag = true ↔ r.unknownCallTarget = true ∨ ∃ addr, movabsCallAddr (b :: rest) = some addr) :
    ScannedX86 table delta (b :: rest) { r.keep b with unknownCallTarget := flag } where
  length := congrArg Nat.succ h.length
  unknown := by
    rw [hflag, h.unknown]
    constructor
    · rintro (⟨i, addr, hf, hk⟩ | ⟨addr, hc⟩)
      · exact ⟨i + 1, addr, (foundAt_cons hn).2 hf, hk⟩
      · exact ⟨0, addr, foundAt_zero.2 hc, fun hk => hn ⟨addr, hc, hk⟩⟩
    · rintro ⟨i, addr, hf, hk⟩
      cases i with
      | zero => exact Or.inr ⟨addr, foundAt_zero.1 hf⟩
      | succ i => exact Or.inl ⟨i, addr, (foundAt_cons hn).1 hf, hk⟩
  patched := by
    intro i addr hf hk
    cases i with
    | zero => exact absurd ⟨addr, foundAt_zero.1 hf, hk⟩ hn
    | succ i =>
      intro n hlt
      rw [show i + 1 + 2 + n = (i + 2 + n) + 1 by omega]
      exact h.patched i addr ((foundAt_cons hn).1 hf) hk n hlt
  kept := by
    intro k hk
    cases k with
    | zero => rfl
    | succ k =>
      refine h.kept k fun i addr hf hh => ?_
      have := hk (i + 1) addr ((foundAt_cons hn).2 hf) hh
      omega

/-- A patched instruction in front. -/
theorem ScannedX86.patch {rex opc : BitVec 8} {addr : BitVec 64} {rest : List (BitVec 8)} {r : RelocScanX86}
    (h : ScannedX86 table delta rest r) (hc : movabsCallAddr (rex :: opc :: (leBytes 8 addr.toNat ++ rest)) = some addr)
    (hk : IsHelper table (addr + delta)) (count : Nat) :
    ScannedX86 table delta (rex :: opc :: (leBytes 8 addr.toNat ++ rest))
      { r with bytes := rex :: opc :: (leBytes 8 (addr + delta).toNat ++ r.bytes), patched := count } := by
  have hp : Patches table delta (rex :: opc :: (leBytes 8 addr.toNat ++ rest)) := ⟨addr, hc, hk⟩
  have hdrop : (rex :: opc :: (leBytes 8 addr.toNat ++ rest)).drop 10 = rest := rfl
  have hfound : ∀ i a, FoundAt table delta rest i a →
      FoundAt table delta (rex :: opc :: (leBytes 8 addr.toNat ++ rest)) (i + 10) a :=
    fun i a hf => (foundAt_patch hp).2 (Or.inr ⟨i, rfl, hdrop ▸ hf⟩)
  refine ⟨?_, ?_, ?_, ?_⟩
  · simp [h.length]
  · rw [h.unknown]
    constructor
    · rintro ⟨i, a, hf, ha⟩
      exact ⟨i + 10, a, hfound i a hf, ha⟩
    · rintro ⟨i, a, hf, ha⟩
      obtain ⟨rfl, hc'⟩ | ⟨i', rfl, hf'⟩ := (foundAt_patch hp).1 hf
      · rw [hc, Option.some.injEq] at hc'
        exact absurd (hc' ▸ hk) ha
      · exact ⟨i', a, hf', ha⟩
  · intro i a hf ha n hn
    obtain ⟨rfl, hc'⟩ | ⟨i', rfl, hf'⟩ := (foundAt_patch hp).1 hf
    · rw [hc, Option.some.injEq] at hc'
      subst hc'
      rw [show 0 + 2 + n = n + 2 by omega, List.getElem?_cons_succ, List.getElem?_cons_succ,
        List.getElem?_append_left (by simpa using hn)]
    · have := h.patched i' a hf' ha n hn
      rw [show i' + 10 + 2 + n = (i' + 2 + n + 8) + 2 by omega, List.getElem?_cons_succ, List.getElem?_cons_succ,
        List.getElem?_append_right (by simp), length_leBytes, Nat.add_sub_cancel]
      exact this
  · intro k hkeep
    have h0 := hkeep 0 addr (foundAt_zero.2 hc) hk
    rcases h0 with h0 | h0
    · match k, h0 with
      | 0, _ => rfl
      | 1, _ => rfl
    · obtain ⟨k', rfl⟩ := Nat.exists_eq_add_of_le' (show 10 ≤ k by omega)
      have hkept := h.kept k' fun i a hf ha => by
        have := hkeep (i + 10) a (hfound i a hf) ha
        omega
      rw [show k' + 10 = (k' + 8) + 2 by omega, List.getElem?_cons_succ, List.getElem?_cons_succ, List.getElem?_cons_succ,
        List.getElem?_cons_succ, List.getElem?_append_right (by simp), List.getElem?_append_right (by simp), length_leBytes,
        length_leBytes, Nat.add_sub_cancel]
      exact hkept

/-- The loop leaves a scan of its bytes. -/
theorem scannedX86_relocLoopX86 (table : HelperTable) (delta : BitVec 64) (bytes : List (BitVec 8)) :
    ScannedX86 table delta bytes (relocLoopX86 table delta bytes) := by
  classical
  fun_induction relocLoopX86 table delta bytes with
  | case1 rex opc b0 b1 b2 b3 b4 b5 b6 b7 rest hnone ih =>
    refine ih.keep ?_ ⟨Or.inl, ?_⟩
    · rintro ⟨addr, hc, -⟩
      exact nomatch hnone.symm.trans hc
    · rintro (hu | ⟨addr, hc⟩)
      · exact hu
      · exact nomatch hnone.symm.trans hc
  | case2 rex opc b0 b1 b2 b3 b4 b5 b6 b7 rest addr hsome hlookup r kept ih =>
    rw [relocLookupKnownHelper_eq, ite_eq_right_iff] at hlookup
    refine ih.keep ?_ ⟨fun _ => Or.inr ⟨addr, hsome⟩, fun _ => rfl⟩
    rintro ⟨addr', hc, hk⟩
    rw [hsome, Option.some.injEq] at hc
    exact nomatch hlookup (hc ▸ hk)
  | case3 rex opc b0 b1 b2 b3 b4 b5 b6 b7 rest addr hsome newAddr hlookup r ih =>
    rw [relocLookupKnownHelper_eq, Option.ite_none_right_eq_some, Option.some.injEq] at hlookup
    obtain ⟨hk, rfl⟩ := hlookup
    obtain ⟨rex', opc', rest', -, hlist⟩ := eq_of_movabsCallAddr hsome
    -- the ten bytes at the head are the constant behind the prefix and the opcode
    have hbytes : [b0, b1, b2, b3, b4, b5, b6, b7] = leBytes 8 addr.toNat ∧ rest = rest' := by
      have htail := (List.cons.inj (List.cons.inj hlist).2).2
      exact List.append_inj (show [b0, b1, b2, b3, b4, b5, b6, b7] ++ rest = _ from htail) (by simp)
    have heq : rex :: opc :: b0 :: b1 :: b2 :: b3 :: b4 :: b5 :: b6 :: b7 :: rest = rex :: opc :: (leBytes 8 addr.toNat ++ rest) := by
      rw [← hbytes.1]
      rfl
    rw [heq] at hsome ⊢
    exact ih.patch hsome hk _
  | case4 bytes hshort =>
    have hnone : ∀ i addr, ¬ FoundAt table delta bytes i addr := by
      rintro i addr ⟨-, hc⟩
      obtain ⟨rex, opc, rest, -, hlist⟩ := eq_of_movabsCallAddr hc
      have hlen := congrArg List.length hlist
      rw [List.length_drop, List.length_cons, List.length_cons, List.length_append, length_leBytes] at hlen
      match bytes, hshort with
      | rex :: opc :: b0 :: b1 :: b2 :: b3 :: b4 :: b5 :: b6 :: b7 :: rest, hshort =>
        exact hshort rex opc b0 b1 b2 b3 b4 b5 b6 b7 rest rfl
      | [], _ | [_], _ | [_, _], _ | [_, _, _], _ | [_, _, _, _], _ | [_, _, _, _, _], _ | [_, _, _, _, _, _], _
      | [_, _, _, _, _, _, _], _ | [_, _, _, _, _, _, _, _], _ | [_, _, _, _, _, _, _, _, _], _ =>
        simp only [List.length_cons, List.length_nil] at hlen
        omega
    exact ⟨rfl, ⟨(nomatch ·), fun ⟨i, addr, hf, _⟩ => absurd hf (hnone i addr)⟩,
      fun i addr hf _ => absurd hf (hnone i addr), fun _ _ => rfl⟩

/-! ## Constants before and after -/

/-- A constant stands behind the two bytes of its instruction. -/
theorem immAt_of_drop {bytes head tail : List (BitVec 8)} {i : Nat} {addr : BitVec 64} (hhead : head.length = 2)
    (h : bytes.drop i = head ++ (leBytes 8 addr.toNat ++ tail)) : ImmAt bytes i addr := by
  intro n hn
  have hget : (bytes.drop i)[2 + n]? = bytes[i + (2 + n)]? := List.getElem?_drop
  rw [← Nat.add_assoc, h, List.getElem?_append_right (by omega), hhead, Nat.add_sub_cancel_left,
    List.getElem?_append_left (by simpa using hn)] at hget
  exact hget.symm

/-- What is found has its constant in the code. -/
theorem foundAt_immAt {bytes : List (BitVec 8)} {i : Nat} {addr : BitVec 64} (h : FoundAt table delta bytes i addr) :
    ImmAt bytes i addr := by
  obtain ⟨rex, opc, rest, -, hlist⟩ := eq_of_movabsCallAddr h.2
  exact immAt_of_drop (show [rex, opc].length = 2 from rfl) hlist

/-- The bytes of a moved constant. -/
theorem leBytes_add_delta (addr delta : BitVec 64) : leBytes 8 (addr + delta).toNat = leBytes 8 (addr.toNat + delta.toNat) := by
  rw [BitVec.toNat_add, show 2 ^ 64 = 256 ^ 8 by norm_num, leBytes_mod]

/-- Below the lowest byte of the move a moved constant is as it was. -/
theorem immAt_add_eq {bytes bytes' : List (BitVec 8)} {p m n : Nat} {addr : BitVec 64} (h : ImmAt bytes p addr)
    (h' : ImmAt bytes' p (addr + delta)) (hm : 256 ^ m ∣ delta.toNat) (hnm : n < m) (hn : n < 8) :
    bytes'[p + 2 + n]? = bytes[p + 2 + n]? := by
  rw [h n hn, h' n hn, leBytes_add_delta]
  exact getElem?_leBytes_add hm _ hnm

/-- At the lowest byte of the move a moved constant has changed. -/
theorem immAt_add_ne {bytes bytes' : List (BitVec 8)} {p m : Nat} {addr : BitVec 64} (h : ImmAt bytes p addr)
    (h' : ImmAt bytes' p (addr + delta)) (hm8 : m < 8) (hm : 256 ^ m ∣ delta.toNat) (hm' : ¬ 256 ^ (m + 1) ∣ delta.toNat) :
    bytes'[p + 2 + m]? ≠ bytes[p + 2 + m]? := by
  rw [h m hm8, h' m hm8, leBytes_add_delta]
  exact getElem?_leBytes_add_ne hm8 hm hm' _

/-- A byte that has changed lies in a constant that was patched, not below the lowest byte of the move. -/
theorem ScannedX86.changed {bytes : List (BitVec 8)} {r : RelocScanX86} (h : ScannedX86 table delta bytes r) {m : Nat}
    (hm : 256 ^ m ∣ delta.toNat) {k : Nat} (hne : r.bytes[k]? ≠ bytes[k]?) :
    ∃ i addr, FoundAt table delta bytes i addr ∧ IsHelper table (addr + delta) ∧ i + 2 + m ≤ k ∧ k < i + 10 := by
  by_contra hno
  refine hne (h.kept k fun i addr hf hk => ?_)
  by_contra hin
  obtain ⟨n, rfl⟩ := Nat.exists_eq_add_of_le (show i + 2 ≤ k by omega)
  have hlow : n < m := by
    by_contra hge
    exact hno ⟨i, addr, hf, hk, by omega, by omega⟩
  exact hne (immAt_add_eq (foundAt_immAt hf) (h.patched i addr hf hk) hm hlow (by omega))

/-! ## The constants of the calls -/

/-- A call constant in the bytes of its buffer. -/
theorem callMovAt_drop {insns : List X86Insn} {p : Nat} {imm : BitVec 64} (h : CallMovAt insns p imm) :
    ∃ r x b rd rex op rm rest, regNum (rexB rex) rm = regNum b rd ∧ (assemble insns).drop p =
      (X86Insn.movImm64 r x b rd imm).encode ++ ((X86Insn.branch rex op rm).encode ++ rest) := by
  obtain ⟨pre, r, x, b, rd, rex, op, rm, post, rfl, hreg, rfl⟩ := h
  refine ⟨r, x, b, rd, rex, op, rm, assemble post, hreg, ?_⟩
  simp [assemble]

/-- A call constant is where its instruction says. -/
theorem callMovAt_immAt {insns : List X86Insn} {p : Nat} {imm : BitVec 64} (h : CallMovAt insns p imm) :
    ImmAt (assemble insns) p imm := by
  obtain ⟨r, x, b, rd, rex, op, rm, rest, -, hdrop⟩ := callMovAt_drop h
  rw [X86Insn.encode, List.append_assoc] at hdrop
  exact immAt_of_drop rfl hdrop

/-- A call constant lies in its buffer. -/
theorem callMovAt_lt_length {insns : List X86Insn} {p : Nat} {imm : BitVec 64} (h : CallMovAt insns p imm) :
    p < (assemble insns).length := by
  have hget := callMovAt_immAt h 0 (by decide)
  rw [List.getElem?_eq_getElem (l := leBytes 8 imm.toNat) (by simp)] at hget
  have := (List.getElem?_eq_some_iff.1 hget).1
  omega

/-- The instructions of two call constants do not overlap. -/
theorem callMovAt_separated {insns : List X86Insn} {p q : Nat} {imm imm' : BitVec 64} (h : CallMovAt insns p imm)
    (h' : CallMovAt insns q imm') (hpq : p < q) : p + 10 ≤ q := by
  obtain ⟨pre, r, x, b, rd, rex, op, rm, post, hins, -, rfl⟩ := h
  obtain ⟨pre', r', x', b', rd', rex', op', rm', post', hins', -, rfl⟩ := h'
  rw [hins] at hins'
  obtain ⟨as, rfl, htail⟩ | ⟨as, rfl, -⟩ := List.append_eq_append_iff.1 hins'
  · cases as with
    | nil => simp at hpq
    | cons a as =>
      rw [List.cons_append] at htail
      rw [← (List.cons.inj htail).1]
      simp [assemble, X86Insn.encode]
  · simp [assemble] at hpq

/-- A call constant behind one of the two prefixes is what a turn of the scan finds there. -/
theorem callMovAt_movabsCallAddr {insns : List X86Insn} {p : Nat} {imm : BitVec 64} (h : CallMovAt insns p imm)
    (hrex : (assemble insns)[p]? = some 0x48#8 ∨ (assemble insns)[p]? = some 0x49#8) :
    movabsCallAddr ((assemble insns).drop p) = some imm := by
  obtain ⟨r, x, b, rd, rex, op, rm, rest, hreg, hdrop⟩ := callMovAt_drop h
  have hget : ((assemble insns).drop p)[0]? = (assemble insns)[p + 0]? := List.getElem?_drop
  rw [hdrop, List.getElem?_append_left (by simp [X86Insn.encode]), Nat.add_zero] at hget
  rw [← hget] at hrex
  rw [hdrop]
  exact movabsCallAddr_encode rest hreg hrex

end RelocateX86Aux

end PgJitter
