import PgJitter.Lemmas.RelocateX86

/-!
# Relocation of x86-64 call constants

The scan looks at every offset of the code and not at the instructions. A hit that is no call constant, at the immediate of
another `MOV` or across the end of an instruction, is patched like one when its eight bytes are the address of a known helper.
So a relocation that reports success is right exactly when what it patched are call constants, and all of them have a prefix
that it looks for.
-/

namespace PgJitter

open ByteMemory RelocateX86Aux

/-- Every call constant has one of the two prefixes that the scan looks for, and what the scan finds with the address of a known
helper is a call constant. -/
structure ReadAsInsns (table : HelperTable) (delta : BitVec 64) (insns : List X86Insn) : Prop where
  rex : ∀ p imm, CallMovAt insns p imm → (assemble insns)[p]? = some 0x48#8 ∨ (assemble insns)[p]? = some 0x49#8
  found : ∀ i addr, FoundAt table delta (assemble insns) i addr → IsHelper table (addr + delta) → ∃ imm, CallMovAt insns i imm

/-- The scan finds a call through an address that no helper has. -/
def RefusedX86 (table : HelperTable) (delta : BitVec 64) (bytes : List (BitVec 8)) : Prop :=
  ∃ i addr, FoundAt table delta bytes i addr ∧ ¬ IsHelper table (addr + delta)

/-- A relocation that fails promises nothing. -/
theorem relocatedX86_of_neg {table : HelperTable} {delta : BitVec 64} {insns : List X86Insn} {bytes' : List (BitVec 8)} {ret : ℤ}
    (h : ret < 0) : RelocatedX86 table delta insns bytes' ret :=
  ⟨fun h0 => absurd h (Int.not_lt.2 h0), fun h0 => absurd h (Int.not_lt.2 h0), fun h0 => absurd h (Int.not_lt.2 h0), fun _ => h⟩

section
variable {table : HelperTable} {delta : BitVec 64} {insns : List X86Insn} {r : RelocScanX86}

/-- When all that is patched are call constants, a call constant that has one of the prefixes is found. -/
theorem foundAt_of_callMovAt (h : ReadAsInsns table delta insns) {p : Nat} {imm : BitVec 64} (hc : CallMovAt insns p imm) :
    FoundAt table delta (assemble insns) p imm := by
  refine ⟨?_, callMovAt_movabsCallAddr hc (h.rex p imm hc)⟩
  rcases scanReaches_or_inside table delta p (assemble insns) (callMovAt_lt_length hc).le with hr | ⟨j, addr, hf, hk, hj, hin⟩
  · exact hr
  · obtain ⟨imm', hc'⟩ := h.found j addr hf hk
    have := callMovAt_separated hc' hc hj
    omega

/-- What is patched in a right relocation is a call constant: the earliest hit that is none would change a byte outside all of
them, or one that the move of an address leaves alone. -/
theorem callMovAt_of_found (hscan : ScannedX86 table delta (assemble insns) r) (hdelta : delta ≠ 0#64) {n : ℤ} (hn : 0 ≤ n)
    (hrel : RelocatedX86 table delta insns r.bytes n) (p : Nat) (addr : BitVec 64)
    (hf : FoundAt table delta (assemble insns) p addr) (hk : IsHelper table (addr + delta)) : ∃ imm, CallMovAt insns p imm := by
  have hd0 : delta.toNat ≠ 0 := fun h0 => hdelta (BitVec.eq_of_toNat_eq h0)
  obtain ⟨m, hm8, hm, hm'⟩ := exists_lowest_byte (w := 8) hd0 delta.isLt
  induction p using Nat.strong_induction_on generalizing addr with
  | _ p ih =>
    by_contra hno
    have hne := immAt_add_ne (foundAt_immAt hf) (hscan.patched p addr hf hk) hm8 hm hm'
    obtain ⟨g, imm, hg, hlow, hhigh⟩ := hrel.others hn _ hne
    have hnew := (hrel.calls hn g imm hg).2
    have hgne := immAt_add_ne (callMovAt_immAt hg) hnew hm8 hm hm'
    obtain ⟨j, addr', hfj, hkj, hjlow, hjhigh⟩ := hscan.changed hm hgne
    have hpg : p ≠ g := by
      rintro rfl
      exact hno ⟨imm, hg⟩
    rcases Nat.lt_or_ge j p with hjp | hpj
    · -- the hit before is a call constant, and it is the one at `g`
      obtain ⟨imm', hj⟩ := ih j hjp addr' hfj hkj
      rcases Nat.lt_or_ge j g with hjg | hgj
      · have := callMovAt_separated hj hg hjg
        omega
      · have := foundAt_separated hfj hkj hf.1 hjp
        omega
    · -- the constant at `g` begins after the hit, and the byte lies below what the move changes of it
      obtain ⟨k, rfl⟩ := Nat.exists_eq_add_of_le (show p ≤ g by omega)
      have hbelow : m - k < m := by omega
      have hsame := immAt_add_eq (callMovAt_immAt hg) hnew hm hbelow (by omega)
      rw [show p + k + 2 + (m - k) = p + 2 + m by omega] at hsame
      exact hne hsame

/-- The bytes of a scan that refuses nothing are a right relocation exactly when the code reads as its instructions. -/
theorem relocatedX86_scan_iff (hscan : ScannedX86 table delta (assemble insns) r) (hdelta : delta ≠ 0#64)
    (hr : ¬ RefusedX86 table delta (assemble insns)) {n : ℤ} (hn : 0 ≤ n) :
    RelocatedX86 table delta insns r.bytes n ↔ ReadAsInsns table delta insns := by
  constructor
  · intro hrel
    have hfound := callMovAt_of_found hscan hdelta hn hrel
    refine ⟨fun p imm hc => ?_, hfound⟩
    have hd0 : delta.toNat ≠ 0 := fun h0 => hdelta (BitVec.eq_of_toNat_eq h0)
    obtain ⟨m, hm8, hm, hm'⟩ := exists_lowest_byte (w := 8) hd0 delta.isLt
    have hne := immAt_add_ne (callMovAt_immAt hc) (hrel.calls hn p imm hc).2 hm8 hm hm'
    obtain ⟨j, addr, hf, hk, hlow, hhigh⟩ := hscan.changed hm hne
    obtain ⟨imm', hj⟩ := hfound j addr hf hk
    have hjp : j = p := by
      by_contra hjp
      have := callMovAt_separated hj hc (by omega)
      omega
    subst hjp
    obtain ⟨rex, opc, rest, hrex, hlist⟩ := eq_of_movabsCallAddr hf.2
    have hget : ((assemble insns).drop j)[0]? = (assemble insns)[j + 0]? := List.getElem?_drop
    rw [hlist, List.getElem?_cons_zero, Nat.add_zero] at hget
    rw [← hget, Option.some.injEq, Option.some.injEq]
    exact hrex
  · intro h
    have hhelper : ∀ p imm, CallMovAt insns p imm → IsHelper table (imm + delta) := by
      intro p imm hc
      by_contra hno
      exact hr ⟨p, imm, foundAt_of_callMovAt h hc, hno⟩
    refine ⟨fun _ p imm hc => ?_, fun _ => hscan.length, fun _ k hk => ?_, ?_⟩
    · exact ⟨hhelper p imm hc, hscan.patched p imm (foundAt_of_callMovAt h hc) (hhelper p imm hc)⟩
    · by_contra hno
      refine hk (hscan.kept k fun i addr hf hh => ?_)
      obtain ⟨imm, hc⟩ := h.found i addr hf hh
      by_contra hin
      exact hno ⟨i, imm, hc, by omega, by omega⟩
    · rintro ⟨p, imm, hc, hno⟩
      exact absurd (hhelper p imm hc) hno

end

/-- On x86-64, with a buffer of whole instructions and two different reference addresses, `pg_jitter_relocate_dylib_addrs` keeps
its promise exactly when it fails, because a protection call does or because it finds a call through an unknown address, or when
the code reads as its instructions. -/
theorem relocate_x86_right_iff (table : HelperTable) (mp : MProtect) (insns : List X86Insn) (leaderRefAddr workerRefAddr : BitVec 64)
    (h : leaderRefAddr ≠ workerRefAddr) :
    (∃ ret bytes', relocateDylibAddrsX86 table mp (some (assemble insns)) (assemble insns).length leaderRefAddr workerRefAddr =
          (ret, some bytes') ∧ RelocatedX86 table (workerRefAddr - leaderRefAddr) insns bytes' ret) ↔
      (mp.toWrite = false ∨ mp.toExec = false ∨ RefusedX86 table (workerRefAddr - leaderRefAddr) (assemble insns)) ∨
        ReadAsInsns table (workerRefAddr - leaderRefAddr) insns := by
  have hdelta : workerRefAddr - leaderRefAddr ≠ 0#64 := by
    intro h0
    have hadd := BitVec.sub_add_cancel workerRefAddr leaderRefAddr
    rw [h0, BitVec.zero_add] at hadd
    exact h hadd
  have hneg : ∀ bytes', RelocatedX86 table (workerRefAddr - leaderRefAddr) insns bytes' (-1) := fun bytes' =>
    relocatedX86_of_neg (by decide)
  have hscan := scannedX86_relocLoopX86 table (workerRefAddr - leaderRefAddr) (assemble insns)
  unfold relocateDylibAddrsX86
  dsimp only
  rw [if_neg h, List.take_length, List.drop_length, List.append_nil]
  by_cases hw : mp.toWrite = true
  · by_cases hx : mp.toExec = true
    · rw [if_pos hw, if_pos hx]
      by_cases hu : RefusedX86 table (workerRefAddr - leaderRefAddr) (assemble insns)
      · rw [if_pos (hscan.unknown.2 hu)]
        exact ⟨fun _ => Or.inl (Or.inr (Or.inr hu)), fun _ => ⟨_, _, rfl, hneg _⟩⟩
      · rw [if_neg (fun hflag => hu (hscan.unknown.1 hflag))]
        have hiff := relocatedX86_scan_iff hscan hdelta hu
          (Int.natCast_nonneg (relocLoopX86 table (workerRefAddr - leaderRefAddr) (assemble insns)).patched)
        constructor
        · rintro ⟨ret, bytes', he, hrel⟩
          cases he
          exact Or.inr (hiff.1 hrel)
        · rintro ((h' | h' | h') | h')
          · exact absurd (hw.symm.trans h') (by decide)
          · exact absurd (hx.symm.trans h') (by decide)
          · exact absurd h' hu
          · exact ⟨_, _, rfl, hiff.2 h'⟩
    · rw [if_pos hw, if_neg hx]
      exact ⟨fun _ => Or.inl (Or.inr (Or.inl (Bool.eq_false_iff.2 hx))), fun _ => ⟨_, _, rfl, hneg _⟩⟩
  · rw [if_neg hw]
    exact ⟨fun _ => Or.inl (Or.inl (Bool.eq_false_iff.2 hw)), fun _ => ⟨_, _, rfl, hneg _⟩⟩

namespace RelocateX86Witness

/-- One helper, at `0x1000` in the worker. -/
def table : HelperTable := ⟨[0x1000#64], []⟩

/-- Both protection calls succeed. -/
def protects : MProtect := ⟨true, true⟩

/-- The leader's address of the helper, `0xF00`, in `R9` and a call through it. -/
def callThroughR9 : List X86Insn := [.movImm64 false false true 1 0xF00#64, .branch (some (0, true)) .call 1]

/-- `MOV RCX, 0x0F00B848`, `ADD [RAX], AL`, `CALL RAX`: the last six bytes of the constant, the addition and the call read as
`MOV RAX, 0xF00` and a call through it. -/
def strayHit : List X86Insn := [.movImm64 false false false 1 0x0F00B848#64, .other [0x00#8, 0x00#8], .branch none .call 0]

/-- The call constant of `callThroughR9` is the one it starts with. -/
theorem callThroughR9_callMovAt : CallMovAt callThroughR9 0 0xF00#64 :=
  ⟨[], false, false, true, 1, some (0, true), .call, 1, [], rfl, rfl, rfl⟩

/-- The buffer ends before a second constant could. -/
theorem callThroughR9_length : (assemble callThroughR9).length = 13 := by decide

/-- A call through `R9` is relocated. -/
theorem call_through_r9 :
    (0#64 ≠ 0x100#64) ∧
      ∃ ret bytes', relocateDylibAddrsX86 table protects (some (assemble callThroughR9)) (assemble callThroughR9).length 0 0x100 =
          (ret, some bytes') ∧ RelocatedX86 table (0x100 - 0) callThroughR9 bytes' ret := by
  refine ⟨by decide, (relocate_x86_right_iff table protects callThroughR9 0 0x100 (by decide)).2 (Or.inr ⟨?_, ?_⟩)⟩
  · intro p imm hc
    have hlast := callMovAt_immAt hc 7 (by decide)
    rw [List.getElem?_eq_getElem (l := leBytes 8 imm.toNat) (by simp)] at hlast
    have hlt := (List.getElem?_eq_some_iff.1 hlast).1
    rw [callThroughR9_length] at hlt
    rcases Nat.eq_zero_or_pos p with rfl | hpos
    · exact Or.inr (by decide)
    · have := callMovAt_separated callThroughR9_callMovAt hc hpos
      omega
  · intro i addr hf hk
    have hlast := foundAt_immAt hf 7 (by decide)
    rw [List.getElem?_eq_getElem (l := leBytes 8 addr.toNat) (by simp)] at hlast
    have hlt := (List.getElem?_eq_some_iff.1 hlast).1
    rw [callThroughR9_length] at hlt
    rcases Nat.eq_zero_or_pos i with rfl | hpos
    · exact ⟨_, callThroughR9_callMovAt⟩
    · have hfirst : FoundAt table (0x100 - 0) (assemble callThroughR9) 0 0xF00#64 := foundAt_zero.2 (by decide)
      have := foundAt_separated hfirst ⟨by decide, by decide⟩ hf.1 hpos
      omega

/-- The constant of `strayHit` is no call constant. -/
theorem strayHit_not_callMovAt (p : Nat) (imm : BitVec 64) : ¬ CallMovAt strayHit p imm := by
  rintro ⟨pre, r, x, b, rd, rex, op, rm, post, hins, -, -⟩
  match pre with
  | [] => simp [strayHit] at hins
  | [_] => simp [strayHit] at hins
  | [_, _] => simp [strayHit] at hins
  | _ :: _ :: _ :: _ => simp [strayHit] at hins

/-- The constant of a `MOV` that no call uses is changed, and the relocation reports success. -/
theorem stray_hit_patched :
    ∃ (table : HelperTable) (mp : MProtect) (insns : List X86Insn) (leaderRefAddr workerRefAddr : BitVec 64),
      leaderRefAddr ≠ workerRefAddr ∧
        ∀ ret bytes', relocateDylibAddrsX86 table mp (some (assemble insns)) (assemble insns).length leaderRefAddr workerRefAddr =
            (ret, some bytes') → ¬ RelocatedX86 table (workerRefAddr - leaderRefAddr) insns bytes' ret := by
  refine ⟨table, protects, strayHit, 0, 0x100, by decide, fun ret bytes' hrun hrel => ?_⟩
  have hout : relocateDylibAddrsX86 table protects (some (assemble strayHit)) (assemble strayHit).length 0 0x100 =
      (1, some [0x48, 0xB9, 0x48, 0xB8, 0x00, 0x10, 0x00, 0x00, 0x00, 0x00, 0x00, 0x00, 0xFF, 0xD0]) := by decide
  rw [hout] at hrun
  cases hrun
  obtain ⟨p, imm, hc, -, -⟩ := hrel.others (by decide) 5 (by decide)
  exact strayHit_not_callMovAt p imm hc

end RelocateX86Witness

end PgJitter
