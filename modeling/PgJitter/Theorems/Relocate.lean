import PgJitter.Lemmas.Relocate

/-!
# Relocation of ARM64 call sequences

The test for a call looks for the register of the constant in the low five bits of the next word, where `BLR` and `BR` have
zeros, and not in the field that names the register. It finds a call through `X0`, whatever register the branch goes through, and
a call through no other register. So a relocation that reports success is right exactly when the code has no call but those.
-/

namespace PgJitter

open RelocateAux

/-- After each sequence the low field of a branch word says what the scan takes it to say: a branch after a constant in `X0` goes
through `X0`, one after a constant in another register does not go through that register, and a word of the branch group that
names no instruction does not carry the register's number in its low field. -/
structure ReadAsMeant (insns : List Insn) : Prop where
  zero : ∀ i c op rn, SeqAt insns i 0#5 c → op = blrOp ∨ op = brOp → insns[i + 4]? = some (branchReg op rn 0#5) → rn = 0#5
  other : ∀ i d c op, d ≠ 0#5 → d.toNat ≤ 30 → SeqAt insns i d c → op = blrOp ∨ op = brOp →
    insns[i + 4]? ≠ some (branchReg op d 0#5)
  low : ∀ i d c op rn, d ≠ 0#5 → SeqAt insns i d c → op = blrOp ∨ op = brOp → insns[i + 4]? ≠ some (branchReg op rn d)

/-- Some sequence with its register's number in the low field of a branch word after it builds an address that no helper has. -/
def Refused (table : HelperTable) (delta : BitVec 64) (insns : List Insn) : Prop :=
  ∃ i d c op rn, SeqAt insns i d c ∧ (op = blrOp ∨ op = brOp) ∧ insns[i + 4]? = some (branchReg op rn d) ∧
    ¬ IsHelper table (c + delta)

/-- What the scan takes for a call, in fields. -/
theorem takenAt_iff {insns : List Insn} {i : Nat} {d : BitVec 5} {c : BitVec 64} :
    TakenAt insns i d c ↔ SeqAt insns i d c ∧ ∃ op rn, (op = blrOp ∨ op = brOp) ∧ insns[i + 4]? = some (branchReg op rn d) := by
  unfold TakenAt
  constructor
  · rintro ⟨hs, w, hw, hc⟩
    obtain ⟨rn, rfl | rfl⟩ := (isCallWord_iff d w).1 hc
    · exact ⟨hs, blrOp, rn, Or.inl rfl, hw⟩
    · exact ⟨hs, brOp, rn, Or.inr rfl, hw⟩
  · rintro ⟨hs, op, rn, rfl | rfl, hw⟩
    · exact ⟨hs, _, hw, (isCallWord_iff d _).2 ⟨rn, Or.inl rfl⟩⟩
    · exact ⟨hs, _, hw, (isCallWord_iff d _).2 ⟨rn, Or.inr rfl⟩⟩

/-- What a call is, in fields. -/
theorem callAt_iff {insns : List Insn} {i : Nat} {d : BitVec 5} {c : BitVec 64} :
    CallAt insns i d c ↔
      SeqAt insns i d c ∧ d.toNat ≤ 30 ∧ ∃ op, (op = blrOp ∨ op = brOp) ∧ insns[i + 4]? = some (branchReg op d 0#5) := by
  unfold CallAt
  constructor
  · rintro ⟨hs, hd, hw | hw⟩
    · exact ⟨hs, hd, blrOp, Or.inl rfl, hw⟩
    · exact ⟨hs, hd, brOp, Or.inr rfl, hw⟩
  · rintro ⟨hs, hd, op, rfl | rfl, hw⟩
    · exact ⟨hs, hd, Or.inl hw⟩
    · exact ⟨hs, hd, Or.inr hw⟩

/-- The condition is that the scan takes the calls, and nothing else, for calls. -/
theorem readAsMeant_iff (insns : List Insn) : ReadAsMeant insns ↔ ∀ i d c, TakenAt insns i d c ↔ CallAt insns i d c := by
  constructor
  · intro h i d c
    rw [takenAt_iff, callAt_iff]
    constructor
    · rintro ⟨hs, op, rn, hop, hw⟩
      by_cases hd : d = 0#5
      · subst hd
        have hrn := h.zero i c op rn hs hop hw
        subst hrn
        exact ⟨hs, by decide, op, hop, hw⟩
      · exact absurd hw (h.low i d c op rn hd hs hop)
    · rintro ⟨hs, hle, op, hop, hw⟩
      by_cases hd : d = 0#5
      · subst hd
        exact ⟨hs, op, _, hop, hw⟩
      · exact absurd hw (h.other i d c op hd hle hs hop)
  · intro h
    have word_inj : ∀ {op op' : BitVec 22} {rn rn' low low' : BitVec 5} {o : Option Insn},
        o = some (branchReg op rn low) → o = some (branchReg op' rn' low') → rn = rn' ∧ low = low' := by
      intro op op' rn rn' low low' o h1 h2
      rw [h1, Option.some.injEq, branchReg_inj] at h2
      exact h2.2
    refine ⟨?_, ?_, ?_⟩
    · intro i c op rn hs hop hw
      obtain ⟨-, -, op', -, hw'⟩ := callAt_iff.1 ((h i 0#5 c).1 (takenAt_iff.2 ⟨hs, op, rn, hop, hw⟩))
      exact (word_inj hw hw').1
    · intro i d c op hd hle hs hop hw
      obtain ⟨-, op', rn', -, hw'⟩ := takenAt_iff.1 ((h i d c).2 (callAt_iff.2 ⟨hs, hle, op, hop, hw⟩))
      exact hd (word_inj hw hw').2.symm
    · intro i d c op rn hd hs hop hw
      obtain ⟨-, -, op', -, hw'⟩ := callAt_iff.1 ((h i d c).1 (takenAt_iff.2 ⟨hs, op, rn, hop, hw⟩))
      exact hd (word_inj hw hw').2

/-- Refusing is what the flag reports. -/
theorem refused_iff (table : HelperTable) (delta : BitVec 64) (insns : List Insn) :
    Refused table delta insns ↔ (relocLoop table delta insns).unknownCallTarget = true := by
  rw [(scanned_relocLoop table delta insns).unknown]
  unfold Refused
  constructor
  · rintro ⟨i, d, c, op, rn, hs, hop, hw, hn⟩
    exact ⟨i, d, c, takenAt_iff.2 ⟨hs, op, rn, hop, hw⟩, hn⟩
  · rintro ⟨i, d, c, ht, hn⟩
    obtain ⟨hs, op, rn, hop, hw⟩ := takenAt_iff.1 ht
    exact ⟨i, d, c, op, rn, hs, hop, hw, hn⟩

/-- A relocation that fails promises nothing. -/
theorem relocated_of_neg {table : HelperTable} {delta : BitVec 64} {insns insns' : List Insn} {ret : ℤ} (h : ret < 0) :
    Relocated table delta insns insns' ret :=
  ⟨fun h0 => absurd h (Int.not_lt.2 h0), fun h0 => absurd h (Int.not_lt.2 h0), fun h0 => absurd h (Int.not_lt.2 h0),
    fun h0 => absurd h (Int.not_lt.2 h0), fun _ => h⟩

/-- A moved address is another one. -/
theorem add_delta_ne {delta : BitVec 64} (h : delta ≠ 0#64) (c : BitVec 64) : c + delta ≠ c := by
  intro hc
  exact h ((BitVec.add_right_eq_self).1 hc)

/-- The words of a scan that refuses nothing are a right relocation exactly when the calls, and nothing else, were taken. -/
theorem relocated_scan_iff {table : HelperTable} {delta : BitVec 64} (hdelta : delta ≠ 0#64) {insns : List Insn} {r : RelocScan}
    (h : Scanned table delta insns r) (hr : r.unknownCallTarget = false) (n : Nat) :
    Relocated table delta insns r.insns (n : ℤ) ↔ ∀ i d c, TakenAt insns i d c ↔ CallAt insns i d c := by
  have hn : (0 : ℤ) ≤ n := Int.natCast_nonneg n
  have hknown : ∀ i d c, TakenAt insns i d c → IsHelper table (c + delta) := by
    intro i d c ht
    by_contra hno
    have := h.unknown.2 ⟨i, d, c, ht, hno⟩
    rw [hr] at this
    exact nomatch this
  constructor
  · intro hrel i d c
    constructor
    · intro ht
      by_contra hno
      have h1 := hrel.others hn i d c ht.1 hno
      have h2 := h.patched i d c ht (hknown i d c ht)
      exact add_delta_ne hdelta c (seqAt_unique h2 h1).2
    · intro hc
      by_contra hno
      have h1 := (hrel.calls hn i d c hc).2
      have h2 := h.seqAt hc.1 (fun ht => absurd ht hno)
      exact add_delta_ne hdelta c (seqAt_unique h1 h2).2
  · intro hiff
    refine ⟨?_, ?_, fun _ => h.length, ?_, ?_⟩
    · intro _ i d c hc
      have ht := (hiff i d c).2 hc
      exact ⟨hknown i d c ht, h.patched i d c ht (hknown i d c ht)⟩
    · intro _ i d c hs hno
      exact h.seqAt hs (fun ht => absurd ((hiff i d c).1 ht) hno)
    · intro _ k w w' hw hw' b hb
      by_contra hno
      have hsame : r.insns[k]? = insns[k]? := by
        apply h.kept
        intro i d c ht hk
        by_contra hin
        obtain ⟨m, rfl⟩ := Nat.exists_eq_add_of_le (show i ≤ k by omega)
        have hm : m < 4 := by omega
        have h1 := seqAt_iff.1 ht.1 m hm
        have h2 := seqAt_iff.1 (h.patched i d c ht hk) m hm
        rw [hw] at h1
        rw [hw'] at h2
        obtain ⟨hb5, hb21⟩ := buildConst_bit h1.symm h2.symm hb
        exact hno ⟨i, d, c, (hiff i d c).1 ht, by omega, by omega, hb5, hb21⟩
      rw [hw, hw', Option.some.injEq] at hsame
      exact hb (by rw [hsame])
    · rintro ⟨i, d, c, hc, hno⟩
      exact absurd (hknown i d c ((hiff i d c).2 hc)) hno

/-- On ARM64, with the code of the whole buffer and two different reference addresses, `pg_jitter_relocate_dylib_addrs` keeps its
promise exactly when it fails, because a protection call does or because something it takes for a call has an unknown address, or
when the low fields after the sequences say what it takes them to say. -/
theorem relocate_right_iff (table : HelperTable) (mp : MProtect) (insns : List Insn) (leaderRefAddr workerRefAddr : BitVec 64)
    (h : leaderRefAddr ≠ workerRefAddr) :
    (∃ ret insns', relocateDylibAddrs table mp (some insns) (4 * insns.length) leaderRefAddr workerRefAddr = (ret, some insns') ∧
        Relocated table (workerRefAddr - leaderRefAddr) insns insns' ret) ↔
      (mp.toWrite = false ∨ mp.toExec = false ∨ Refused table (workerRefAddr - leaderRefAddr) insns) ∨ ReadAsMeant insns := by
  have hdelta : workerRefAddr - leaderRefAddr ≠ 0#64 := by
    intro h0
    have hadd := BitVec.sub_add_cancel workerRefAddr leaderRefAddr
    rw [h0, BitVec.zero_add] at hadd
    exact h hadd
  have hneg : ∀ insns', Relocated table (workerRefAddr - leaderRefAddr) insns insns' (-1) := fun insns' =>
    relocated_of_neg (by decide)
  unfold relocateDylibAddrs
  dsimp only
  rw [if_neg h, Nat.mul_div_cancel_left _ (by decide : 0 < 4), List.take_length, List.drop_length, List.append_nil,
    refused_iff, readAsMeant_iff]
  by_cases hw : mp.toWrite = true
  · by_cases hx : mp.toExec = true
    · rw [if_pos hw, if_pos hx]
      have hscan := scanned_relocLoop table (workerRefAddr - leaderRefAddr) insns
      cases hu : (relocLoop table (workerRefAddr - leaderRefAddr) insns).unknownCallTarget with
      | true => exact ⟨fun _ => Or.inl (Or.inr (Or.inr rfl)), fun _ => ⟨_, _, rfl, hneg _⟩⟩
      | false =>
        have hrel := relocated_scan_iff hdelta hscan hu (relocLoop table (workerRefAddr - leaderRefAddr) insns).patched
        constructor
        · rintro ⟨ret, insns', he, hr⟩
          cases he
          exact Or.inr (hrel.1 hr)
        · rintro ((h' | h' | h') | h')
          · exact absurd (hw.symm.trans h') (by decide)
          · exact absurd (hx.symm.trans h') (by decide)
          · exact nomatch h'
          · exact ⟨_, _, rfl, hrel.2 h'⟩
    · rw [if_pos hw, if_neg hx]
      exact ⟨fun _ => Or.inl (Or.inr (Or.inl (Bool.eq_false_iff.2 hx))), fun _ => ⟨_, _, rfl, hneg _⟩⟩
  · rw [if_neg hw]
    exact ⟨fun _ => Or.inl (Or.inl (Bool.eq_false_iff.2 hw)), fun _ => ⟨_, _, rfl, hneg _⟩⟩

namespace RelocateWitness

/-- One helper, at `0x1000` in the worker. -/
def table : HelperTable := ⟨[0x1000#64], []⟩

/-- The leader's address of the helper, `0xF00`, built in a register and called through it. -/
def callThrough (d : BitVec 5) : List Insn := buildConst d 0xF00#64 ++ [blr d]

/-- Both protection calls succeed. -/
def protects : MProtect := ⟨true, true⟩

/-- The only sequence of a call is the one it starts with. -/
theorem callThrough_seqAt {d d' : BitVec 5} {i : Nat} {c : BitVec 64} (h : SeqAt (callThrough d) i d' c) : i = 0 ∧ d' = d := by
  have h0 : SeqAt (callThrough d) 0 d 0xF00#64 := ⟨[blr d], rfl⟩
  have hi : i < 4 := by
    by_contra hge
    exact not_seqAt_of_length (show 5 < i + 4 by omega) h
  have hz := seqAt_disjoint h0 h (Nat.zero_le i) (by omega)
  subst hz
  exact ⟨rfl, (seqAt_unique h h0).1⟩

/-- A call through `X0` is relocated. -/
theorem call_through_x0 :
    (0#64 ≠ 0x100#64) ∧
      ∃ ret insns', relocateDylibAddrs table protects (some (callThrough 0)) (4 * (callThrough 0).length) 0 0x100 =
          (ret, some insns') ∧ Relocated table (0x100 - 0) (callThrough 0) insns' ret := by
  refine ⟨by decide, (relocate_right_iff table protects (callThrough 0) 0 0x100 (by decide)).2 (Or.inr ⟨?_, ?_, ?_⟩)⟩
  · intro i c op rn hs _ hw
    obtain ⟨rfl, -⟩ := callThrough_seqAt hs
    exact (branchReg_inj.1 (Option.some.inj hw)).2.1.symm
  · intro i d c op hd _ hs
    exact absurd (callThrough_seqAt hs).2 hd
  · intro i d c op rn hd hs
    exact absurd (callThrough_seqAt hs).2 hd

/-- A call through `X9` keeps the leader's address, and the relocation reports success. -/
theorem call_through_x9_kept :
    ¬ ∀ (table : HelperTable) (mp : MProtect) (insns : List Insn) (leaderRefAddr workerRefAddr : BitVec 64),
      leaderRefAddr ≠ workerRefAddr →
        ∃ ret insns', relocateDylibAddrs table mp (some insns) (4 * insns.length) leaderRefAddr workerRefAddr =
            (ret, some insns') ∧ Relocated table (workerRefAddr - leaderRefAddr) insns insns' ret := by
  intro h
  obtain ⟨ret, insns', he, hr⟩ := h table protects (callThrough 9) 0 0x100 (by decide)
  have hrun : relocateDylibAddrs table protects (some (callThrough 9)) (4 * (callThrough 9).length) 0 0x100 =
      (0, some (callThrough 9)) := by decide
  rw [hrun] at he
  cases he
  have hc : CallAt (callThrough 9) 0 9 0xF00#64 := ⟨⟨[blr 9], rfl⟩, by decide, Or.inl rfl⟩
  have hs := (hr.calls (by decide) 0 9 0xF00#64 hc).2
  have := seqAt_unique hs hc.1
  exact absurd this.2 (by decide)

end RelocateWitness

end PgJitter
