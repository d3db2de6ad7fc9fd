import PgJitter.Lemmas.LikeClassify

/-!
# Simple LIKE patterns: the results
-/

namespace PgJitter

namespace LikeClassifyAux

open Assembly

variable {sz : StringZilla} {m : TextMemory} {p : Datum} {data literal : List Byte}

/-- An odd header byte other than that of an external value is the header of a short text. -/
theorem short_of_header (h : m.Holds p data) (hodd : (m.byte p).toNat % 2 = 1) (hne : (m.byte p).toNat ≠ 1) :
    data.length ≤ 126 ∧ (m.byte p).toNat = 2 * (data.length + 1) + 1 ∧ m.bytes (p + 1) data.length = data := by
  cases h with
  | plain h =>
    cases h with
    | short hlen header payload => exact ⟨hlen, header, payload⟩
    | long hlen header payload =>
      have hlow : m.leNat p 4 % 256 = (m.byte p).toNat := leNat_mod_byte m p 3
      omega
  | toasted ht h =>
    rw [Bool.or_eq_true, TextMemory.varattIs4BC, TextMemory.varattIs1BE, Nat.and_two_pow_sub_one_eq_mod _ 2, beq_iff_eq,
      beq_iff_eq] at ht
    omega

/-- The length that is computed from a short header. -/
theorem exhdrLen_eq {n : Nat} (hn : n ≤ 126) : (BitVec.ofNat 64 (2 * (n + 1) + 1) >>> 1) - 1 = BitVec.ofNat 64 n := by
  have hall : ∀ n ≤ 126, (BitVec.ofNat 64 (2 * (n + 1) + 1) >>> 1) - 1 = BitVec.ofNat 64 n := by decide
  exact hall n hn

/-- The comparison of a small length with an immediate. -/
theorem ult_ofNat {a b : Nat} (ha : a ≤ 126) (hb : b ≤ 8) : (BitVec.ofNat 64 a).ult (BitVec.ofNat 64 b) = decide (a < b) := by
  rw [BitVec.ult, BitVec.toNat_ofNat, BitVec.toNat_ofNat, Nat.mod_eq_of_lt (by omega), Nat.mod_eq_of_lt (by omega)]

/-- The first bytes of a text that is long enough. -/
theorem bytes_take (hpayload : m.bytes (p + 1) data.length = data) {n : Nat} (hn : n ≤ data.length) :
    m.bytes (p + 1) n = data.take n := by
  rw [← hpayload, TextMemory.bytes, TextMemory.bytes, ← List.map_take, List.take_range, Nat.min_eq_left hn]

/-- Every exit of the inline test leaves the answer of the helper. -/
theorem inlinePrefix_leaves (hm : m.Holds p data) (hlen : literal.length ≤ 8) (negate : Bool) (s : LikeState) :
    Leaves sz m p (emitInlinePrefix literal negate) 0 s (likeAnswer negate (simdLikeMatchText sz m p literal .prefixMatch = 1)) := by
  have hmatch : (decide (simdLikeMatchText sz m p literal .prefixMatch = 1)) = decide (literal <+: data) :=
    decide_eq_decide.2 (simdLikeMatchText_iff hm (fun h => nomatch h))
  unfold emitInlinePrefix
  generalize hmasked : decide (literal.length < 8) = masked
  have hhead : ∀ {k : Nat}, k < 9 → (emitPrefixTest literal masked negate).code[k]? = (headInstrs literal)[k]? :=
    code_head literal masked negate
  refine .next (hhead (by decide)) rfl (.next (hhead (by decide)) rfl ?_)
  refine .branch (l := 9 + masked.toNat + 5) (hhead (by decide)) rfl (by rw [target_emitPrefixTest]; cases masked <;> rfl)
    (fun _ => slow_leaves literal masked negate _) fun hclear => ?_
  refine .branch (l := 9 + masked.toNat + 5) (hhead (by decide)) rfl (by rw [target_emitPrefixTest]; cases masked <;> rfl)
    (fun _ => slow_leaves literal masked negate _) fun hexternal => ?_
  have hbyte := (m.byte p).toBitVec.isLt
  obtain ⟨hshort, header, payload⟩ : data.length ≤ 126 ∧ (m.byte p).toNat = 2 * (data.length + 1) + 1 ∧
      m.bytes (p + 1) data.length = data := by
    refine short_of_header hm ?_ ?_
    · by_contra hodd
      have hzero : BitVec.ofNat 64 (m.byte p).toNat &&& 0x01 = 0 := by
        refine BitVec.eq_of_toNat_eq ?_
        rw [BitVec.toNat_and, BitVec.toNat_ofNat, show (0x01 : Datum).toNat = 1 from rfl, Nat.and_one_is_mod,
          show (0 : Datum).toNat = 0 from rfl]
        omega
      exact absurd (beq_iff_eq.2 hzero) (by rw [hclear]; exact Bool.false_ne_true)
    · intro hone
      have hone : BitVec.ofNat 64 (m.byte p).toNat = 0x01 := by rw [hone]; rfl
      exact absurd (beq_iff_eq.2 hone) (by rw [hexternal]; exact Bool.false_ne_true)
  refine .next (hhead (by decide)) rfl (.next (hhead (by decide)) rfl ?_)
  simp only [header, exhdrLen_eq hshort]
  refine .branch (l := 9 + masked.toNat + 1) (hhead (by decide)) rfl (by rw [target_emitPrefixTest]; cases masked <;> rfl)
    (fun htooShort => ?_) fun _ => ?_
  · rw [ult_ofNat hshort hlen, decide_eq_true_eq] at htooShort
    have hnot : ¬literal <+: data := fun hpre => absurd hpre.length_le (Nat.not_le_of_lt htooShort)
    rw [hmatch, decide_eq_false hnot]
    exact noMatch_leaves literal masked negate _
  · refine .branch (l := 9 + masked.toNat + 5) (hhead (by decide)) rfl (by rw [target_emitPrefixTest]; cases masked <;> rfl)
      (fun _ => slow_leaves literal masked negate _) fun hlong => ?_
    have hlong : 8 ≤ data.length := by
      have hult := (ult_ofNat hshort (Nat.le_refl 8)).symm.trans hlong
      exact Nat.le_of_not_lt (of_decide_eq_false hult)
    refine .next (hhead (by decide)) rfl ?_
    have hload : m.leNat (p + 1) 8 = ByteMemory.leNat ((data.take 8).map UInt8.toBitVec) := by
      rw [TextMemory.leNat, bytes_take payload hlong]
    have hword := word_eq_iff (data.take 8) literal (by rw [List.length_take]; omega) hlen
    rw [← hload, List.prefix_take_iff, and_iff_left hlen] at hword
    have hend : ∀ (c : Bool) (s : LikeState) (imm : Datum), (c = true ↔ literal <+: data) →
        (emitPrefixTest literal masked negate).code[9 + masked.toNat]? = some (.cmpEqual imm) → (s.r1 == imm) = c →
        Leaves sz m p (emitPrefixTest literal masked negate) (9 + masked.toNat) s
          (likeAnswer negate (simdLikeMatchText sz m p literal .prefixMatch = 1)) := by
      intro c s imm hc hcode hcmp
      refine .branch (i := .cmpEqual imm) (c := c) (l := 9 + masked.toNat + 3) hcode (by rw [LikeInstr.exec, hcmp])
        (by rw [target_emitPrefixTest]; cases masked <;> rfl) (fun htrue => ?_) fun hfalse => ?_
      · rw [hmatch, decide_eq_true (hc.1 htrue)]
        exact match_leaves literal masked negate s
      · rw [hmatch, decide_eq_false fun hpre => absurd (hc.2 hpre) (by rw [hfalse]; exact Bool.false_ne_true)]
        exact noMatch_leaves literal masked negate s
    cases masked with
    | true =>
      rw [if_pos (of_decide_eq_true hmasked)] at hword
      refine .next (i := .and (likeMask literal.length)) (code_emitPrefixTest literal true negate ▸ rfl) rfl ?_
      exact hend _ _ (patImm literal &&& likeMask literal.length) (beq_iff_eq.trans hword) (code_tail literal _ negate 0) rfl
    | false =>
      rw [if_neg (of_decide_eq_false hmasked)] at hword
      exact hend _ _ (patImm literal) (beq_iff_eq.trans hword) (code_tail literal _ negate 0) rfl

end LikeClassifyAux

open Assembly LikeClassifyAux

/-- The shortcuts for simple patterns decide the language: the helper with the literal and the type that the classification gives;
a literal left out stands for a pattern that every subject matches; and the inline test of a short prefix leaves the answer of the
helper, or its negation, whatever the registers held. -/
theorem simd_like_classify_right (sz : StringZilla) (enc : DatabaseEncoding) (pattern : List Byte) :
    (∀ ty literal, simdLikeClassify enc pattern = some (ty, some literal) → ∀ (m : TextMemory) p data, m.Holds p data →
      (simdLikeMatchText sz m p literal ty = 1 ↔ SqlLike pattern data)) ∧
    (∀ ty, simdLikeClassify enc pattern = some (ty, none) → ∀ data, SqlLike pattern data) ∧
    ∀ literal, simdLikeClassify enc pattern = some (.prefixMatch, some literal) → 1 ≤ literal.length → literal.length ≤ 8 →
      ∀ negate (m : TextMemory) p data s, m.Holds p data →
        ∃ s', Runs (LikeInstr.exec sz m p) (emitInlinePrefix literal negate) (0, s) ((emitInlinePrefix literal negate).here, s') ∧
          s'.res = likeAnswer negate (simdLikeMatchText sz m p literal .prefixMatch = 1) := by
  refine ⟨?_, ?_, ?_⟩
  · intro ty literal hclassify m p data hm
    obtain ⟨literal', lead, trail, hshape, ⟨_, _, hnone⟩ | ⟨hfull, hsome, rfl⟩⟩ := simdLikeClassify_eq hclassify
    · cases hnone
    · cases hsome
      rw [hshape.sqlLike_iff_located]
      refine simdLikeMatchText_iff hm fun hinterior hempty => hfull ⟨hempty, ?_⟩
      cases lead <;> cases trail <;> simp [shapeType] at hinterior ⊢
  · intro ty hclassify data
    obtain ⟨literal, lead, trail, hshape, ⟨rfl, hpct, _⟩ | ⟨_, hsome, _⟩⟩ := simdLikeClassify_eq hclassify
    · rw [hshape.sqlLike_iff]
      cases lead with
      | true => exact ⟨data, [], by simp, fun h => absurd h.symm Bool.false_ne_true, fun _ => rfl⟩
      | false =>
        have htrail : trail = true := hpct.resolve_left Bool.false_ne_true
        exact ⟨[], data, rfl, fun _ => rfl, fun h => absurd (htrail.symm.trans h).symm Bool.false_ne_true⟩
    · cases hsome
  · intro literal _ _ hlen negate m p data s hm
    exact inlinePrefix_leaves hm hlen negate s

/-! ## A run -/

namespace LikeClassifyWitness

/-- The text `abcdefghi`. -/
def text : List Byte := [0x61, 0x62, 0x63, 0x64, 0x65, 0x66, 0x67, 0x68, 0x69]

/-- A memory with the text behind a short header. -/
def memory : TextMemory := ⟨fun a => (21 :: text).getD a.toNat 0, id⟩

theorem memory_holds : memory.Holds 0 text := .plain (.short (by decide) (by decide) (by decide))

/-- Registers with something left in them, and no result yet. -/
def before : LikeState := ⟨0xdead, 0xbeef, ⟨7, true⟩⟩

/-- The helper finds the text `LIKE 'ab%'`; every text is `LIKE '%'`; and the inline test of `NOT LIKE 'ab%'` runs to its end,
over the masked word of the first eight bytes, and leaves false. -/
theorem text_like_ab :
    simdLikeMatchText .naive memory 0 [0x61, 0x62] .prefixMatch = 1 ∧
    SqlLike [percentSign] text ∧
    ∃ s', Runs (LikeInstr.exec .naive memory 0) (emitInlinePrefix [0x61, 0x62] true) (0, before)
        ((emitInlinePrefix [0x61, 0x62] true).here, s') ∧
      s'.res = ⟨0, false⟩ := by
  obtain ⟨hhelper, _, hinline⟩ := simd_like_classify_right .naive ⟨4, true⟩ [0x61, 0x62, percentSign]
  have hmatch : simdLikeMatchText .naive memory 0 [0x61, 0x62] .prefixMatch = 1 :=
    (hhelper .prefixMatch [0x61, 0x62] (by decide) memory 0 text memory_holds).2
      (.literal 0x61 (by decide) (.literal 0x62 (by decide) (.percent (text.drop 2) .done)))
  refine ⟨hmatch, (simd_like_classify_right .naive ⟨4, true⟩ [percentSign]).2.1 .exactMatch (by decide) text, ?_⟩
  obtain ⟨s', hrun, hres⟩ := hinline [0x61, 0x62] (by decide) (by decide) (by decide) true memory 0 text before memory_holds
  exact ⟨s', hrun, by rw [hres, likeAnswer, decide_eq_true hmatch]; rfl⟩

end LikeClassifyWitness

end PgJitter
