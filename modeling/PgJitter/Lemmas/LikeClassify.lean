import PgJitter.LikeClassify
import PgJitter.Lemmas.LikePattern

/-!
# Helpers for `Theorems/LikeClassify.lean`: literals with a percent sign around them

What the classification found out about a pattern is its shape (`Shape`): the literal, and on which sides a `%` stands. The language
of a shape is said by where the literal is in the subject, which is also what the helper tests.
-/

namespace PgJitter
namespace LikeClassifyAux

open Glob Assembly

/-! ## The language of a shape -/

/-- A `%`, or nothing. -/
def percents (b : Bool) : List Byte := if b then [percentSign] else []

/-- A literal: none of its bytes is special. -/
def IsLiteral (literal : List Byte) : Prop := ∀ b ∈ literal, b ≠ percentSign ∧ b ≠ underscoreSign ∧ b ≠ backslash

/-- A literal with a `%` before it, after it, or both. -/
structure Shape (pattern literal : List Byte) (lead trail : Bool) : Prop where
  eq : pattern = percents lead ++ literal ++ percents trail
  literal : IsLiteral literal

/-- Without an escape every byte is decoded by its class. -/
theorem decodePattern_eq_map {p : List Byte} (h : ∀ b ∈ p, b ≠ backslash) : decodePattern p = some (p.map patCharOf) := by
  induction p with
  | nil => rfl
  | cons b p ih =>
    rw [decodePattern_cons (h b List.mem_cons_self), ih fun c hc => h c (List.mem_cons_of_mem _ hc), Option.map_some,
      List.map_cons]

/-- The tokens of a literal. -/
theorem map_tok_literal {literal : List Byte} (h : IsLiteral literal) :
    (literal.map patCharOf).map PatChar.tok = literal.map Tok.lit := by
  rw [List.map_map]
  refine List.map_congr_left fun b hb => ?_
  obtain ⟨hp, hu, _⟩ := h b hb
  rw [Function.comp_apply, patCharOf_literal hp hu]
  rfl

/-- A literal reads itself. -/
theorem matches_lits (literal s : List Byte) : Matches (literal.map Tok.lit) s ↔ s = literal := by
  induction literal generalizing s with
  | nil => exact Iff.rfl
  | cons b literal ih =>
    rw [List.map_cons, Matches]
    constructor
    · rintro ⟨s', rfl, h⟩
      rw [(ih s').1 h]
    · rintro rfl
      exact ⟨literal, rfl, (ih literal).2 rfl⟩

/-- What a `%`, or nothing, reads. -/
theorem matches_percents (b : Bool) (s : List Byte) :
    Matches (((percents b).map patCharOf).map PatChar.tok) s ↔ (b = false → s = []) := by
  cases b with
  | false => exact ⟨fun h _ => h, fun h => h rfl⟩
  | true => exact ⟨fun _ h => absurd h.symm Bool.false_ne_true, fun _ => ⟨s, [], (List.append_nil s).symm, rfl⟩⟩

/-- The language of a shape: the literal, and something around it where there is a `%`. -/
theorem Shape.sqlLike_iff {pattern literal : List Byte} {lead trail : Bool} (h : Shape pattern literal lead trail) (s : List Byte) :
    SqlLike pattern s ↔ ∃ s₁ s₂, s = s₁ ++ literal ++ s₂ ∧ (lead = false → s₁ = []) ∧ (trail = false → s₂ = []) := by
  have hpercents : ∀ b, ∀ c ∈ percents b, c ≠ backslash := by
    intro b c hc
    cases b with
    | false => exact absurd hc List.not_mem_nil
    | true =>
      rw [List.mem_singleton.1 hc]
      decide
  have hescape : ∀ b ∈ pattern, b ≠ backslash := by
    intro b hb
    rw [h.eq, List.append_assoc, List.mem_append, List.mem_append] at hb
    rcases hb with hb | hb | hb
    · exact hpercents _ _ hb
    · exact (h.literal b hb).2.2
    · exact hpercents _ _ hb
  rw [sqlLike_iff_matches (decodePattern_eq_map hescape), h.eq, List.map_append, List.map_append, List.map_append, List.map_append,
    matches_append]
  constructor
  · rintro ⟨s₁, s₂, rfl, h₁, h₂⟩
    obtain ⟨s₃, s₄, rfl, h₃, h₄⟩ := (matches_append _ _ _).1 h₁
    rw [map_tok_literal h.literal, matches_lits] at h₄
    exact ⟨s₃, s₂, by rw [h₄], (matches_percents lead s₃).1 h₃, (matches_percents trail s₂).1 h₂⟩
  · rintro ⟨s₁, s₂, rfl, h₁, h₂⟩
    refine ⟨s₁ ++ literal, s₂, rfl, (matches_append _ _ _).2 ⟨s₁, literal, rfl, (matches_percents lead s₁).2 h₁, ?_⟩,
      (matches_percents trail s₂).2 h₂⟩
    rw [map_tok_literal h.literal, matches_lits]

/-! ## The classification -/

/-- The type of a shape. -/
def shapeType (lead trail : Bool) : LikeMatchType :=
  match lead, trail with
  | false, false => .exactMatch
  | false, true => .prefixMatch
  | true, false => .suffixMatch
  | true, true => .interiorMatch

/-- The test for a byte at the end of a list. -/
theorem getLast_iff (l : List Byte) (c : Byte) : (l.length > 0 ∧ l[l.length - 1]? = some c) ↔ ∃ l', l = l' ++ [c] := by
  constructor
  · rintro ⟨hpos, hlast⟩
    rcases List.eq_nil_or_concat l with rfl | ⟨l', d, rfl⟩
    · exact absurd hpos (Nat.lt_irrefl 0)
    · rw [List.concat_eq_append, List.length_append, List.length_singleton, Nat.add_sub_cancel, List.getElem?_concat_length] at hlast
      exact ⟨l', by rw [List.concat_eq_append, Option.some.inj hlast]⟩
  · rintro ⟨l', rfl⟩
    rw [List.length_append, List.length_singleton, Nat.add_sub_cancel, List.getElem?_concat_length]
    exact ⟨Nat.succ_pos _, rfl⟩

/-- A list is cut at a byte at its end. -/
theorem exists_trail (l : List Byte) : ∃ literal trail, l = literal ++ percents trail ∧
    ((l.length > 0 ∧ l[l.length - 1]? = some percentSign) ↔ trail = true) := by
  by_cases h : ∃ l', l = l' ++ [percentSign]
  · obtain ⟨l', hl'⟩ := h
    exact ⟨l', true, hl', ⟨fun _ => rfl, fun _ => (getLast_iff l _).2 ⟨l', hl'⟩⟩⟩
  · exact ⟨l, false, (List.append_nil l).symm,
      ⟨fun hlast => absurd ((getLast_iff l _).1 hlast) h, fun hfalse => absurd hfalse Bool.false_ne_true⟩⟩

/-- What the tests of the classification find in a pattern. -/
theorem exists_parts (pattern : List Byte) : ∃ literal lead trail, pattern = percents lead ++ literal ++ percents trail ∧
    (pattern.head? = some percentSign ↔ lead = true) ∧
    ((pattern.length > (percents lead).length ∧ pattern[pattern.length - 1]? = some percentSign) ↔ trail = true) := by
  by_cases hlead : pattern.head? = some percentSign
  · obtain ⟨tail, rfl⟩ : ∃ tail, pattern = percentSign :: tail := by
      cases pattern with
      | nil => cases hlead
      | cons b tail => exact ⟨tail, by cases hlead; rfl⟩
    obtain ⟨literal, trail, htail, htrail⟩ := exists_trail tail
    refine ⟨literal, true, trail, ?_, ⟨fun _ => rfl, fun _ => rfl⟩, ?_⟩
    · rw [htail]
      rfl
    · have hpos : (percentSign :: tail).length > (percents true).length ↔ tail.length > 0 := by simp [percents]
      rw [← htrail, hpos]
      refine and_congr_right fun htail => ?_
      cases tail with
      | nil => exact absurd htail (Nat.lt_irrefl 0)
      | cons b tail => simp
  · obtain ⟨literal, trail, htail, htrail⟩ := exists_trail pattern
    exact ⟨literal, false, trail, htail, ⟨fun h => absurd h hlead, fun h => absurd h Bool.false_ne_true⟩, htrail⟩

/-- The classification finds the shape of a pattern, and drops the literal where it is empty beside a `%`. -/
theorem simdLikeClassify_eq {enc : DatabaseEncoding} {pattern : List Byte} {ty : LikeMatchType} {literal? : Option (List Byte)}
    (h : simdLikeClassify enc pattern = some (ty, literal?)) : ∃ literal lead trail, Shape pattern literal lead trail ∧
      ((literal = [] ∧ (lead = true ∨ trail = true) ∧ literal? = none) ∨
        (¬(literal = [] ∧ (lead = true ∨ trail = true)) ∧ literal? = some literal ∧ ty = shapeType lead trail)) := by
  obtain ⟨literal, lead, trail, hparts, hlead, htrail⟩ := exists_parts pattern
  have hstart : (if lead = true then 1 else 0) = (percents lead).length := by cases lead <;> rfl
  unfold simdLikeClassify at h
  simp only [hlead, hstart, htrail] at h
  have hstop : ((pattern.drop (percents lead).length).take
      ((if trail = true then pattern.length - 1 else pattern.length) - (percents lead).length)) = literal := by
    have hend : (if trail = true then pattern.length - 1 else pattern.length) = (percents lead).length + literal.length := by
      rw [hparts, List.length_append, List.length_append]
      cases trail <;> rfl
    rw [hend, Nat.add_sub_cancel_left, hparts, List.append_assoc, List.drop_left, List.take_left]
  rw [hstop] at h
  split at h
  · cases h
  · split at h
    · cases h
    · rename_i hspecial
      have hliteral : IsLiteral literal := by
        intro b hb
        by_contra hne
        refine hspecial (List.any_eq_true.2 ⟨b, hb, ?_⟩)
        rw [decide_eq_true_iff]
        tauto
      refine ⟨literal, lead, trail, ⟨hparts, hliteral⟩, ?_⟩
      simp only [List.length_eq_zero_iff] at h
      by_cases hempty : literal = [] ∧ (lead = true ∨ trail = true)
      · rw [if_pos hempty] at h
        cases h
        exact .inl ⟨hempty.1, hempty.2, rfl⟩
      · rw [if_neg hempty] at h
        refine .inr ⟨hempty, ?_⟩
        cases lead <;> cases trail <;> cases h <;> exact ⟨rfl, rfl⟩

/-! ## The helper -/

variable {m : TextMemory} {p : Datum} {data : List Byte}

/-- The first of the bytes from an address on. -/
theorem bytes_succ (m : TextMemory) (p : Datum) (n : Nat) : ∃ bs, m.bytes p (n + 1) = m.byte p :: bs ∧ bs.length = n := by
  refine ⟨(List.range n).map fun i => m.byte (p + BitVec.ofNat 64 (i + 1)), ?_, by simp⟩
  rw [TextMemory.bytes, List.range_succ_eq_map, List.map_cons, List.map_map]
  rw [show BitVec.ofNat 64 0 = 0#64 from rfl, BitVec.add_zero]
  rfl

/-- The low byte of a number in memory. -/
theorem leNat_mod_byte (m : TextMemory) (p : Datum) (n : Nat) : m.leNat p (n + 1) % 256 = (m.byte p).toNat := by
  obtain ⟨bs, hbs, _⟩ := bytes_succ m p n
  rw [TextMemory.leNat, hbs, List.map_cons, ByteMemory.leNat, Nat.add_mul_mod_self_left]
  exact Nat.mod_eq_of_lt (m.byte p).toBitVec.isLt

/-- A plain text is read as it is. -/
theorem read_plain (h : m.IsPlain p data) : m.bytes (m.vardataAny p) (m.varsizeAnyExhdr p) = data := by
  cases h with
  | short hlen header payload =>
    have h1B : m.varattIs1B p = true := by
      rw [TextMemory.varattIs1B, header, Nat.and_one_is_mod, beq_iff_eq]
      omega
    have hsize : (m.byte p).toNat >>> 1 - 1 = data.length := by
      rw [header, Nat.shiftRight_eq_div_pow, Nat.pow_one]
      omega
    rw [TextMemory.vardataAny, TextMemory.varsizeAnyExhdr, h1B, if_pos rfl, if_pos rfl, hsize, payload]
  | long hlen header payload =>
    have hlow := leNat_mod_byte m p 3
    rw [header] at hlow
    have h1B : m.varattIs1B p = false := by
      rw [TextMemory.varattIs1B, Nat.and_one_is_mod, beq_eq_false_iff_ne]
      omega
    have hsize : (m.leNat p 4 >>> 2 &&& 0x3fffffff) - 4 = data.length := by
      rw [header, Nat.shiftRight_eq_div_pow, Nat.and_two_pow_sub_one_eq_mod _ 30]
      omega
    rw [TextMemory.vardataAny, TextMemory.varsizeAnyExhdr, h1B, if_neg Bool.false_ne_true, if_neg Bool.false_ne_true, hsize,
      payload]

/-- A plain text is not toasted. -/
theorem datumGetTextPP_plain (h : m.IsPlain p data) : m.datumGetTextPP p = p := by
  have hlow : m.leNat p 4 % 256 = (m.byte p).toNat := leNat_mod_byte m p 3
  have hnot : (m.varattIs4BC p || m.varattIs1BE p) = false := by
    rw [TextMemory.varattIs4BC, TextMemory.varattIs1BE, Nat.and_two_pow_sub_one_eq_mod _ 2, Bool.or_eq_false_iff,
      beq_eq_false_iff_ne, beq_eq_false_iff_ne]
    cases h with
    | short hlen header payload => omega
    | long hlen header payload => omega
  rw [TextMemory.datumGetTextPP, hnot, if_neg Bool.false_ne_true]

/-- The text that a value holds is what the helper looks at. -/
theorem read_holds (h : m.Holds p data) :
    m.bytes (m.vardataAny (m.datumGetTextPP p)) (m.varsizeAnyExhdr (m.datumGetTextPP p)) = data := by
  cases h with
  | plain h => rw [datumGetTextPP_plain h, read_plain h]
  | toasted ht h => rw [TextMemory.datumGetTextPP, if_pos ht, read_plain h]

variable {sz : StringZilla} {literal : List Byte}

/-- Where the literal has to be in the subject. -/
def Located (literal data : List Byte) : LikeMatchType → Prop
  | .exactMatch => data = literal
  | .prefixMatch => literal <+: data
  | .suffixMatch => literal <:+ data
  | .interiorMatch => literal <:+: data

/-- The helper finds the literal where the type says. -/
theorem simdLikeMatchText_iff (h : m.Holds p data) {ty : LikeMatchType} (hne : ty = .interiorMatch → literal ≠ []) :
    simdLikeMatchText sz m p literal ty = 1 ↔ Located literal data ty := by
  unfold simdLikeMatchText
  simp only [read_holds h]
  cases ty with
  | exactMatch =>
    simp only [Located, Bool.and_eq_true, decide_eq_true_eq, ite_eq_left_iff, Nat.zero_ne_one, imp_false, not_not]
    constructor
    · rintro ⟨hlen, heq⟩
      exact (sz.equal_iff data literal hlen).1 heq
    · rintro rfl
      exact ⟨rfl, (sz.equal_iff data data rfl).2 rfl⟩
  | prefixMatch =>
    simp only [Located, Bool.and_eq_true, decide_eq_true_eq, beq_iff_eq, ite_eq_left_iff, Nat.zero_ne_one, imp_false, not_not]
    rw [List.prefix_iff_eq_take]
    exact ⟨fun hand => hand.2.symm, fun heq => ⟨by rw [heq]; simp, heq.symm⟩⟩
  | suffixMatch =>
    simp only [Located, Bool.and_eq_true, decide_eq_true_eq, beq_iff_eq, ite_eq_left_iff, Nat.zero_ne_one, imp_false, not_not]
    rw [List.suffix_iff_eq_drop]
    exact ⟨fun hand => hand.2.symm, fun heq => ⟨by rw [heq]; simp, heq.symm⟩⟩
  | interiorMatch =>
    simp only [Located, ite_eq_left_iff, Nat.zero_ne_one, imp_false, not_not]
    exact sz.find_isSome data literal (hne rfl)

/-- The language of a shape, by where the literal is. -/
theorem Shape.sqlLike_iff_located {pattern : List Byte} {lead trail : Bool} (h : Shape pattern literal lead trail)
    (data : List Byte) : SqlLike pattern data ↔ Located literal data (shapeType lead trail) := by
  rw [h.sqlLike_iff]
  cases lead <;> cases trail <;> simp [shapeType, Located, List.IsPrefix, List.IsSuffix, List.IsInfix, eq_comm]

/-! ## The inline test -/

/-- From a position on the code leaves a result. -/
def Leaves (sz : StringZilla) (m : TextMemory) (arg0 : Datum) (P : Program LikeInstr) (pc : Nat) (s : LikeState)
    (r : NullableDatum) : Prop := ∃ s', Runs (LikeInstr.exec sz m arg0) P (pc, s) (P.here, s') ∧ s'.res = r

section Emitted

variable {arg0 : Datum} {P : Program LikeInstr} {pc : Nat} {s s' : LikeState} {r : NullableDatum} {i : LikeInstr}

/-- The end of the code. -/
theorem leaves_here (hres : s.res = r) : Leaves sz m arg0 P P.here s r := ⟨s, .refl, hres⟩

/-- An instruction that falls through. -/
theorem Leaves.next (hi : P.code[pc]? = some i) (he : i.exec sz m arg0 s = .next s') (h : Leaves sz m arg0 P (pc + 1) s' r) :
    Leaves sz m arg0 P pc s r := by
  obtain ⟨t, hruns, hres⟩ := h
  exact ⟨t, Runs.next hi he hruns, hres⟩

/-- A jump. -/
theorem Leaves.jump {l : Nat} (hi : P.code[pc]? = some i) (he : i.exec sz m arg0 s = .jump s') (hl : P.target pc = some l)
    (h : Leaves sz m arg0 P l s' r) : Leaves sz m arg0 P pc s r := by
  obtain ⟨t, hruns, hres⟩ := h
  exact ⟨t, Runs.jump hi he hl hruns, hres⟩

/-- A conditional jump, by the paths after it. -/
theorem Leaves.branch {l : Nat} {c : Bool} (hi : P.code[pc]? = some i) (he : i.exec sz m arg0 s = likeJumpIf c s)
    (hl : P.target pc = some l) (htaken : c = true → Leaves sz m arg0 P l s r)
    (hnot : c = false → Leaves sz m arg0 P (pc + 1) s r) : Leaves sz m arg0 P pc s r := by
  cases c with
  | true => exact .jump hi he hl (htaken rfl)
  | false => exact .next hi he (hnot rfl)

variable (literal) (masked negate : Bool)

/-- The instructions up to the load of the payload. -/
def headInstrs (literal : List Byte) : List LikeInstr :=
  [.loadArg, .loadHeader, .jumpIfClear 0x01, .cmpEqual 0x01, .shiftRight 1, .sub 1, .cmpLess (BitVec.ofNat 64 literal.length),
    .cmpLess 8, .loadPayload]

/-- The code of the test. -/
theorem code_emitPrefixTest : (emitPrefixTest literal masked negate).code =
    headInstrs literal ++ ((if masked then [.and (likeMask literal.length)] else []) ++
      ([.cmpEqual (if masked then patImm literal &&& likeMask literal.length else patImm literal),
        .movR0 (if negate then 1 else 0), .jump, .movR0 (if negate then 0 else 1), .jump, .loadArg,
        .callMatchText literal .prefixMatch] ++ ((if negate then [.xorR0 1] else []) ++ [.storeRes]))) := by
  cases masked <;> cases negate <;> simp [emitPrefixTest, headInstrs, Program.empty]

/-- The labels of its jumps. -/
theorem target_emitPrefixTest (j : Nat) : (emitPrefixTest literal masked negate).target j =
    if j = 9 + masked.toNat + 4 then some (9 + masked.toNat + (7 + negate.toNat))
    else if j = 9 + masked.toNat + 2 then some (9 + masked.toNat + (7 + negate.toNat))
    else if j = 7 then some (9 + masked.toNat + 5)
    else if j = 3 then some (9 + masked.toNat + 5)
    else if j = 2 then some (9 + masked.toNat + 5)
    else if j = 9 + masked.toNat then some (9 + masked.toNat + 3)
    else if j = 6 then some (9 + masked.toNat + 1)
    else none := by
  cases masked <;> cases negate <;>
    simp [emitPrefixTest, Program.empty, Program.setLabels, Program.setLabel, Function.update_apply, Program.here]

/-- The first instructions are the same in all variants. -/
theorem code_head {k : Nat} (hk : k < 9) : (emitPrefixTest literal masked negate).code[k]? = (headInstrs literal)[k]? := by
  rw [code_emitPrefixTest, List.getElem?_append_left hk]

/-- The instructions after them. -/
theorem code_tail (k : Nat) : (emitPrefixTest literal masked negate).code[9 + masked.toNat + k]? =
    ([.cmpEqual (if masked then patImm literal &&& likeMask literal.length else patImm literal),
      .movR0 (if negate then 1 else 0), .jump, .movR0 (if negate then 0 else 1), .jump, .loadArg,
      .callMatchText literal .prefixMatch] ++ ((if negate then [.xorR0 1] else []) ++ [.storeRes]))[k]? := by
  have hlen : (headInstrs literal ++ if masked then [LikeInstr.and (likeMask literal.length)] else []).length = 9 + masked.toNat := by
    cases masked <;> rfl
  rw [code_emitPrefixTest, ← List.append_assoc, ← hlen, List.getElem?_append_right (Nat.le_add_right _ _), Nat.add_sub_cancel_left]

/-- The end of the three paths. -/
theorem store_leaves (s : LikeState) {b : Bool} (hpc : pc = 9 + masked.toNat + (7 + negate.toNat)) (h : s.r0 = boolGetDatum b) :
    Leaves sz m arg0 (emitPrefixTest literal masked negate) pc s ⟨boolGetDatum b, false⟩ := by
  subst hpc
  refine .next (i := .storeRes) ?_ rfl ?_
  · rw [code_tail]
    cases negate <;> rfl
  · have hhere : (emitPrefixTest literal masked negate).here = 9 + masked.toNat + (7 + negate.toNat) + 1 := by
      rw [Program.here, code_emitPrefixTest]
      cases masked <;> cases negate <;> rfl
    rw [← hhere]
    refine leaves_here ?_
    rw [h]

/-- The path for a subject that does not match. -/
theorem noMatch_leaves (s : LikeState) :
    Leaves sz m arg0 (emitPrefixTest literal masked negate) (9 + masked.toNat + 1) s (likeAnswer negate false) := by
  refine .next (code_tail literal masked negate 1) rfl ?_
  refine .jump (l := 9 + masked.toNat + (7 + negate.toNat)) (code_tail literal masked negate 2) rfl ?_ ?_
  · rw [target_emitPrefixTest]
    cases masked <;> rfl
  · exact store_leaves literal masked negate _ rfl (by cases negate <;> rfl)

/-- The path for a subject that matches. -/
theorem match_leaves (s : LikeState) :
    Leaves sz m arg0 (emitPrefixTest literal masked negate) (9 + masked.toNat + 3) s (likeAnswer negate true) := by
  refine .next (code_tail literal masked negate 3) rfl ?_
  refine .jump (l := 9 + masked.toNat + (7 + negate.toNat)) (code_tail literal masked negate 4) rfl ?_ ?_
  · rw [target_emitPrefixTest]
    cases masked <;> rfl
  · exact store_leaves literal masked negate _ rfl (by cases negate <;> rfl)

/-- The helper returns 0 or 1. -/
theorem simdLikeMatchText_eq (sz : StringZilla) (m : TextMemory) (p : Datum) (literal : List Byte) (ty : LikeMatchType) :
    BitVec.ofNat 64 (simdLikeMatchText sz m p literal ty) =
      boolGetDatum (decide (simdLikeMatchText sz m p literal ty = 1)) := by
  have hbit : ∀ c : Bool, BitVec.ofNat 64 (if c then 1 else 0) = boolGetDatum (decide ((if c then 1 else 0) = 1)) := by decide
  exact hbit _

/-- The path that calls the helper. -/
theorem slow_leaves (s : LikeState) : Leaves sz m arg0 (emitPrefixTest literal masked negate) (9 + masked.toNat + 5) s
    (likeAnswer negate (simdLikeMatchText sz m arg0 literal .prefixMatch = 1)) := by
  refine .next (code_tail literal masked negate 5) rfl (.next (code_tail literal masked negate 6) rfl ?_)
  cases negate with
  | false =>
    rw [likeAnswer, Bool.false_xor]
    exact store_leaves literal masked false _ rfl (simdLikeMatchText_eq ..)
  | true =>
    refine .next (code_tail literal masked true 7) rfl ?_
    have hxor : BitVec.ofNat 64 (simdLikeMatchText sz m arg0 literal .prefixMatch) ^^^ 1 =
        boolGetDatum (true ^^ (simdLikeMatchText sz m arg0 literal .prefixMatch = 1)) := by
      rw [simdLikeMatchText_eq]
      cases decide (simdLikeMatchText sz m arg0 literal .prefixMatch = 1) <;> rfl
    exact store_leaves literal masked true _ rfl hxor

end Emitted

/-! ## The comparison of words -/

theorem toNat_likeMask {n : Nat} (hn : n < 8) : (likeMask n).toNat = 2 ^ (8 * n) - 1 := by
  have hall : ∀ n < 8, (likeMask n).toNat = 2 ^ (8 * n) - 1 := by decide
  exact hall n hn

/-- The masked word of a number has its low bytes. -/
theorem and_likeMask {n : Nat} (hn : n < 8) (bs : List Byte) :
    (BitVec.ofNat 64 (ByteMemory.leNat (bs.map UInt8.toBitVec)) &&& likeMask n).toNat =
      ByteMemory.leNat ((bs.take n).map UInt8.toBitVec) := by
  rw [BitVec.toNat_and, toNat_likeMask hn, Nat.and_two_pow_sub_one_eq_mod, BitVec.toNat_ofNat,
    Nat.mod_mod_of_dvd _ (Nat.pow_dvd_pow 2 (by omega)), Nat.pow_mul, List.map_take]
  exact ByteMemory.leNat_mod _ n

/-- Byte strings of one length are equal when their numbers are. -/
theorem leNat_eq_iff {bs cs : List Byte} (hlen : bs.length = cs.length) :
    ByteMemory.leNat (bs.map UInt8.toBitVec) = ByteMemory.leNat (cs.map UInt8.toBitVec) ↔ bs = cs := by
  constructor
  · intro h
    have hmap := ByteMemory.leNat_injective (by simpa using hlen) h
    exact List.map_injective_iff.2 (fun a b hab => UInt8.toBitVec_inj.1 hab) hmap
  · rintro rfl
    rfl

/-- The comparison of the first eight bytes with the literal. -/
theorem word_eq_iff (bs literal : List Byte) (hbs : bs.length = 8) (hlen : literal.length ≤ 8) :
    (if literal.length < 8 then BitVec.ofNat 64 (ByteMemory.leNat (bs.map UInt8.toBitVec)) &&& likeMask literal.length =
        patImm literal &&& likeMask literal.length
      else BitVec.ofNat 64 (ByteMemory.leNat (bs.map UInt8.toBitVec)) = patImm literal) ↔ literal <+: bs := by
  rw [List.prefix_iff_eq_take]
  by_cases h8 : literal.length < 8
  · rw [if_pos h8, BitVec.toNat_eq, patImm, and_likeMask h8, and_likeMask h8, List.take_length,
      leNat_eq_iff (by rw [List.length_take]; omega), eq_comm]
  · have h8 : literal.length = 8 := by omega
    have hlt : ∀ cs : List Byte, cs.length = 8 → ByteMemory.leNat (cs.map UInt8.toBitVec) < 2 ^ 64 := by
      intro cs hcs
      have := ByteMemory.leNat_lt (cs.map UInt8.toBitVec)
      rwa [List.length_map, hcs] at this
    rw [if_neg (by omega), BitVec.toNat_eq, patImm, BitVec.toNat_ofNat, BitVec.toNat_ofNat, Nat.mod_eq_of_lt (hlt bs hbs),
      Nat.mod_eq_of_lt (hlt literal h8), leNat_eq_iff (hbs.trans h8.symm), h8, List.take_of_length_le hbs.le, eq_comm]

end LikeClassifyAux
end PgJitter
