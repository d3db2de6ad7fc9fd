import PgJitter.HashedSaop
import Mathlib.Data.List.Nodup

/-!
# The parts of the IN list code

The extraction of the constants, the paths at the end of the code, the SIMD scan and the hash probe, each by what it computes.
-/

namespace PgJitter

open Assembly

namespace HashedSaopAux

/-- The low bits of a sign extension. -/
theorem setWidth_signExtend {w n : Nat} (h : w ≤ n) (v : BitVec w) : (v.signExtend n).setWidth w = v := by
  ext i hi
  have hn : i < n := by omega
  simp only [BitVec.getElem_setWidth, BitVec.getLsbD_signExtend, hn, decide_true, Bool.true_and, hi, if_true]
  exact BitVec.getLsbD_eq_getElem hi

/-- The low bits of a zero extension. -/
theorem setWidth_setWidth {w n : Nat} (h : w ≤ n) (v : BitVec w) : (v.setWidth n).setWidth w = v := by
  rw [BitVec.setWidth_setWidth_of_le v h, BitVec.setWidth_eq]

/-! ### The extraction -/

section Extract

variable {fn : EqFn} {arr : ArrayType (8 * fn.typlen)} {elems : List (Option fn.Value)}

/-- The values that are not null. -/
abbrev nonNull {α : Type} (elems : List (Option α)) : List α := elems.filterMap id

theorem nonNull_append_none {α : Type} (l : List (Option α)) : nonNull (l ++ [none]) = nonNull l := by
  rw [nonNull, List.filterMap_append, List.filterMap_cons_none rfl, List.filterMap_nil, List.append_nil]

theorem nonNull_append_some {α : Type} (l : List (Option α)) (v : α) : nonNull (l ++ [some v]) = nonNull l ++ [v] := by
  rw [nonNull, List.filterMap_append]
  rfl

/-- The aligned end of the item at `m` items is the offset of the next one. -/
theorem attAlignNominal_item (m len : Nat) : attAlignNominal (m * len + len) len = (m + 1) * len := by
  rcases Nat.eq_zero_or_pos len with rfl | hpos
  · simp [attAlignNominal]
  · have hdiv : (m * len + len + len - 1) / len = m + 1 := by
      rw [show m * len + len + len - 1 = (len - 1) + len * (m + 1) by rw [Nat.mul_comm len, Nat.succ_mul]; omega,
        Nat.add_mul_div_left _ _ hpos, Nat.div_eq_of_lt (by omega), Nat.zero_add]
    rw [attAlignNominal, hdiv]

/-- The test of a bit of the null bitmap. -/
theorem and_bit_eq_zero (n k : Nat) : ((n &&& 2 ^ k) == 0) = !n.testBit k := by
  cases hbit : n.testBit k with
  | true =>
    have hne : n &&& 2 ^ k ≠ 0 := by
      intro h
      have := congrArg (Nat.testBit · k) h
      simp [Nat.testBit_and, hbit] at this
    rw [Bool.not_true, beq_eq_false_iff_ne]
    exact hne
  | false =>
    have heq : n &&& 2 ^ k = 0 := by
      refine Nat.eq_of_testBit_eq fun i => ?_
      rw [Nat.testBit_and, Nat.testBit_two_pow, Nat.zero_testBit]
      by_cases hi : k = i
      · rw [← hi, hbit, Bool.false_and]
      · rw [decide_eq_false hi, Bool.and_false]
    rw [heq]
    rfl

/-- The state of the loop after `k` items. -/
def extractAt (charIsSigned : Bool) (arr : ArrayType (8 * fn.typlen)) (elems : List (Option fn.Value)) (k : Nat) :
    ExtractState where
  bitmap := if arr.nullBitmap = none then 0 else k / 8
  bitmask := if arr.nullBitmap = none then 1 else 2 ^ (k % 8)
  s := (nonNull (elems.take k)).length * fn.typlen
  vals := (nonNull (elems.take k)).map (fetchAtt charIsSigned fn)
  hasNulls := (elems.take k).any (·.isNone)

/-- The null test of the item at `k`. -/
theorem itemIsNull_extractAt (h : arr.Holds elems) {charIsSigned : Bool} {k : Nat} {e : Option fn.Value}
    (he : elems[k]? = some e) : arr.itemIsNull (extractAt charIsSigned arr elems k) = e.isNone := by
  unfold ArrayType.itemIsNull
  split
  · rename_i hnone
    have := h.no_bitmap hnone e (List.mem_of_getElem? he)
    cases e with
    | none => exact absurd this Bool.false_ne_true
    | some v => rfl
  · rename_i bytes hsome
    have hbit := h.bit bytes hsome k e he
    simp only [extractAt, hsome, reduceCtorEq, if_false, and_bit_eq_zero, hbit]
    cases e <;> rfl

/-- A mask that is shifted out of its byte stands at the first bit of the next byte, any other at the next bit of its own. -/
theorem next_bit (k : Nat) :
    (2 ^ (k % 8) <<< 1 = 0x100 ∧ (k + 1) / 8 = k / 8 + 1 ∧ 2 ^ ((k + 1) % 8) = 1) ∨
      (2 ^ (k % 8) <<< 1 ≠ 0x100 ∧ (k + 1) / 8 = k / 8 ∧ 2 ^ ((k + 1) % 8) = 2 ^ (k % 8) <<< 1) := by
  have hshift : 2 ^ (k % 8) <<< 1 = 2 ^ (k % 8 + 1) := by rw [Nat.shiftLeft_eq, Nat.pow_one, Nat.pow_succ]
  rw [hshift]
  by_cases hlast : k % 8 = 7
  · exact .inl ⟨by rw [hlast]; decide, by omega, by rw [show (k + 1) % 8 = 0 by omega, Nat.pow_zero]⟩
  · refine .inr ⟨fun h => ?_, by omega, by rw [show (k + 1) % 8 = k % 8 + 1 by omega]⟩
    have := Nat.pow_right_injective (Nat.le_refl 2) (h.trans (by decide : (0x100 : Nat) = 2 ^ 8))
    omega

/-- The move to the next bit. -/
theorem nextBit_eq (charIsSigned : Bool) (elems : List (Option fn.Value)) (k : Nat) {st : ExtractState}
    (hb : st.bitmap = (extractAt charIsSigned arr elems k).bitmap)
    (hm : st.bitmask = (extractAt charIsSigned arr elems k).bitmask) :
    arr.nextBit st = { st with
      bitmap := (extractAt charIsSigned arr elems (k + 1)).bitmap
      bitmask := (extractAt charIsSigned arr elems (k + 1)).bitmask } := by
  obtain ⟨b, m, off, vals, nulls⟩ := st
  simp only [extractAt] at hb hm
  unfold ArrayType.nextBit
  cases hbm : arr.nullBitmap with
  | none =>
    simp only [hbm, if_true] at hb hm
    simp only [extractAt, hbm, if_true, hb, hm]
  | some bytes =>
    simp only [hbm, reduceCtorEq, if_false] at hb hm
    simp only [extractAt, hbm, reduceCtorEq, if_false, hb, hm]
    rcases next_bit k with ⟨hlast, hbyte, hbit⟩ | ⟨hne, hbyte, hbit⟩
    · rw [if_pos hlast, hbyte, hbit]
    · rw [if_neg hne, hbyte, hbit]

/-- One turn of the loop. -/
theorem extractStep_extractAt (h : arr.Holds elems) (charIsSigned : Bool) {k : Nat} (hk : k < elems.length) :
    arr.extractStep charIsSigned (extractAt charIsSigned arr elems k) = extractAt charIsSigned arr elems (k + 1) := by
  have he : elems[k]? = some elems[k] := List.getElem?_eq_getElem hk
  have htake : elems.take (k + 1) = elems.take k ++ [elems[k]] := List.take_succ_eq_append_getElem hk
  rw [ArrayType.extractStep, itemIsNull_extractAt h he]
  cases hel : elems[k] with
  | none =>
    rw [Option.isNone_none, if_pos rfl]
    refine Eq.trans (nextBit_eq charIsSigned elems k (by rfl) (by rfl)) ?_
    rw [extractAt, htake, hel, nonNull_append_none, List.any_append, List.any_cons, Option.isNone_none, Bool.true_or,
      Bool.or_true]
    rfl
  | some v =>
    rw [Option.isNone_some, if_neg Bool.false_ne_true]
    refine Eq.trans (nextBit_eq charIsSigned elems k (by rfl) (by rfl)) ?_
    have hload := h.value k v (by rw [he, hel])
    rw [extractAt, htake, hel, nonNull_append_some, List.any_append, List.any_cons, Option.isNone_some, List.any_nil,
      Bool.or_false, Bool.or_false, List.length_append, List.length_singleton, List.map_append, List.map_singleton]
    simp only [ExtractState.mk.injEq, true_and]
    refine ⟨attAlignNominal_item _ _, ?_, rfl⟩
    rw [extractAt, hload]

/-- The loop reads the values that are not null, in order, and whether there is a null. -/
theorem extract_eq (h : arr.Holds elems) (charIsSigned : Bool) :
    (arr.extract charIsSigned).vals = (nonNull elems).map (fetchAtt charIsSigned fn) ∧
      (arr.extract charIsSigned).hasNulls = elems.any (·.isNone) := by
  have hloop : ∀ k ≤ elems.length,
      (arr.extractStep charIsSigned)^[k] ⟨0, 1, 0, [], false⟩ = extractAt charIsSigned arr elems k := by
    intro k
    induction k with
    | zero => intro _; simp [extractAt]
    | succ k ih =>
      intro hk
      rw [Function.iterate_succ_apply', ih (by omega), extractStep_extractAt h charIsSigned hk]
  rw [ArrayType.extract, h.nitems_eq, hloop _ (Nat.le_refl _)]
  simp only [extractAt, List.take_length, and_self]

end Extract

/-! ### The paths at the end -/

theorem target_setLabels {I : Type} (P : Program I) (js : List Nat) (l j : Nat) :
    (P.setLabels js l).target j = if j ∈ js then some l else P.target j := by
  by_cases h : j ∈ js
  · rw [if_pos h, P.target_setLabels_of_mem h]
  · rw [if_neg h, P.target_setLabels_of_not_mem h]

section Results

variable (P : SaopProgram) (first second : NullableDatum) (js₁ js₂ js₃ : List Nat)

theorem code_emitResults : (emitResults P first second js₁ js₂ js₃).code = P.code ++
    (storeResult first ++ [.jump] ++ storeResult second ++ [.jump] ++ storeResult ⟨0, true⟩ ++ [.jump]) := by
  simp only [emitResults, Program.code_setLabels, Program.code_emit, List.append_assoc]

theorem here_emitResults : (emitResults P first second js₁ js₂ js₃).here = P.here + 9 := by
  rw [Program.here, code_emitResults, List.length_append]
  rfl

/-- The labels of the jumps before the paths. -/
theorem target_emitResults {j : Nat} (hj : j < P.here) : (emitResults P first second js₁ js₂ js₃).target j =
    if j ∈ js₃ then some (P.here + 6) else if j ∈ js₂ then some (P.here + 3) else if j ∈ js₁ then some P.here
    else P.target j := by
  have hdone : j ∉ [P.here + 2, P.here + 3 + 2, P.here + 6 + 2] := by
    simp only [List.mem_cons, List.not_mem_nil, or_false, not_or]
    omega
  simp only [emitResults, storeResult, target_setLabels, Program.target_emit, Program.here_emit, Program.here_setLabels,
    List.length_cons, List.length_nil, Nat.zero_add, Nat.reduceAdd, Nat.add_assoc, hdone, if_false] at hdone ⊢

/-- The jumps that end the paths. -/
theorem target_emitResults_done {k : Nat} (hk : k = 2 ∨ k = 5 ∨ k = 8) :
    (emitResults P first second js₁ js₂ js₃).target (P.here + k) = some (P.here + 9) := by
  have hdone : P.here + k ∈ [P.here + 2, P.here + 5, P.here + 8] := by
    simp only [List.mem_cons, List.not_mem_nil, or_false]
    omega
  simp only [emitResults, storeResult, target_setLabels, Program.here_emit, Program.here_setLabels, List.length_cons,
    List.length_nil, Nat.zero_add, Nat.reduceAdd, Nat.add_assoc, hdone, if_true]

/-- The code before the paths stays. -/
theorem getElem?_emitResults {j : Nat} {i : SaopInstr} (h : P.code[j]? = some i) :
    (emitResults P first second js₁ js₂ js₃).code[j]? = some i := by
  rw [code_emitResults, List.getElem?_append_left (Program.lt_here h)]
  exact h

/-- The code of the paths. -/
theorem getElem?_emitResults_here (k : Nat) : (emitResults P first second js₁ js₂ js₃).code[P.here + k]? =
    (storeResult first ++ [.jump] ++ storeResult second ++ [.jump] ++ storeResult ⟨0, true⟩ ++ [.jump])[k]? := by
  rw [code_emitResults, Program.here, List.getElem?_append_right (Nat.le_add_right _ _), Nat.add_sub_cancel_left]

/-- A path stores its result and goes to the end. -/
theorem runs_path {Q : SaopProgram} {r : NullableDatum} {p q : Nat} (arg : NullableDatum) (s : SaopState)
    (hvalue : Q.code[p]? = some (.storeResvalueImm r.value)) (hnull : Q.code[p + 1]? = some (.storeResnull r.isnull))
    (hjump : Q.code[p + 2]? = some .jump) (htarget : Q.target (p + 2) = some q) :
    Runs (SaopInstr.exec arg) Q (p, s) (q, { s with res := r }) :=
  .next hvalue rfl (.next hnull rfl (.jump hjump rfl htarget .refl))

variable (arg : NullableDatum) (s : SaopState)

theorem runs_first : Runs (SaopInstr.exec arg) (emitResults P first second js₁ js₂ js₃) (P.here, s)
    ((emitResults P first second js₁ js₂ js₃).here, { s with res := first }) := by
  rw [here_emitResults]
  have hcode := getElem?_emitResults_here P first second js₁ js₂ js₃
  exact runs_path arg s (hcode 0) (hcode 1) (hcode 2) (target_emitResults_done P first second js₁ js₂ js₃ (Or.inl rfl))

theorem runs_second : Runs (SaopInstr.exec arg) (emitResults P first second js₁ js₂ js₃) (P.here + 3, s)
    ((emitResults P first second js₁ js₂ js₃).here, { s with res := second }) := by
  rw [here_emitResults]
  have hcode := getElem?_emitResults_here P first second js₁ js₂ js₃
  exact runs_path arg s (hcode 3) (hcode 4) (hcode 5)
    (target_emitResults_done P first second js₁ js₂ js₃ (Or.inr (Or.inl rfl)))

theorem runs_null : Runs (SaopInstr.exec arg) (emitResults P first second js₁ js₂ js₃) (P.here + 6, s)
    ((emitResults P first second js₁ js₂ js₃).here, { s with res := ⟨0, true⟩ }) := by
  rw [here_emitResults]
  have hcode := getElem?_emitResults_here P first second js₁ js₂ js₃
  exact runs_path (r := ⟨0, true⟩) arg s (hcode 6) (hcode 7) (hcode 8)
    (target_emitResults_done P first second js₁ js₂ js₃ (Or.inr (Or.inr rfl)))

end Results

/-! ### The result of a run -/

/-- The result for an argument, when the code finds the scalar or not. -/
def resultOf (inclause arrayHasNulls : Bool) (arg : NullableDatum) (hit : Prop) [Decidable hit] : NullableDatum :=
  if arg.isnull then ⟨0, true⟩ else if hit then foundResult inclause else notFoundResult inclause arrayHasNulls

/-- The code stores the result of finding the scalar or not. -/
def Stores (P : SaopProgram) (inclause arrayHasNulls : Bool) (arg : NullableDatum) (hit : Prop) [Decidable hit] : Prop :=
  ∀ s, ∃ s', Runs (SaopInstr.exec arg) P (0, s) (P.here, s') ∧ s'.res = resultOf inclause arrayHasNulls arg hit

/-- The test of the scalar's null flag comes first and leads to the last path; it remains to follow the code after it. -/
theorem stores_of_body {P : SaopProgram} {first second : NullableDatum} {js₁ js₂ : List Nat} {inclause arrayHasNulls : Bool}
    {arg : NullableDatum} {hit : Prop} [Decidable hit] (hnull : P.code[0]? = some .cmpArgIsnull)
    (hbody : arg.isnull = false → ∀ s, ∃ s', Runs (SaopInstr.exec arg) (emitResults P first second js₁ js₂ [0]) (1, s)
      ((emitResults P first second js₁ js₂ [0]).here, s') ∧
      s'.res = if hit then foundResult inclause else notFoundResult inclause arrayHasNulls) :
    Stores (emitResults P first second js₁ js₂ [0]) inclause arrayHasNulls arg hit := by
  intro s
  have hcode := getElem?_emitResults P first second js₁ js₂ [0] hnull
  unfold resultOf
  cases hisnull : arg.isnull with
  | true =>
    have hexec : SaopInstr.exec arg .cmpArgIsnull s = .jump s := by
      simp only [SaopInstr.exec, jumpIf, hisnull, if_true]
    have htarget : (emitResults P first second js₁ js₂ [0]).target 0 = some (P.here + 6) := by
      rw [target_emitResults _ _ _ _ _ _ (Program.lt_here hnull), if_pos List.mem_cons_self]
    exact ⟨_, .jump hcode hexec htarget (runs_null P first second js₁ js₂ [0] arg s), rfl⟩
  | false =>
    have hexec : SaopInstr.exec arg .cmpArgIsnull s = .next s := by
      simp only [SaopInstr.exec, jumpIf, hisnull, Bool.false_eq_true, if_false]
    obtain ⟨s', hruns, hres⟩ := hbody hisnull s
    refine ⟨s', .next hcode hexec hruns, ?_⟩
    rw [hres, if_neg Bool.false_ne_true]

/-! ### The SIMD scan -/

section Simd

variable (vals : List (BitVec 32)) {lanes : Nat}

/-- The padded constants fill the chunks. -/
theorem length_simdVals (hlanes : 0 < lanes) : (simdVals vals lanes).length = chunkCount vals.length lanes * lanes := by
  have hdiv := Nat.div_add_mod (vals.length + lanes - 1) lanes
  have hmod := Nat.mod_lt (vals.length + lanes - 1) hlanes
  rw [Nat.mul_comm] at hdiv
  have hle : vals.length ≤ chunkCount vals.length lanes * lanes := by
    rw [chunkCount]
    omega
  rw [simdVals, List.length_append, List.length_replicate]
  omega

/-- A value stands in a chunk exactly when it is one of the padded constants. -/
theorem mem_simdChunks (hlanes : 0 < lanes) (v : BitVec 32) :
    (∃ c ∈ simdChunks vals lanes, v ∈ c) ↔ v ∈ simdVals vals lanes := by
  constructor
  · rintro ⟨c, hc, hv⟩
    obtain ⟨k, -, rfl⟩ := List.mem_map.1 hc
    exact List.mem_of_mem_drop (List.mem_of_mem_take hv)
  · intro hv
    obtain ⟨j, hj, rfl⟩ := List.mem_iff_getElem.1 hv
    have hlen := length_simdVals vals hlanes
    refine ⟨_, List.mem_map.2 ⟨j / lanes, ?_, rfl⟩, ?_⟩
    · rw [List.mem_range, Nat.div_lt_iff_lt_mul hlanes]
      omega
    · have hdiv := Nat.div_add_mod j lanes
      have hmod := Nat.mod_lt j hlanes
      rw [Nat.mul_comm] at hdiv
      refine List.mem_iff_getElem?.2 ⟨j % lanes, ?_⟩
      rw [List.getElem?_take_of_lt hmod, List.getElem?_drop, hdiv, List.getElem?_eq_getElem hj]

/-- Through the comparisons of the chunks from the one at `k` on. -/
theorem runs_chunks {Q : SaopProgram} {p lf : Nat} {chunks : List (List (BitVec 32))}
    (hcode : ∀ k c, chunks[k]? = some c → Q.code[p + k]? = some (.cmpChunk c))
    (htarget : ∀ k < chunks.length, Q.target (p + k) = some lf) (arg : NullableDatum) (s : SaopState) (n : Nat) :
    ∀ k, k + n = chunks.length →
      ((∃ c ∈ chunks.drop k, s.r0.setWidth 32 ∈ c) → Runs (SaopInstr.exec arg) Q (p + k, s) (lf, s)) ∧
      ((∀ c ∈ chunks.drop k, s.r0.setWidth 32 ∉ c) → Runs (SaopInstr.exec arg) Q (p + k, s) (p + chunks.length, s)) := by
  induction n with
  | zero =>
    intro k hk
    rw [Nat.add_zero] at hk
    rw [hk, List.drop_length]
    exact ⟨fun ⟨c, hc, _⟩ => absurd hc List.not_mem_nil, fun _ => .refl⟩
  | succ n ih =>
    intro k hk
    have hlt : k < chunks.length := by omega
    have hinstr := hcode k _ (List.getElem?_eq_getElem hlt)
    obtain ⟨hhit, hmiss⟩ := ih (k + 1) (by omega)
    rw [List.drop_eq_getElem_cons hlt]
    by_cases hmem : s.r0.setWidth 32 ∈ chunks[k]
    · have hexec : SaopInstr.exec arg (.cmpChunk chunks[k]) s = .jump s := by
        simp only [SaopInstr.exec, jumpIf, List.contains_iff_mem.2 hmem, if_true]
      exact ⟨fun _ => .jump hinstr hexec (htarget k hlt) .refl, fun h => absurd hmem (h _ List.mem_cons_self)⟩
    · have hexec : SaopInstr.exec arg (.cmpChunk chunks[k]) s = .next s := by
        simp only [SaopInstr.exec, jumpIf, List.contains_iff_mem, hmem, if_false]
      refine ⟨?_, fun h => .next hinstr hexec (hmiss fun c hc => h c (List.mem_cons_of_mem _ hc))⟩
      rintro ⟨c, hc, hv⟩
      rcases List.mem_cons.1 hc with rfl | hc
      · exact absurd hv hmem
      · exact .next hinstr hexec (hhit ⟨c, hc, hv⟩)

/-- The SIMD scan finds the scalar when its low half is one of the padded constants. -/
theorem simd_stores (inclause arrayHasNulls : Bool) (hlanes : 0 < lanes) (arg : NullableDatum) :
    Stores (emitSimd inclause arrayHasNulls vals lanes) inclause arrayHasNulls arg
      (arg.value.setWidth 32 ∈ simdVals vals lanes) := by
  obtain ⟨chunks, hchunks⟩ : ∃ chunks, chunks = simdChunks vals lanes := ⟨_, rfl⟩
  obtain ⟨P, hP⟩ : ∃ P : SaopProgram, P = (Program.empty.emit [.cmpArgIsnull, .loadScalar32]).emit (chunks.map .cmpChunk) :=
    ⟨_, rfl⟩
  obtain ⟨js, hjs⟩ : ∃ js, js = (List.range chunks.length).map (2 + ·) := ⟨_, rfl⟩
  have hhere : P.here = 2 + chunks.length := by
    rw [hP, Program.here_emit, Program.here_emit, List.length_map]
    rfl
  have hQ : emitSimd inclause arrayHasNulls vals lanes =
      emitResults P (notFoundResult inclause arrayHasNulls) (foundResult inclause) [] js [0] := by
    rw [emitSimd, hP, hjs, hchunks]
    rfl
  rw [hQ]
  refine stores_of_body (by rw [hP]; rfl) fun _ s => ?_
  have hload := getElem?_emitResults P (notFoundResult inclause arrayHasNulls) (foundResult inclause) [] js [0]
    (j := 1) (i := .loadScalar32) (by rw [hP]; rfl)
  have hcode : ∀ k c, chunks[k]? = some c →
      (emitResults P (notFoundResult inclause arrayHasNulls) (foundResult inclause) [] js [0]).code[2 + k]? =
        some (.cmpChunk c) := by
    intro k c hc
    refine getElem?_emitResults _ _ _ _ _ _ ?_
    have := Program.getElem?_emit_right (Program.empty.emit [SaopInstr.cmpArgIsnull, .loadScalar32]) (chunks.map .cmpChunk) k
    rw [List.getElem?_map, hc] at this
    rw [hP]
    exact this
  have htarget : ∀ k < chunks.length,
      (emitResults P (notFoundResult inclause arrayHasNulls) (foundResult inclause) [] js [0]).target (2 + k) =
        some (P.here + 3) := by
    intro k hk
    have hmem : 2 + k ∈ js := by
      rw [hjs]
      exact List.mem_map.2 ⟨k, List.mem_range.2 hk, rfl⟩
    rw [target_emitResults _ _ _ _ _ _ (by omega), if_neg (by rw [List.mem_singleton]; omega), if_pos hmem]
  obtain ⟨hhit, hmiss⟩ := runs_chunks hcode htarget arg { s with r0 := (arg.value.setWidth 32).setWidth 64 } chunks.length 0
    (Nat.zero_add _)
  have hlow : ((arg.value.setWidth 32).setWidth 64).setWidth 32 = arg.value.setWidth 32 := by
    rw [BitVec.setWidth_setWidth_of_le _ (by decide), BitVec.setWidth_eq]
  simp only [List.drop_zero, hlow] at hhit hmiss
  rw [hchunks] at hhit hmiss
  rw [mem_simdChunks vals hlanes] at hhit
  by_cases hmem : arg.value.setWidth 32 ∈ simdVals vals lanes
  · refine ⟨_, .next hload rfl ((hhit hmem).trans (runs_second _ _ _ _ _ _ arg _)), ?_⟩
    rw [if_pos hmem]
  · have hend := hmiss fun c hc hv => hmem ((mem_simdChunks vals hlanes _).1 ⟨c, hc, hv⟩)
    rw [← hchunks, ← hhere] at hend
    refine ⟨_, .next hload rfl (hend.trans (runs_first _ _ _ _ _ _ arg _)), ?_⟩
    rw [if_neg hmem]

end Simd

/-! ### The padding -/

/-- The step of the candidates is odd, so they do not repeat. -/
theorem padCandidate_inj {bits : BitVec 32} {i j : Nat} (hi : i < 2 ^ 32) (hj : j < 2 ^ 32)
    (h : padCandidate bits i = padCandidate bits j) : i = j := by
  have hmul := BitVec.add_right_inj bits |>.1 h
  have hinv : (0x9E3779B9 : BitVec 32) * 0x144CBC89 = 1#32 := by decide
  have heq := congrArg (· * (0x144CBC89 : BitVec 32)) hmul
  simp only [BitVec.mul_assoc, hinv, BitVec.mul_one] at heq
  have := congrArg BitVec.toNat heq
  rwa [BitVec.toNat_ofNat, BitVec.toNat_ofNat, Nat.mod_eq_of_lt hi, Nat.mod_eq_of_lt hj] at this

/-- The search ends at the first candidate that is not among the constants, or after `fuel` candidates that are. -/
theorem padVal_eq (vals : List (BitVec 32)) (fuel : Nat) (bits : BitVec 32) :
    ∃ k ≤ fuel, padVal vals fuel bits = padCandidate bits k ∧ (∀ i < k, padCandidate bits i ∈ vals) ∧
      (k < fuel → padCandidate bits k ∉ vals) := by
  induction fuel generalizing bits with
  | zero => exact ⟨0, Nat.le_refl 0, by simp [padVal, padCandidate], fun i hi => by omega, fun h => by omega⟩
  | succ fuel ih =>
    by_cases hmem : bits ∈ vals
    · obtain ⟨k, hk, hpad, hbefore, hafter⟩ := ih (bits + 0x9E3779B9)
      have hshift : ∀ i, padCandidate (bits + 0x9E3779B9) i = padCandidate bits (i + 1) := by
        intro i
        rw [padCandidate, padCandidate, BitVec.ofNat_add, BitVec.add_mul, BitVec.ofNat_eq_ofNat, BitVec.one_mul,
          BitVec.add_assoc, BitVec.add_comm (BitVec.ofNat 32 i * _)]
      refine ⟨k + 1, by omega, ?_, ?_, ?_⟩
      · rw [padVal, if_pos (List.contains_iff_mem.2 hmem), hpad, hshift]
      · intro i hi
        cases i with
        | zero => simpa [padCandidate] using hmem
        | succ i => exact hshift i ▸ hbefore i (by omega)
      · intro hlt
        exact hshift k ▸ hafter (by omega)
    · refine ⟨0, Nat.zero_le _, ?_, fun i hi => by omega, fun _ => by simpa [padCandidate] using hmem⟩
      rw [padVal, if_neg (by rw [List.contains_iff_mem]; exact hmem)]
      simp [padCandidate]

/-- The padding is not among the constants. -/
theorem padVal_not_mem {vals : List (BitVec 32)} (hlen : vals.length < 2 ^ 32 - 1) (bits : BitVec 32) :
    padVal vals vals.length bits ∉ vals := by
  obtain ⟨k, hk, hpad, hbefore, hafter⟩ := padVal_eq vals vals.length bits
  rw [hpad]
  intro hmem
  have hkn : k = vals.length := by
    by_contra hne
    exact hafter (by omega) hmem
  -- one candidate more than there are constants, all different
  have hsub : (List.range (k + 1)).map (padCandidate bits) ⊆ vals := by
    intro v hv
    obtain ⟨i, hi, rfl⟩ := List.mem_map.1 hv
    rcases Nat.lt_succ_iff_lt_or_eq.1 (List.mem_range.1 hi) with hlt | rfl
    · exact hbefore i hlt
    · exact hmem
  have hnodup : ((List.range (k + 1)).map (padCandidate bits)).Nodup := by
    refine List.Nodup.map_on ?_ List.nodup_range
    intro i hi j hj h
    rw [List.mem_range] at hi hj
    exact padCandidate_inj (by omega) (by omega) h
  have := (hnodup.subperm hsub).length_le
  rw [List.length_map, List.length_range] at this
  omega

/-- The padded constants are the constants and, if the last chunk is not full, the padding. -/
theorem mem_simdVals {vals : List (BitVec 32)} {lanes : Nat} (hlanes : 0 < lanes) (v : BitVec 32) :
    v ∈ simdVals vals lanes ↔
      v ∈ vals ∨ ¬lanes ∣ vals.length ∧ v = padVal vals vals.length (vals.headD 0 ^^^ 0x80000000) := by
  have hdiv := Nat.div_add_mod (vals.length + lanes - 1) lanes
  have hmod := Nat.mod_lt (vals.length + lanes - 1) hlanes
  have hcount : chunkCount vals.length lanes * lanes - vals.length ≠ 0 ↔ ¬lanes ∣ vals.length := by
    rw [chunkCount, Nat.mul_comm]
    constructor
    · rintro hne ⟨q, hq⟩
      have hq' : (vals.length + lanes - 1) / lanes = q := by
        rw [hq, Nat.div_eq_of_lt_le]
        · rw [Nat.mul_comm]; omega
        · rw [Nat.succ_mul, Nat.mul_comm]; omega
      rw [hq'] at hne
      omega
    · intro hnd heq
      exact hnd ⟨(vals.length + lanes - 1) / lanes, by omega⟩
  rw [simdVals, List.mem_append, List.mem_replicate, hcount]

/-! ### The hash probe -/

/-- The table size is a power of two, and at least the least number of slots. -/
theorem growTable_some {minSlots : Nat} : ∀ {fuel a size : Nat}, growTable minSlots fuel (2 ^ a) = some size →
    minSlots ≤ size ∧ ∃ b, size = 2 ^ b := by
  intro fuel
  induction fuel with
  | zero => intro a size h; nomatch h
  | succ fuel ih =>
    intro a size h
    rw [growTable] at h
    split at h
    · split at h
      · nomatch h
      · rw [← Nat.pow_succ] at h
        exact ih h
    · rename_i hge
      rw [← Option.some.inj h]
      exact ⟨by omega, a, rfl⟩

/-- The search for the table size ends when some doubling within the bounds is large enough. -/
theorem growTable_isSome {minSlots : Nat} : ∀ {k fuel size : Nat}, minSlots ≤ size * 2 ^ k → size * 2 ^ k ≤ intMax →
    k < fuel → ∃ r, growTable minSlots fuel size = some r ∧ r ≤ size * 2 ^ k := by
  intro k
  induction k with
  | zero =>
    intro fuel size hmin _ hfuel
    obtain ⟨fuel, rfl⟩ := Nat.exists_eq_succ_of_ne_zero (by omega : fuel ≠ 0)
    rw [Nat.pow_zero, Nat.mul_one] at hmin ⊢
    exact ⟨size, by rw [growTable, if_neg (by omega)], Nat.le_refl _⟩
  | succ k ih =>
    intro fuel size hmin hmax hfuel
    obtain ⟨fuel, rfl⟩ := Nat.exists_eq_succ_of_ne_zero (by omega : fuel ≠ 0)
    have hpow : size * 2 ^ (k + 1) = size * 2 * 2 ^ k := by rw [Nat.pow_succ, Nat.mul_comm (2 ^ k), Nat.mul_assoc]
    have hpos : 1 ≤ 2 ^ k := Nat.one_le_two_pow
    have hsize : size * 2 ≤ size * 2 * 2 ^ k := Nat.le_mul_of_pos_right _ hpos
    rw [growTable]
    split
    · rw [if_neg (by rw [hpow] at hmax; omega), hpow]
      exact ih (hpow ▸ hmin) (hpow ▸ hmax) (by omega)
    · exact ⟨size, rfl, by rw [hpow]; omega⟩

section Table

variable {vals : List (BitVec 32)} {hasNulls : Bool} {ht : Crc32HashTable}

/-- What a built table is. -/
theorem crc32HashBuildInt4_some (h : crc32HashBuildInt4 vals hasNulls = some ht) :
    ∃ b, ht.mask = 2 ^ b - 1 ∧ vals.length < 2 ^ b ∧
      ht.table = LinearProbing.build (2 ^ b) (nextSlot ht.mask) (homeSlot ht.mask) vals := by
  unfold crc32HashBuildInt4 at h
  split at h
  · nomatch h
  · rename_i hlen
    rw [not_or] at hlen
    obtain ⟨size, hsize, h⟩ := Option.bind_eq_some_iff.1 h
    split at h
    · nomatch h
    · obtain ⟨hmin, b, rfl⟩ := growTable_some (a := 4) hsize
      cases h
      exact ⟨b, rfl, by omega, rfl⟩

/-- The list of an operation is short enough for a table. -/
theorem crc32HashBuildInt4_isSome (hpos : 0 < vals.length) (hlen : vals.length ≤ 16384) :
    (crc32HashBuildInt4 vals hasNulls).isSome := by
  have hgrow : ∃ r, growTable (vals.length * 2) 30 16 = some r ∧ r ≤ 16 * 2 ^ 11 :=
    growTable_isSome (by omega) (by decide) (by decide)
  obtain ⟨size, hsize, hle⟩ := hgrow
  have hfits : ¬size > (0x3fffffff - 12) / 8 := by omega
  rw [crc32HashBuildInt4, if_neg (by rw [intMax]; omega), hsize, Option.bind_some, if_neg hfits]
  rfl

theorem nextSlot_eq {b h : Nat} : nextSlot (2 ^ b - 1) h = (h + 1) % 2 ^ b := Nat.and_two_pow_sub_one_eq_mod _ b

theorem homeSlot_lt (b : Nat) (v : BitVec 32) : homeSlot (2 ^ b - 1) v < 2 ^ b := by
  rw [homeSlot, Nat.and_two_pow_sub_one_eq_mod]
  exact Nat.mod_lt _ (Nat.two_pow_pos b)

/-- The probe decides membership. -/
theorem crc32HashProbeInt4_eq (h : crc32HashBuildInt4 vals hasNulls = some ht) (v : BitVec 32) :
    crc32HashProbeInt4 v ht = some (decide (v ∈ vals)) := by
  obtain ⟨b, hmask, hlen, htable⟩ := crc32HashBuildInt4_some h
  have hpos := Nat.two_pow_pos b
  have hnext : ∀ i < 2 ^ b, nextSlot ht.mask i = (i + 1) % 2 ^ b := fun i _ => by rw [hmask, nextSlot_eq]
  have hhome : ∀ u, homeSlot ht.mask u < 2 ^ b := fun u => by rw [hmask]; exact homeSlot_lt b u
  rw [crc32HashProbeInt4, htable, show ht.mask + 1 = 2 ^ b by omega]
  exact LinearProbing.lookup_built hnext hhome (LinearProbing.built_build hnext hhome (by omega)) hlen v

end Table

section Crc32

variable {ht : Crc32HashTable}

/-- A slot that holds the value of `R0`. -/
theorem signExtend_inj {u v : BitVec 32} (h : u.signExtend 64 = v.signExtend 64) : u = v := by
  rw [← setWidth_signExtend (by decide : 32 ≤ 64) u, h, setWidth_signExtend (by decide)]

/-- The inline loop does what the lookup does. -/
theorem runs_probe (arg : NullableDatum) {Q : SaopProgram} {p lf ln : Nat} (hfree : Q.code[p]? = some (.cmpSlotUnoccupied ht))
    (hvalue : Q.code[p + 1]? = some (.cmpSlotValue ht)) (hnext : Q.code[p + 2]? = some (.nextIndex ht.mask))
    (hjump : Q.code[p + 3]? = some .jump) (tfree : Q.target p = some ln) (tvalue : Q.target (p + 1) = some lf)
    (tjump : Q.target (p + 3) = some p) (v : BitVec 32) {b : Bool} :
    ∀ (fuel : Nat) (s : SaopState), s.r0 = v.signExtend 64 → LinearProbing.lookup (nextSlot ht.mask) ht.table v fuel s.r1 = some b →
      ∃ r1, Runs (SaopInstr.exec arg) Q (p, s) (if b then lf else ln, { s with r1 := r1 }) := by
  intro fuel
  induction fuel with
  | zero => intro s _ h; nomatch h
  | succ fuel ih =>
    intro s hr0 h
    rw [LinearProbing.lookup] at h
    cases hslot : ht.table s.r1 with
    | none =>
      simp only [hslot, Option.some.injEq] at h
      subst h
      have hexec : SaopInstr.exec arg (.cmpSlotUnoccupied ht) s = .jump s := by
        simp only [SaopInstr.exec, jumpIf, hslot, Option.isNone_none, if_true]
      exact ⟨s.r1, .jump hfree hexec tfree .refl⟩
    | some u =>
      simp only [hslot] at h
      have hocc : SaopInstr.exec arg (.cmpSlotUnoccupied ht) s = .next s := by
        simp only [SaopInstr.exec, jumpIf, hslot, Option.isNone_some, Bool.false_eq_true, if_false]
      by_cases huv : u = v
      · rw [if_pos huv, Option.some.injEq] at h
        subst h
        have hexec : SaopInstr.exec arg (.cmpSlotValue ht) s = .jump s := by
          simp only [SaopInstr.exec, jumpIf, hslot, Option.any_some, hr0, huv, beq_self_eq_true, if_true]
        exact ⟨s.r1, .next hfree hocc (.jump hvalue hexec tvalue .refl)⟩
      · rw [if_neg huv] at h
        have hexec : SaopInstr.exec arg (.cmpSlotValue ht) s = .next s := by
          have hne : u.signExtend 64 ≠ s.r0 := fun heq => huv (signExtend_inj (heq.trans hr0))
          simp only [SaopInstr.exec, jumpIf, hslot, Option.any_some, beq_eq_false_iff_ne.2 hne, Bool.false_eq_true, if_false]
        obtain ⟨r1, hruns⟩ := ih { s with r1 := nextSlot ht.mask s.r1 } hr0 h
        exact ⟨r1, .next hfree hocc (.next hvalue hexec (.next hnext rfl (.jump hjump rfl tjump hruns)))⟩

/-- The hash probe finds the scalar when its low half is one of the constants. -/
theorem crc32_stores {vals : List (BitVec 32)} {hasNulls : Bool} (hbuild : crc32HashBuildInt4 vals hasNulls = some ht)
    (inclause arrayHasNulls inline : Bool) (arg : NullableDatum) :
    Stores (emitCrc32 inclause arrayHasNulls inline ht) inclause arrayHasNulls arg (arg.value.setWidth 32 ∈ vals) := by
  obtain ⟨v, hv⟩ : ∃ v : BitVec 32, v = arg.value.setWidth 32 := ⟨_, rfl⟩
  have hlow : (v.signExtend 64).setWidth 32 = v := setWidth_signExtend (by decide) v
  have hprobe := crc32HashProbeInt4_eq hbuild v
  rw [← hv]
  -- the tail: the comparison of `R0`, and the two results
  have htail : ∀ (P : SaopProgram) (s : SaopState), s.r0 = boolGetDatum (decide (v ∈ vals)) → 0 < P.here →
      ∃ s', Runs (SaopInstr.exec arg) (emitResults (P.emit [.cmpR0NotZero]) (notFoundResult inclause arrayHasNulls)
        (foundResult inclause) [] [P.here] [0]) (P.here, s) ((emitResults (P.emit [.cmpR0NotZero])
          (notFoundResult inclause arrayHasNulls) (foundResult inclause) [] [P.here] [0]).here, s') ∧
        s'.res = if v ∈ vals then foundResult inclause else notFoundResult inclause arrayHasNulls := by
    intro P s hr0 hpos
    have hcmp := getElem?_emitResults (P.emit [.cmpR0NotZero]) (notFoundResult inclause arrayHasNulls) (foundResult inclause)
      [] [P.here] [0] (Program.getElem?_emit_right P [.cmpR0NotZero] 0)
    by_cases hmem : v ∈ vals
    · have hexec : SaopInstr.exec arg .cmpR0NotZero s = .jump s := by
        simp only [SaopInstr.exec, jumpIf, hr0, hmem, decide_true]
        rfl
      have htarget := target_emitResults (P.emit [.cmpR0NotZero]) (notFoundResult inclause arrayHasNulls)
        (foundResult inclause) [] [P.here] [0] (j := P.here) (by rw [Program.here_emit]; exact Nat.lt_succ_self _)
      rw [if_neg (by rw [List.mem_singleton]; omega), if_pos List.mem_cons_self] at htarget
      exact ⟨_, .jump hcmp hexec htarget (runs_second _ _ _ _ _ _ arg _), by rw [if_pos hmem]⟩
    · have hexec : SaopInstr.exec arg .cmpR0NotZero s = .next s := by
        simp only [SaopInstr.exec, jumpIf, hr0, hmem, decide_false]
        rfl
      have hruns := runs_first (P.emit [.cmpR0NotZero]) (notFoundResult inclause arrayHasNulls) (foundResult inclause)
        [] [P.here] [0] arg s
      rw [Program.here_emit] at hruns
      exact ⟨_, .next hcmp hexec hruns, by rw [if_neg hmem]⟩
  cases inline with
  | false =>
    refine stores_of_body rfl fun _ s => ?_
    obtain ⟨s', hruns, hres⟩ := htail ((Program.empty.emit [.cmpArgIsnull, .loadScalarS32]).emit [.callProbe ht])
      { s with r0 := boolGetDatum (decide (v ∈ vals)) } rfl (Nat.zero_lt_succ _)
    have hexec : SaopInstr.exec arg (.callProbe ht) { s with r0 := v.signExtend 64 } =
        .next { s with r0 := boolGetDatum (decide (v ∈ vals)) } := by
      simp only [SaopInstr.exec, hlow, hprobe]
    refine ⟨s', .next (i := .loadScalarS32) rfl rfl (.next (i := .callProbe ht) rfl ?_ hruns), hres⟩
    rw [← hv]
    exact hexec
  | true =>
    refine stores_of_body rfl fun _ s => ?_
    obtain ⟨P, hP⟩ : ∃ P : SaopProgram, P = emitProbe (Program.empty.emit [.cmpArgIsnull, .loadScalarS32]) ht := ⟨_, rfl⟩
    obtain ⟨Q, hQ⟩ : ∃ Q : SaopProgram, Q = emitResults (P.emit [.cmpR0NotZero]) (notFoundResult inclause arrayHasNulls)
      (foundResult inclause) [] [P.here] [0] := ⟨_, rfl⟩
    have hhere : P.here = 10 := by rw [hP]; rfl
    -- the labels inside the probe
    have htarget : ∀ j l, j < 10 → j ≠ 0 → P.target j = some l → Q.target j = some l := by
      intro j l hj h0 hl
      rw [hQ, target_emitResults _ _ _ _ _ _ (by rw [Program.here_emit]; omega), if_neg (by rw [List.mem_singleton]; omega),
        if_neg (by rw [List.mem_singleton]; omega), if_neg List.not_mem_nil]
      exact hl
    have hfree : Q.code[3]? = some (.cmpSlotUnoccupied ht) := by rw [hQ, hP]; rfl
    have hvalue : Q.code[3 + 1]? = some (.cmpSlotValue ht) := by rw [hQ, hP]; rfl
    have hnext : Q.code[3 + 2]? = some (.nextIndex ht.mask) := by rw [hQ, hP]; rfl
    have hjump : Q.code[3 + 3]? = some .jump := by rw [hQ, hP]; rfl
    have tfree := htarget 3 7 (by decide) (by decide) (by rw [hP]; rfl)
    have tvalue := htarget 4 9 (by decide) (by decide) (by rw [hP]; rfl)
    have tjump := htarget 6 3 (by decide) (by decide) (by rw [hP]; rfl)
    obtain ⟨r1, hloop⟩ := runs_probe arg hfree hvalue hnext hjump tfree tvalue tjump v (ht.mask + 1)
      { s with r0 := v.signExtend 64, r1 := homeSlot ht.mask v } rfl hprobe
    -- the answer in `R0`
    have hanswer : ∀ s' : SaopState, Runs (SaopInstr.exec arg) Q (if decide (v ∈ vals) then 9 else 7, s')
        (10, { s' with r0 := boolGetDatum (decide (v ∈ vals)) }) := by
      intro s'
      by_cases hmem : v ∈ vals
      · simp only [hmem, decide_true, if_true]
        exact .next (i := .movR0 1) (by rw [hQ, hP]; rfl) rfl .refl
      · simp only [hmem, decide_false, Bool.false_eq_true, if_false]
        exact .next (i := .movR0 0) (by rw [hQ, hP]; rfl) rfl (.jump (i := .jump) (by rw [hQ, hP]; rfl) rfl
          (htarget 8 10 (by decide) (by decide) (by rw [hP]; rfl)) .refl)
    obtain ⟨s', hruns, hres⟩ := htail P { s with r0 := boolGetDatum (decide (v ∈ vals)), r1 := r1 } rfl (by omega)
    rw [hhere, ← hhere, ← hQ] at hruns
    refine ⟨s', ?_, hres⟩
    have hstart : Runs (SaopInstr.exec arg) Q (1, s) (3, { s with r0 := v.signExtend 64, r1 := homeSlot ht.mask v }) := by
      refine .next (i := .loadScalarS32) (by rw [hQ, hP]; rfl) rfl
        (.next (i := .crc32Index ht.mask) (by rw [hQ, hP]; rfl) ?_ .refl)
      simp only [SaopInstr.exec, ← hv, hlow]
    have hbody := (hstart.trans hloop).trans (hanswer _)
    rw [← hhere] at hbody
    have hall := hbody.trans hruns
    rw [hQ, hP] at hall
    exact hall

end Crc32

end HashedSaopAux

end PgJitter
