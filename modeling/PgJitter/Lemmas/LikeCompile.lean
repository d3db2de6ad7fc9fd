import PgJitter.Lemmas.LikePattern

/-!
# What the LIKE compiler stores

The segments of a compiled pattern are its non-empty blocks in order (`compiled_segments`): a stored segment has the width of
its block, and its pieces, checked at their offsets, ask exactly what the block asks (`Represents`).
-/

namespace PgJitter

open Glob

/-- What a stretch of decoded characters without `%` asks of the bytes it is laid over. -/
def maskOf (cs : List PatChar) : Mask Byte := cs.map PatChar.mask

/-- A stored segment stands for a block: its width, its pieces and its search anchor are those of the block. -/
structure Represents (seg : SzSegment) (m : Mask Byte) : Prop where
  width : seg.width = m.length
  /-- Checking the pieces at a place inside the subject is checking the block there. -/
  piecesOk : ∀ (data : List Byte) (pos : Nat), pos + m.length ≤ data.length →
    (seg.piecesOk data pos = true ↔ FitsAt m data pos)
  /-- The anchor index is that of a piece. -/
  longest_lt : seg.pieces ≠ [] → seg.longestIdx < seg.pieces.length
  /-- No piece is empty, and every piece lies inside the segment. -/
  piece : ∀ pc ∈ seg.pieces, pc.data ≠ [] ∧ pc.offset + pc.data.length ≤ m.length
  /-- A segment without pieces is all underscores. -/
  wild : seg.pieces = [] ↔ ∀ o ∈ m, o = none

/-! ## Pieces -/

/-- The byte comparison of a piece inside the subject is a block of letters. -/
theorem SzPiece.matchesAt_iff (pc : SzPiece) (data : List Byte) (pos : Nat)
    (hlen : pos + pc.offset + pc.data.length ≤ data.length) :
    pc.matchesAt data pos = true ↔ FitsAt (pc.data.map some) data (pos + pc.offset) := by
  rw [SzPiece.matchesAt, List.isPrefixOf_iff_prefix, List.prefix_iff_getElem?]
  simp only [FitsAt, List.length_map, hlen, true_and, List.getElem?_drop, List.getElem?_map, Option.map_eq_some_iff,
    Option.some.injEq, exists_eq_right]
  constructor
  · intro h j a hj
    obtain ⟨hlt, rfl⟩ := List.getElem?_eq_some_iff.mp hj
    exact h j hlt
  · intro h j hlt
    exact h j _ (List.getElem?_eq_getElem hlt)

/-- A piece grown by one byte asks for that byte too. -/
theorem SzPiece.matchesAt_snoc (o : Nat) (d : List Byte) (b : Byte) (data : List Byte) (pos : Nat)
    (hlen : pos + o + d.length < data.length) :
    SzPiece.matchesAt ⟨o, d ++ [b]⟩ data pos = true ↔
      SzPiece.matchesAt ⟨o, d⟩ data pos = true ∧ data[pos + o + d.length]? = some b := by
  rw [SzPiece.matchesAt_iff ⟨o, d ++ [b]⟩ data pos (by simp; omega), SzPiece.matchesAt_iff ⟨o, d⟩ data pos (by simp; omega)]
  simp only [List.map_append, fitsAt_append, List.map_cons, List.map_nil, List.length_map]
  refine and_congr_right fun _ => ?_
  rw [fitsAt_cons, fitsAt_nil]
  constructor
  · rintro ⟨⟨c, hc, hcb⟩, -⟩
    rw [hc, hcb b rfl]
  · intro hb
    exact ⟨⟨b, hb, fun a ha => by simpa using ha⟩, by omega⟩

/-- The pieces extracted from a stretch ask what the stretch asks, and what the piece under construction asked. -/
theorem extractPieces_all (cs : List PatChar) (j : Nat) (piece : Option SzPiece) (data : List Byte) (pos : Nat)
    (hpiece : ∀ p, piece = some p → p.offset + p.data.length = j) (hlen : pos + j + cs.length ≤ data.length) :
    (extractPieces j piece cs).all (fun pc => pc.matchesAt data pos) = true ↔
      piece.toList.all (fun pc => pc.matchesAt data pos) = true ∧ FitsAt (maskOf cs) data (pos + j) := by
  induction cs generalizing j piece with
  | nil =>
    rw [extractPieces, maskOf, List.map_nil, fitsAt_nil]
    simp only [List.length_nil] at hlen
    exact ⟨fun h => ⟨h, by omega⟩, fun h => h.1⟩
  | cons c cs ih =>
    simp only [List.length_cons] at hlen
    have hlt : pos + j < data.length := by omega
    rw [maskOf, List.map_cons, fitsAt_cons, ← maskOf, List.getElem?_eq_getElem hlt]
    by_cases hu : c.kind = .underscore
    · simp only [extractPieces, hu, if_true, List.all_append, Bool.and_eq_true]
      rw [ih (j + 1) none (by simp) (by omega)]
      simp [PatChar.mask, hu, Nat.add_assoc]
    · have hmask : c.mask = some c.ch := by simp [PatChar.mask, hu]
      cases piece with
      | none =>
        simp only [extractPieces, hu, if_false]
        rw [ih (j + 1) (some ⟨j, [c.ch]⟩) (by simp) (by omega)]
        have h1 := SzPiece.matchesAt_snoc j [] c.ch data pos (by simpa using hlt)
        have h0 : SzPiece.matchesAt ⟨j, []⟩ data pos = true := by simp [SzPiece.matchesAt]
        simp only [List.nil_append, h0, true_and, List.length_nil, Nat.add_zero, List.getElem?_eq_getElem hlt,
          Option.some.injEq] at h1
        simp only [Option.toList_some, List.all_cons, List.all_nil, Bool.and_true, h1, Option.toList_none, true_and, hmask,
          Option.some.injEq, forall_eq', Nat.add_assoc, exists_eq_left']
      | some p =>
        have hp := hpiece p rfl
        simp only [extractPieces, hu, if_false]
        rw [ih (j + 1) (some ⟨p.offset, p.data ++ [c.ch]⟩) (by simp; omega) (by omega)]
        have hj : pos + p.offset + p.data.length = pos + j := by omega
        have h1 := SzPiece.matchesAt_snoc p.offset p.data c.ch data pos (by omega)
        simp only [hj, List.getElem?_eq_getElem hlt, Option.some.injEq] at h1
        simp only [Option.toList_some, List.all_cons, List.all_nil, Bool.and_true, h1, hmask, and_assoc,
          Option.some.injEq, forall_eq', Nat.add_assoc, exists_eq_left']

/-- Every extracted piece is non-empty and lies inside the stretch. -/
theorem extractPieces_mem (cs : List PatChar) (j : Nat) (piece : Option SzPiece)
    (hpiece : ∀ p, piece = some p → p.data ≠ [] ∧ p.offset + p.data.length = j) :
    ∀ pc ∈ extractPieces j piece cs, pc.data ≠ [] ∧ pc.offset + pc.data.length ≤ j + cs.length := by
  induction cs generalizing j piece with
  | nil =>
    intro pc hpc
    have := hpiece pc (by simpa [extractPieces] using hpc)
    exact ⟨this.1, by simp [this.2]⟩
  | cons c cs ih =>
    intro pc hpc
    rw [List.length_cons, show j + (cs.length + 1) = j + 1 + cs.length by omega]
    by_cases hu : c.kind = .underscore
    · simp only [extractPieces, hu, if_true, List.mem_append, Option.mem_toList] at hpc
      rcases hpc with hpc | hpc
      · have := hpiece pc hpc
        exact ⟨this.1, by omega⟩
      · exact ih (j + 1) none (by simp) pc hpc
    · cases piece with
      | none =>
        simp only [extractPieces, hu, if_false] at hpc
        exact ih (j + 1) (some ⟨j, [c.ch]⟩) (by simp) pc hpc
      | some p =>
        simp only [extractPieces, hu, if_false] at hpc
        refine ih (j + 1) (some ⟨p.offset, p.data ++ [c.ch]⟩) ?_ pc hpc
        rintro _ ⟨rfl⟩
        have := hpiece p rfl
        simp only [ne_eq, List.append_eq_nil_iff, List.cons_ne_nil, and_false, not_false_eq_true, List.length_append,
          List.length_cons, List.length_nil, true_and]
        omega

/-- A stretch yields no piece exactly when it is all underscores. -/
theorem extractPieces_eq_nil (cs : List PatChar) (j : Nat) (piece : Option SzPiece) :
    extractPieces j piece cs = [] ↔ piece = none ∧ ∀ o ∈ maskOf cs, o = none := by
  induction cs generalizing j piece with
  | nil => cases piece <;> simp [extractPieces, maskOf]
  | cons c cs ih =>
    by_cases hu : c.kind = .underscore
    · cases piece <;> simp [extractPieces, hu, ih, maskOf, PatChar.mask]
    · cases piece <;> simp [extractPieces, hu, ih, maskOf, PatChar.mask]

theorem longestPiece_lt (ps : List SzPiece) (idx best longestLen : Nat) (hbest : best < idx) :
    longestPiece idx best longestLen ps < idx + ps.length := by
  induction ps generalizing idx best longestLen with
  | nil => simpa [longestPiece] using hbest
  | cons p ps ih =>
    rw [longestPiece, List.length_cons, show idx + (ps.length + 1) = idx + 1 + ps.length by omega]
    split
    · exact ih (idx + 1) idx _ (by omega)
    · exact ih (idx + 1) best _ (by omega)

/-- The stored segment of a stretch stands for what the stretch asks. -/
theorem buildSegment_represents {cs : List PatChar} {seg : SzSegment} (h : buildSegment cs = some seg) :
    Represents seg (maskOf cs) := by
  unfold buildSegment at h
  simp only at h
  split at h
  · cases h
  · obtain rfl := Option.some.inj h
    have hmem := extractPieces_mem cs 0 none (by simp)
    refine ⟨by simp [maskOf], fun data pos hlen => ?_, fun hne => ?_, fun pc hpc => ?_, ?_⟩
    · rw [maskOf, List.length_map] at hlen
      have := extractPieces_all cs 0 none data pos (by simp) (by omega)
      simpa [SzSegment.piecesOk] using this
    · cases hps : extractPieces 0 none cs with
      | nil => exact absurd hps hne
      | cons p ps =>
        have hp := hmem p (by simp [hps])
        have : 0 < p.data.length := List.length_pos_iff.mpr hp.1
        simp only [longestPiece, gt_iff_lt, this, if_true, List.length_cons]
        have := longestPiece_lt ps (0 + 1) 0 p.data.length (by omega)
        omega
    · have := hmem pc hpc
      simpa [maskOf] using this
    · simpa using extractPieces_eq_nil cs 0 none

/-! ## Segments -/

/-- The head block and the blocks after each `%`, in one list. -/
def allBlocks (kinds : List PatChar) : List (Mask Byte) := (blocks kinds).1 :: (blocks kinds).2

/-- The blocks that are not empty: the parts of the pattern between its `%`. -/
def fullBlocks (kinds : List PatChar) : List (Mask Byte) := (allBlocks kinds).filter (fun m => !m.isEmpty)

/-- The segment loop cuts a pattern into its non-empty blocks. -/
theorem map_maskOf_cutSegments (cur cs : List PatChar) :
    (cutSegments cur cs).map maskOf =
      ((maskOf cur ++ (blocks cs).1) :: (blocks cs).2).filter (fun m => !m.isEmpty) := by
  induction cs generalizing cur with
  | nil => cases cur <;> simp [cutSegments, blocks, maskOf]
  | cons c cs ih =>
    by_cases hp : c.kind = .percent
    · cases cur <;> simp [cutSegments, blocks, hp, ih, maskOf]
    · simp [cutSegments, blocks, hp, ih, maskOf]

/-- A leading `%` only adds an empty head block. -/
theorem fullBlocks_stripLeading (kinds : List PatChar) : fullBlocks (stripLeading kinds).2 = fullBlocks kinds := by
  cases kinds with
  | nil => rfl
  | cons c cs =>
    by_cases hp : c.kind = .percent
    · simp [stripLeading, hp, fullBlocks, allBlocks, blocks]
    · simp [stripLeading, hp]

/-- A trailing `%` only adds an empty tail block. -/
theorem blocks_append_percent (cs : List PatChar) {c : PatChar} (hc : c.kind = .percent) :
    blocks (cs ++ [c]) = ((blocks cs).1, (blocks cs).2 ++ [[]]) := by
  induction cs with
  | nil => simp [blocks, hc]
  | cons d ds ih =>
    by_cases hp : d.kind = .percent <;> simp [blocks, hp, ih]

theorem fullBlocks_stripTrailing (kinds : List PatChar) : fullBlocks (stripTrailing kinds).2 = fullBlocks kinds := by
  rcases List.eq_nil_or_concat kinds with rfl | ⟨cs, c, rfl⟩
  · rfl
  · by_cases hp : c.kind = .percent
    · rw [List.concat_eq_append, fullBlocks, fullBlocks, allBlocks, allBlocks, blocks_append_percent cs hp,
        ← List.cons_append, List.filter_append]
      simp [stripTrailing, hp]
    · simp [stripTrailing, hp]

/-- The start is anchored exactly when the pattern does not begin with `%`. -/
theorem stripLeading_fst {kinds : List PatChar} (hne : kinds ≠ []) :
    (stripLeading kinds).1 = true ↔ (blocks kinds).1 ≠ [] := by
  cases kinds with
  | nil => exact absurd rfl hne
  | cons c cs => by_cases hp : c.kind = .percent <;> simp [stripLeading, blocks, hp]

/-- A pattern whose last character is not `%` ends with a non-empty block. -/
theorem getLast?_blocks (cs : List PatChar) {c : PatChar} (hc : c.kind ≠ .percent) :
    ∃ e, (allBlocks (cs ++ [c])).getLast? = some e ∧ e ≠ [] := by
  induction cs with
  | nil => exact ⟨[c.mask], by simp [allBlocks, blocks, hc], by simp⟩
  | cons d ds ih =>
    obtain ⟨e, he, hne⟩ := ih
    by_cases hp : d.kind = .percent
    · refine ⟨e, ?_, hne⟩
      simpa [allBlocks, blocks, hp, List.getLast?_cons] using he
    · simp only [allBlocks, List.getLast?_cons, List.cons_append, blocks, hp, if_false, Option.some.injEq] at he ⊢
      cases hb : (blocks (ds ++ [c])).2.getLast? with
      | none => exact ⟨_, rfl, by simp⟩
      | some e' =>
        rw [hb] at he
        obtain rfl : e' = e := by simpa using he
        exact ⟨e', rfl, hne⟩

theorem stripLeading_suffix (kinds : List PatChar) : ∃ pre, kinds = pre ++ (stripLeading kinds).2 := by
  cases kinds with
  | nil => exact ⟨[], rfl⟩
  | cons c cs =>
    by_cases hp : c.kind = .percent
    · exact ⟨[c], by simp [stripLeading, hp]⟩
    · exact ⟨[], by simp [stripLeading, hp]⟩

/-- The end is anchored exactly when the last block is not empty. -/
theorem stripTrailing_fst {kinds : List PatChar} (hfull : fullBlocks kinds ≠ []) :
    (stripTrailing (stripLeading kinds).2).1 = true ↔ ∃ e, (allBlocks kinds).getLast? = some e ∧ e ≠ [] := by
  obtain ⟨pre, hpre⟩ := stripLeading_suffix kinds
  rcases List.eq_nil_or_concat (stripLeading kinds).2 with hnil | ⟨cs, c, htail⟩
  · rw [← fullBlocks_stripLeading, hnil] at hfull
    exact absurd rfl hfull
  · rw [htail, List.concat_eq_append, ← List.append_assoc] at hpre
    rw [htail]
    by_cases hp : c.kind = .percent
    · rw [hpre, allBlocks, blocks_append_percent _ hp]
      simp [stripTrailing, hp, List.getLast?_cons]
    · have := getLast?_blocks (pre ++ cs) hp
      rw [← hpre] at this
      simpa [stripTrailing, hp] using this

/-! ## The compiled object -/

/-- What a compiled object with segments holds: the segments stand for the non-empty blocks, `min_len` is their total width, and
the anchors say whether the first and the last block are among them. -/
structure StoresBlocks (c : SzLikeCompiled) (kinds : List PatChar) : Prop where
  segments : List.Forall₂ Represents c.segments (fullBlocks kinds)
  minLen : c.minLen = ((fullBlocks kinds).map List.length).sum
  anchoredStart : c.anchoredStart = true ↔ (blocks kinds).1 ≠ []
  anchoredEnd : c.anchoredEnd = true ↔ ∃ e, (allBlocks kinds).getLast? = some e ∧ e ≠ []

theorem mapM_buildSegment {segs : List (List PatChar)} {segments : List SzSegment}
    (h : segs.mapM buildSegment = some segments) : List.Forall₂ Represents segments (segs.map maskOf) := by
  induction segs generalizing segments with
  | nil =>
    obtain rfl : segments = [] := by simpa [eq_comm] using h
    exact .nil
  | cons cs segs ih =>
    simp only [List.mapM_cons, Option.bind_eq_bind, Option.bind_eq_some_iff, Option.pure_def, Option.some.injEq] at h
    obtain ⟨seg, hseg, rest, hrest, rfl⟩ := h
    exact .cons (buildSegment_represents hseg) (ih hrest)

/-- The segments are cut out of the stripped pattern, and are its non-empty blocks. -/
theorem cutSegments_strip (kinds : List PatChar) :
    (cutSegments [] (stripTrailing (stripLeading kinds).2).2).map maskOf = fullBlocks kinds := by
  rw [← fullBlocks_stripLeading kinds, ← fullBlocks_stripTrailing, fullBlocks, allBlocks, map_maskOf_cutSegments]
  rfl

/-- What the LIKE compiler returns when it returns an object: either the pattern has no non-empty block, and the object is the
one for the empty pattern or for a match of everything, or the object stores the blocks. -/
theorem compiled_blocks {enc : DatabaseEncoding} {pattern : List Byte} {c : SzLikeCompiled}
    (h : simdLikeCompile enc pattern = .compiled c) :
    ∃ kinds, decodePattern pattern = some kinds ∧
      ((fullBlocks kinds = [] ∧ c = ⟨0, decide (kinds = []), decide (kinds = []), []⟩) ∨
        (fullBlocks kinds ≠ [] ∧ StoresBlocks c kinds)) := by
  unfold simdLikeCompile at h
  split at h
  · cases h
  · split at h
    · cases h
    · rename_i kinds hkinds
      refine ⟨kinds, hkinds, ?_⟩
      have hcut := cutSegments_strip kinds
      revert hcut h
      generalize hsegs : cutSegments [] (stripTrailing (stripLeading kinds).2).2 = segs
      intro h hcut
      simp only [hsegs] at h
      split at h
      · cases h
      · split at h
        · cases h
        · split at h
          · rename_i hzero
            obtain rfl := LikeCompileResult.compiled.inj h
            obtain rfl : segs = [] := List.length_eq_zero_iff.mp hzero
            refine Or.inl ⟨by simpa using hcut.symm, ?_⟩
            cases kinds <;> simp
          · rename_i hzero
            have hfull : fullBlocks kinds ≠ [] := by
              intro hnil
              rw [hnil, List.map_eq_nil_iff] at hcut
              exact hzero (by simp [hcut])
            have hne : kinds ≠ [] := by
              rintro rfl
              exact hfull rfl
            split at h
            · cases h
            · split at h
              · split at h <;> cases h
              · split at h
                · cases h
                · rename_i segments hmap
                  obtain rfl := LikeCompileResult.compiled.inj h
                  refine Or.inr ⟨hfull, ?_, ?_, stripLeading_fst hne, stripTrailing_fst hfull⟩
                  · rw [← hcut]
                    exact mapM_buildSegment hmap
                  · have hlen : List.length ∘ maskOf = List.length := funext fun cs => by simp [maskOf]
                    rw [← hcut, List.map_map, hlen]

end PgJitter
