import PgJitter.Lemmas.Win64Right

/-!
# The code after a prologue

`win64_parse_prologue` goes on into the code after a prologue. What it takes from there has a code outside the prologue, and where it takes
nothing, Windows reads what the prologue is.
-/

namespace PgJitter
namespace Win64Aux

open ByteMemory FrameUnwind

/-! ## The loop over the pushes -/

/-- A recognised push has at least one byte, and all its bytes are there. -/
theorem pushInsn_len {bytes : List (BitVec 8)} {r : BitVec 4} {len : Nat} (h : pushInsn bytes = some (r, len)) :
    1 ≤ len ∧ len ≤ bytes.length := by
  rw [pushInsn.eq_def] at h
  split at h
  · exact absurd h (Option.some_ne_none _).symm
  · split at h
    · obtain ⟨-, rfl⟩ := Prod.mk.inj (Option.some.inj h)
      exact ⟨Nat.le_refl _, Nat.succ_le_succ (Nat.zero_le _)⟩
    · split at h
      · exact absurd h (Option.some_ne_none _).symm
      · split at h
        · obtain ⟨-, rfl⟩ := Prod.mk.inj (Option.some.inj h)
          exact ⟨by decide, Nat.succ_le_succ (Nat.succ_le_succ (Nat.zero_le _))⟩
        · exact absurd h (Option.some_ne_none _).symm

theorem isMovRbpRsp_len {bytes : List (BitVec 8)} (h : isMovRbpRsp bytes = true) : 3 ≤ bytes.length := by
  have htake : (bytes.take 3).length = 3 := by
    rw [isMovRbpRsp, Bool.or_eq_true, beq_iff_eq, beq_iff_eq] at h
    rcases h with h | h <;> rw [h] <;> rfl
  rw [List.length_take] at htake
  omega

/-- A skipped instruction has at least one byte, and all its bytes are there. -/
theorem skipInsn_len {bytes : List (BitVec 8)} {len : Nat} (h : skipInsn bytes = some len) : 1 ≤ len ∧ len ≤ bytes.length := by
  rw [skipInsn.eq_def] at h
  split at h
  · split at h
    · obtain ⟨hle, hlen⟩ := Option.ite_none_right_eq_some.1 h
      obtain rfl := Option.some.inj hlen
      exact ⟨by omega, hle⟩
    · exact absurd h (Option.some_ne_none _).symm
  · exact absurd h (Option.some_ne_none _).symm

/-- What is found is a byte or more, and lies whole in the code. -/
theorem headItem_len {k : Nat} {bytes : List (BitVec 8)} {item : HeadItem} {len : Nat} (h : headItem k bytes = some (item, len)) :
    1 ≤ len ∧ len ≤ bytes.length := by
  rw [headItem] at h
  split at h
  · rename_i r len' hpush
    obtain ⟨-, rfl⟩ := Prod.mk.inj (Option.some.inj h)
    exact pushInsn_len hpush
  · split at h
    · rename_i hmov
      obtain ⟨-, rfl⟩ := Prod.mk.inj (Option.some.inj h)
      exact ⟨by decide, isMovRbpRsp_len hmov⟩
    · split at h
      · obtain ⟨len', hskip, hsome⟩ := Option.map_eq_some_iff.1 h
        obtain ⟨-, rfl⟩ := Prod.mk.inj hsome
        exact skipInsn_len hskip
      · exact absurd h (Option.some_ne_none _).symm

/-- The copy of the stack pointer is three bytes long. -/
theorem headItem_mov {k : Nat} {bytes : List (BitVec 8)} {len : Nat} (h : headItem k bytes = some (.movRbpRsp, len)) : len = 3 := by
  rw [headItem] at h
  split at h
  · exact HeadItem.noConfusion (Prod.mk.inj (Option.some.inj h)).1
  · split at h
    · exact (Prod.mk.inj (Option.some.inj h)).2.symm
    · split at h
      · obtain ⟨len', _, hsome⟩ := Option.map_eq_some_iff.1 h
        exact HeadItem.noConfusion (Prod.mk.inj hsome).1
      · exact absurd h (Option.some_ne_none _).symm

/-- What one turn keeps, the loop over the pushes keeps. -/
theorem headLoop_inv {P : HeadState → Prop}
    (hstep : ∀ st item len, headItem st.nonPushSkips st.rest = some (item, len) → P st → P (st.step item len)) {turns : Nat}
    {st : HeadState}
    (h : P st) : P (headLoop turns st) := by
  induction turns generalizing st with
  | zero => exact h
  | succ turns ih =>
    rw [headLoop]
    split
    · split
      · exact h
      · rename_i item len hitem
        exact ih (hstep st item len hitem h)
    · exact h

theorem step_rest (st : HeadState) (item : HeadItem) (len : Nat) :
    (st.step item len).pos = st.pos + len ∧ (st.step item len).rest = st.rest.drop len := by
  cases item <;> exact ⟨rfl, rfl⟩

/-- The loop over the pushes only goes forward, and ends where the code ends. -/
theorem headLoop_pos (turns : Nat) (st : HeadState) :
    st.pos ≤ (headLoop turns st).pos ∧ (headLoop turns st).pos + (headLoop turns st).rest.length = st.pos + st.rest.length := by
  refine @headLoop_inv (fun st' => st.pos ≤ st'.pos ∧ st'.pos + st'.rest.length = st.pos + st.rest.length) ?_ turns st
    ⟨Nat.le_refl _, rfl⟩
  rintro st' item len hitem ⟨hle, hend⟩
  obtain ⟨hpos, hrest⟩ := step_rest st' item len
  have hlen := headItem_len hitem
  rw [hpos, hrest, List.length_drop]
  omega

/-- A push that was found is kept. -/
theorem headLoop_mem {turns : Nat} {st : HeadState} {x : PushRec} (hx : x ∈ st.pushes) : x ∈ (headLoop turns st).pushes := by
  refine @headLoop_inv (fun st => x ∈ st.pushes) (fun st item len _ hx => ?_) turns st hx
  cases item with
  | push reg => exact List.mem_cons_of_mem _ hx
  | movRbpRsp => exact hx
  | skip => exact hx

/-- A frame pointer that is found in the code after `n` bytes is set after them, unless its offset is lost. -/
theorem headLoop_fpreg {turns n : Nat} {st : HeadState} (hpos : n ≤ st.pos) (hend : st.pos + st.rest.length ≤ 256)
    (hset : st.setFpregOffset = 0) :
    (headLoop turns st).setFpregOffset = 0 ∨ n < (headLoop turns st).setFpregOffset ∧ (headLoop turns st).setFpregOffset < 256 := by
  refine (@headLoop_inv (fun st => (n ≤ st.pos ∧ st.pos + st.rest.length ≤ 256) ∧
    (st.setFpregOffset = 0 ∨ n < st.setFpregOffset ∧ st.setFpregOffset < 256)) ?_ turns st ⟨⟨hpos, hend⟩, Or.inl hset⟩).2
  rintro st' item len hitem ⟨⟨hpos, hend⟩, hset⟩
  obtain ⟨hpos', hrest⟩ := step_rest st' item len
  have hlen := headItem_len hitem
  refine ⟨?_, ?_⟩
  · rw [hpos', hrest, List.length_drop]
    omega
  · cases item with
    | push reg => exact hset
    | skip => exact hset
    | movRbpRsp =>
      obtain rfl := headItem_mov hitem
      dsimp only [HeadState.step]
      omega

theorem headLoop_nil {turns : Nat} {st : HeadState} (h : st.rest.length = 0) : headLoop turns st = st := by
  refine headLoop_ends ?_
  by_contra hne
  obtain ⟨⟨item, len⟩, hitem⟩ := Option.ne_none_iff_exists'.1 hne
  have hlen := headItem_len hitem
  omega

/-- As many turns as there are bytes are enough. -/
theorem headLoop_turns {turns turns' : Nat} {st : HeadState} (h : st.rest.length ≤ turns) (h' : st.rest.length ≤ turns') :
    headLoop turns st = headLoop turns' st := by
  induction turns generalizing turns' st with
  | zero => rw [headLoop_nil (Nat.le_zero.1 h), headLoop_nil (Nat.le_zero.1 h)]
  | succ turns ih =>
    cases turns' with
    | zero => rw [headLoop_nil (Nat.le_zero.1 h'), headLoop_nil (Nat.le_zero.1 h')]
    | succ turns' =>
      rw [headLoop, headLoop]
      split
      · split
        · rfl
        · rename_i item len hitem
          have hlen := headItem_len hitem
          have hrest := (step_rest st item len).2
          exact ih (by rw [hrest, List.length_drop]; omega) (by rw [hrest, List.length_drop]; omega)
      · rfl

theorem headLoop_turn {turns pos k fp : Nat} {bytes : List (BitVec 8)} {recs : List PushRec} {freg : BitVec 8} (hroom : recs.length < 16) :
    headLoop (turns + 1) ⟨pos, bytes, recs, fp, freg, k⟩ =
      match headItem k bytes with
      | none => ⟨pos, bytes, recs, fp, freg, k⟩
      | some (item, len) => headLoop turns (HeadState.step ⟨pos, bytes, recs, fp, freg, k⟩ item len) := if_pos hroom

theorem length_nil_lt : ([] : List PushRec).length < 16 := by decide

/-- As long as it finds no push, the loop over the pushes goes the same way whatever pushes and frame pointer it starts with: these it
keeps, unless it finds another frame pointer. -/
theorem headLoop_beside {turns pos k fp fp' : Nat} {bytes : List (BitVec 8)} {recs : List PushRec} {freg freg' : BitVec 8}
    (hroom : recs.length < 16) {st st' : HeadState} (hst : headLoop turns ⟨pos, bytes, [], fp', freg', k⟩ = st)
    (hst' : headLoop turns ⟨pos, bytes, recs, fp, freg, k⟩ = st') (hnone : st.pushes = []) :
    (st'.pos = st.pos ∧ st'.rest = st.rest ∧ st'.pushes = recs) ∧
      (st'.setFpregOffset = fp ∧ st'.frameReg = freg ∧ st.setFpregOffset = fp' ∨
        st'.setFpregOffset = st.setFpregOffset ∧ st'.frameReg = 5#8) := by
  induction turns generalizing pos k bytes fp fp' freg freg' with
  | zero =>
    subst hst hst'
    exact ⟨⟨rfl, rfl, rfl⟩, Or.inl ⟨rfl, rfl, rfl⟩⟩
  | succ turns ih =>
    rw [headLoop_turn length_nil_lt] at hst
    rw [headLoop_turn hroom] at hst'
    cases hitem : headItem k bytes with
    | none =>
      rw [hitem] at hst hst'
      subst hst hst'
      exact ⟨⟨rfl, rfl, rfl⟩, Or.inl ⟨rfl, rfl, rfl⟩⟩
    | some found =>
      obtain ⟨item, len⟩ := found
      rw [hitem] at hst hst'
      cases item with
      | push reg =>
        have hin : (⟨reg, pos⟩ : PushRec) ∈ st.pushes := hst ▸ headLoop_mem List.mem_cons_self
        rw [hnone] at hin
        exact absurd hin List.not_mem_nil
      | skip => exact ih hst hst'
      | movRbpRsp =>
        obtain ⟨hsame, ⟨hset, hreg, hset'⟩ | hfound⟩ := ih hst hst'
        · exact ⟨hsame, Or.inr ⟨hset.trans hset'.symm, hreg⟩⟩
        · exact ⟨hsame, Or.inr hfound⟩

/-- The offset of a code lies in the prologue, whose bytes are so many. -/
def InProlog (n off : Nat) : Prop := 0 < off ∧ off ≤ n

/-- Where all pushes lie in the prologue, none is found after it. -/
theorem pushes_eq_nil {n turns pos k fp fp' : Nat} {bytes : List (BitVec 8)} {recs : List PushRec} {freg freg' : BitVec 8}
    (hroom : recs.length < 16) (hpos : n ≤ pos) (hend : pos + bytes.length ≤ 256)
    (h : ∀ x ∈ (headLoop turns ⟨pos, bytes, recs, fp, freg, k⟩).pushes, InProlog n x.codeOff) :
    (headLoop turns ⟨pos, bytes, [], fp', freg', k⟩).pushes = [] := by
  induction turns generalizing pos k bytes fp fp' freg freg' with
  | zero => rfl
  | succ turns ih =>
    rw [headLoop_turn hroom] at h
    rw [headLoop_turn length_nil_lt]
    cases hitem : headItem k bytes with
    | none => rfl
    | some found =>
      obtain ⟨item, len⟩ := found
      have hlen := headItem_len hitem
      have hpos' : n ≤ pos + len := by omega
      have hend' : pos + len + (bytes.drop len).length ≤ 256 := by
        rw [List.length_drop]
        omega
      rw [hitem] at h
      cases item with
      | push reg =>
        obtain ⟨hgt, hle⟩ := h ⟨reg, pos⟩ (headLoop_mem List.mem_cons_self)
        rw [PushRec.codeOff] at hgt hle
        dsimp only at hgt hle
        omega
      | skip => exact ih hpos' hend' h
      | movRbpRsp => exact ih hpos' hend' h

/-! ## The allocation -/

/-- An allocation that is found lies whole in the code, and its size is one of 32 bits. -/
theorem subScan_bounds {skipped : Nat} {bytes : List (BitVec 8)} {n len : Nat} (h : subScan skipped bytes = some (n, len)) :
    skipped + 4 ≤ len ∧ len ≤ skipped + bytes.length ∧ n < 2 ^ 32 := by
  induction skipped, bytes using subScan.induct with
  | case1 skipped b₀ b₁ b₂ b₃ rest hshort =>
    rw [subScan, if_pos hshort] at h
    obtain ⟨rfl, rfl⟩ := Prod.mk.inj (Option.some.inj h)
    have hlt := b₃.isLt
    simp only [List.length_cons]
    omega
  | case2 skipped b₀ b₁ b₂ b₃ rest hshort hwide =>
    rw [subScan, if_neg hshort, if_pos hwide] at h
    obtain ⟨rfl, rfl⟩ := Prod.mk.inj (Option.some.inj h)
    have hlt := leNat_lt (b₃ :: rest.take 3)
    simp only [List.length_cons, List.length_take] at hlt ⊢
    have hpow : 256 ^ (min 3 rest.length + 1) = 2 ^ 32 := by rw [Nat.min_eq_left hwide.1]; rfl
    omega
  | case3 skipped b₀ b₁ b₂ b₃ rest hshort hwide ih =>
    rw [subScan, if_neg hshort, if_neg hwide] at h
    have hrest := ih h
    simp only [List.length_cons] at hrest ⊢
    omega
  | case4 skipped bytes hno =>
    rw [subScan.eq_def] at h
    split at h
    · exact absurd rfl (hno _ _ _ _ _)
    · exact absurd h (Option.some_ne_none _).symm

theorem takeSaves_fields (q : ParsedPrologue) (pos : Nat) (p : List (BitVec 8)) :
    (q.takeSaves pos p).pushes = q.pushes ∧ (q.takeSaves pos p).allocSize = q.allocSize ∧
      (q.takeSaves pos p).allocOffset = q.allocOffset := by
  rw [ParsedPrologue.takeSaves]
  split <;> exact ⟨rfl, rfl, rfl⟩

/-- What comes after the allocation changes neither the pushes nor the allocation. -/
theorem takeFrame_fields (st : HeadState) (n len off : Nat) :
    (st.takeFrame n len off).pushes = st.pushes ∧ (st.takeFrame n len off).allocSize = n ∧ (st.takeFrame n len off).allocOffset = off := by
  rw [HeadState.takeFrame]
  dsimp only
  split <;> exact takeSaves_fields _ _ _

/-- With nothing allocated, there is nothing after the allocation. -/
theorem takeFrame_zero (st : HeadState) (len off : Nat) :
    st.takeFrame 0 len off = ⟨st.pushes, [], 0, off, st.setFpregOffset, (st.pos + len) % 256, st.frameReg, 0#8⟩ := by
  have hnone : mirSetup 0 (st.rest.drop len) = none := if_neg fun h => Nat.lt_irrefl 0 h.1
  rw [HeadState.takeFrame]
  dsimp only
  rw [hnone]
  exact if_neg fun h => Nat.lt_irrefl 0 h.2

theorem pushes_takeScan (st : HeadState) : (takeScan st).pushes = st.pushes := by
  rw [takeScan]
  split
  · exact (takeFrame_fields _ _ _ _).1
  · exact (takeFrame_fields _ _ _ _).1

/-- The size of the allocation is read from at most four bytes. -/
theorem allocSize_lt (code : List (BitVec 8)) : (parseInsns code).allocSize < 2 ^ 32 := by
  rw [parseInsns]
  split
  · rename_i hscan
    rw [(takeFrame_fields _ _ _ _).2.1]
    exact (subScan_bounds hscan).2.2
  · rw [(takeFrame_fields _ _ _ _).2.1]
    decide

/-- The scan finds nothing that is allocated. -/
theorem takeScan_quiet {st : HeadState} (h : ∀ n len, subScan 0 (st.rest.take 64) = some (n, len) → n = 0) :
    ∃ off prolog, takeScan st = ⟨st.pushes, [], 0, off, st.setFpregOffset, prolog, st.frameReg, 0#8⟩ := by
  rw [takeScan]
  split
  · rename_i n len hscan
    obtain rfl := h n len hscan
    exact ⟨_, _, takeFrame_zero _ _ _⟩
  · exact ⟨_, _, takeFrame_zero _ _ _⟩

/-- An allocation that is found is kept with the offset of its end. -/
theorem takeScan_found {st : HeadState} {n len : Nat} (h : subScan 0 (st.rest.take 64) = some (n, len)) :
    (takeScan st).allocSize = n ∧ (takeScan st).allocOffset = (st.pos + len) % 256 := by
  rw [takeScan, h]
  exact (takeFrame_fields _ _ _ _).2

/-! ## The saves -/

theorem saveInsn_len {bytes : List (BitVec 8)} {disp : BitVec 8} {reg : BitVec 4} (h : saveInsn bytes = some (disp, reg)) :
    4 ≤ bytes.length := by
  rw [saveInsn.eq_def] at h
  split at h
  · simp only [List.length_cons]
    omega
  · exact absurd h (Option.some_ne_none _).symm

/-- A save that was recorded is kept. -/
theorem savesLoop_mem {size turns pos : Nat} {bytes : List (BitVec 8)} {recs : List SaveRec} {x : SaveRec} (hx : x ∈ recs) :
    x ∈ (savesLoop size turns pos bytes recs).2 := by
  induction turns generalizing pos bytes recs with
  | zero => exact hx
  | succ turns ih =>
    rw [savesLoop]
    split
    · split
      · exact hx
      · dsimp only
        split
        · exact ih (List.mem_cons_of_mem _ hx)
        · exact ih hx
    · exact hx

/-- A loop that records nothing where it starts with nothing records nothing. -/
theorem savesLoop_quiet {size turns turns' pos pos' : Nat} {bytes : List (BitVec 8)} (hturns : bytes.length ≤ turns')
    (h : (savesLoop size turns' pos' bytes []).2 = []) (recs : List SaveRec) : (savesLoop size turns pos bytes recs).2 = recs := by
  induction turns generalizing turns' pos pos' bytes with
  | zero => rfl
  | succ turns ih =>
    rw [savesLoop]
    split
    · cases hsave : saveInsn bytes with
      | none => rfl
      | some found =>
        obtain ⟨disp, reg⟩ := found
        have hlen := saveInsn_len hsave
        obtain ⟨turns', rfl⟩ := Nat.exists_eq_succ_of_ne_zero (by omega : turns' ≠ 0)
        rw [savesLoop, if_pos (by decide), hsave] at h
        dsimp only at h ⊢
        split at h
        · rename_i hrsp
          have hin := @savesLoop_mem size turns' (pos' + 4) (bytes.drop 4) _ _ (List.mem_singleton_self
            (⟨reg, ((BitVec.ofNat 32 size).toInt - 8 + disp.toInt).toNat, (pos' + 4) % 256⟩ : SaveRec))
          rw [h] at hin
          exact absurd hin List.not_mem_nil
        · rename_i hrsp
          rw [if_neg hrsp]
          exact ih (by rw [List.length_drop]; omega) h
    · rfl

/-- Where all saves lie in the prologue, none is found after it. -/
theorem saves_eq_nil {n size turns turns' pos pos' : Nat} {bytes : List (BitVec 8)} {recs : List SaveRec} (hroom : recs.length < 8)
    (hpos : n ≤ pos) (hend : pos + bytes.length ≤ 256) (hturns : bytes.length ≤ turns)
    (h : ∀ x ∈ (savesLoop size turns pos bytes recs).2, InProlog n (x.codeOff % 256)) : (savesLoop size turns' pos' bytes []).2 = [] := by
  induction turns' generalizing turns pos pos' bytes with
  | zero => rfl
  | succ turns' ih =>
    rw [savesLoop, if_pos (by decide)]
    cases hsave : saveInsn bytes with
    | none => rfl
    | some found =>
      obtain ⟨disp, reg⟩ := found
      have hlen := saveInsn_len hsave
      have hdrop : (bytes.drop 4).length = bytes.length - 4 := List.length_drop
      obtain ⟨turns, rfl⟩ := Nat.exists_eq_succ_of_ne_zero (by omega : turns ≠ 0)
      rw [savesLoop, if_pos hroom, hsave] at h
      dsimp only at h ⊢
      split at h
      · obtain ⟨hgt, hle⟩ := h _ (savesLoop_mem List.mem_cons_self)
        dsimp only at hgt hle
        omega
      · rename_i hrsp
        rw [if_neg hrsp]
        exact ih (by omega) (by omega) (by omega) h

/-! ## What is read after a quiet body -/

variable (p : Prologue)

/-- What is read where the parser has found what the prologue is. -/
theorem reads_of_parsed {code info : List (BitVec 8)} (h : registerUnwind code = some info) {q : ParsedPrologue}
    (hparse : parseInsns code = q)
    (hpushes : q.pushes = (parsed p).pushes) (hsaves : q.saves = (parsed p).saves) (hsize : q.allocSize = p.size)
    (halloc : p.size ≠ 0 → q.allocOffset = (parsed p).allocOffset) (hset : q.setFpregOffset = (parsed p).setFpregOffset)
    (hreg : q.frameReg = (parsed p).frameReg) (hoff : q.frameOffset = (parsed p).frameOffset) :
    ∃ u, decodeInfo info = some u ∧ Reads p u := by
  have hasc := ascending_items p
  have hitem : ∀ e ∈ items p, itemOff q e = itemOff (parsed p) e := by
    intro e he
    cases e with
    | push x => rfl
    | save x => rfl
    | fpreg => exact hset
    | alloc => exact halloc ((alloc_mem_items p).1 he)
  have hslots : ∀ e ∈ items p, q.slots e = (parsed p).slots e := by
    intro e he
    cases e with
    | push x => rfl
    | save x => rfl
    | fpreg =>
      rw [ParsedPrologue.slots, ParsedPrologue.slots, hset]
    | alloc =>
      rw [ParsedPrologue.slots, ParsedPrologue.slots, hsize, halloc ((alloc_mem_items p).1 he)]
      rfl
  have hcode : ∀ e ∈ items p, codeOf q e = codeOf (parsed p) e := by
    intro e he
    have hop : opOf q e = opOf (parsed p) e := by
      cases e with
      | alloc => exact congrArg Op.free hsize
      | _ => rfl
    rw [codeOf, codeOf, hitem e he, hop]
  have hasc' : Ascending q (startPos p) p.bytes.length (items p) := by
    refine ⟨hasc.le, hasc.sorted.imp_of_mem fun {e e'} he he' hlt => ?_, fun e he => ?_⟩
    · rwa [hitem e he, hitem e' he']
    · rw [hitem e he]
      exact hasc.bound e he
  have hpending : q.pending = pendingOf (items p).reverse := by
    rw [← pending_parsed, ParsedPrologue.pending, ParsedPrologue.pending, hpushes, hsaves, hset, hsize]
    rfl
  have hroom : ((items p).flatMap q.slots).length ≤ 2 * maxUnwindCodes := by
    rw [List.flatMap_congr hslots]
    exact length_slots_items p
  have hreverse : ((items p).reverse.flatMap q.slots).length = ((items p).flatMap q.slots).length :=
    ((List.reverse_perm _).flatMap_right _).length_eq
  have hbyte := frameByte_parsed p hreg hoff
  refine ⟨_, decode_registered h hparse (codes_eq hasc' hpending hroom) (hreverse.trans_le hroom) (fun hin => ?_), ?_, hbyte.1, hbyte.2⟩
  · rw [hsize]
    exact ⟨Nat.pos_of_ne_zero ((alloc_mem_items p).1 (List.mem_reverse.1 hin)), (size_lt p).trans (by decide)⟩
  · exact List.map_congr_left fun e he => hcode e (List.mem_reverse.1 he)

/-- What is read where the parser has found the pushes of a prologue and lost its frame pointer. -/
theorem pops_of_parsed {code info : List (BitVec 8)} (h : registerUnwind code = some info) {q : ParsedPrologue}
    (hparse : parseInsns code = q)
    (hpushes : q.pushes = (parsed p).pushes) (hsaves : q.saves = []) (hsize : q.allocSize = 0) (hset : q.setFpregOffset = 0)
    (hreg : q.frameReg = 5#8) : ∃ u, decodeInfo info = some u ∧ u.codes = popCodes p q ∧ u.frameReg ≠ rsp := by
  have hpush : ((allRecs p).map EmitItem.push).reverse.filterMap itemPush = (allRecs p).reverse := by
    rw [← List.map_reverse, filterMap_push_push]
  have hsave : ((allRecs p).map EmitItem.push).reverse.filterMap itemSave = [] := by
    rw [← List.map_reverse, filterMap_save_push]
  have hnone : ∀ e : EmitItem, (∀ x, e ≠ .push x) → e ∉ ((allRecs p).map EmitItem.push).reverse := by
    intro e he hin
    obtain ⟨x, _, rfl⟩ := List.mem_map.1 (List.mem_reverse.1 hin)
    exact he x rfl
  have hpending : q.pending = pendingOf ((allRecs p).map EmitItem.push).reverse := by
    rw [ParsedPrologue.pending, pendingOf, hpush, hsave, hpushes, hsaves, hsize, hset, decide_eq_false (hnone .alloc fun x => by simp),
      decide_eq_false (hnone .fpreg fun x => by simp)]
    rfl
  have hlen := length_pushes p
  have hroom : (((allRecs p).map EmitItem.push).flatMap q.slots).length ≤ 2 * maxUnwindCodes := by
    rw [length_flatMap_pushes, allRecs, List.length_append, length_pushRecs, length_pushRecs, maxUnwindCodes]
    omega
  have hreverse : (((allRecs p).map EmitItem.push).reverse.flatMap q.slots).length =
      (((allRecs p).map EmitItem.push).flatMap q.slots).length :=
    ((List.reverse_perm _).flatMap_right _).length_eq
  refine ⟨_, decode_registered h hparse (codes_eq (ascending_pushes p q) hpending hroom) (hreverse.trans_le hroom)
    (fun hin => absurd hin (hnone .alloc fun x => by simp)), rfl, ?_⟩
  rw [infoFrom, frameByte, hreg, (frame_bits q.frameOffset).1.1]
  exact rbp_ne_rsp

theorem room_allRecs : (allRecs p).reverse.length < 16 := by
  have hle := length_pushes p
  rw [List.length_reverse, allRecs, List.length_append, length_pushRecs, length_pushRecs]
  omega

/-- The loop over the pushes after the prologue, with turns enough. -/
theorem headAfter_eq {turns : Nat} {body : List (BitVec 8)} (hturns : body.length ≤ turns) :
    headLoop turns ⟨p.bytes.length, body, [], 0, 0#8, p.headSkips⟩ = p.headAfter body := headLoop_turns hturns (Nat.le_refl _)

/-- With fewer than eight registers in the local area, fewer than eight saves are kept. -/
theorem length_saves_parsed (hmir : p.localCells.length < 8) : (parsed p).saves.length < 8 := by
  have hrecs := length_saveRecs_le p.size (mirPos p) p.saves
  have hrbp : (rbpRec p).length = p.rbpCell.length := by
    rw [rbpRec, PrologShape.rbpCell]
    cases p.mir <;> rfl
  rw [PrologShape.localCells, List.length_append, length_saveCells] at hmir
  rw [parsed, List.length_append, List.length_reverse, hrbp]
  omega

theorem length_saveRecs {size : Nat} (pos : Nat) {ss : List (BitVec 8 × BitVec 4)} (h : ∀ s ∈ ss, 0 ≤ (size : ℤ) - 8 + s.1.toInt) :
    (saveRecs size pos ss).length = ss.length := by
  induction ss generalizing pos with
  | nil => rfl
  | cons s ss ih =>
    rw [saveRecs, if_pos (h s List.mem_cons_self), List.length_cons, List.length_cons,
      ih (pos + 4) fun s' hs' => h s' (List.mem_cons_of_mem _ hs')]

/-- Eight cells are those of a frame setup of MIR, and of seven saves below its frame pointer. -/
theorem mir_of_full (h : ¬ p.localCells.length < 8) : p.mir.isSome := by
  by_contra hno
  have hmir := Option.not_isSome_iff_eq_none.1 hno
  have hsub : p.saves.map Prod.snd ⊆ [3#4, 6#4, 7#4, 12#4, 13#4, 14#4, 15#4] := by
    intro r hr
    obtain ⟨s, hs, rfl⟩ := List.mem_map.1 hr
    have hne := save_ne_rbp p hs
    have hin := p.saves_nonvolatile s hs
    rw [nonvolatile, List.mem_cons, List.mem_cons] at hin
    rcases hin with hin | hin | hin
    · rw [hin]
      exact List.mem_cons_self
    · exact absurd hin hne
    · exact List.mem_cons_of_mem _ hin
  have hnodup := p.saved_nodup.of_append_right
  rw [PrologShape.localCells, List.map_append, fst_saveCells] at hnodup
  have hle := (hnodup.of_append_right.subperm hsub).length_le
  rw [PrologShape.localCells, List.length_append, length_saveCells, PrologShape.rbpCell, hmir] at h
  rw [List.length_map] at hle
  exact h (Nat.lt_of_le_of_lt ((Nat.zero_add _).le.trans hle) (by decide))

/-- Where the cells of the prologue are eight, all are recorded. -/
theorem length_saves_full (h : ¬ p.localCells.length < 8) : ¬ (parsed p).saves.length < 8 := by
  have hmir := mir_of_full p h
  have hall : ∀ s ∈ p.saves, 0 ≤ (p.size : ℤ) - 8 + s.1.toInt := by
    intro s hs
    have hin := p.cells_inside _ (mem_saveCells p hs)
    have hpos := fpPos_of_mir p hmir
    dsimp only at hin
    omega
  have hrbp : (rbpRec p).length = p.rbpCell.length := by
    rw [rbpRec, PrologShape.rbpCell]
    cases p.mir <;> rfl
  rw [PrologShape.localCells, List.length_append, length_saveCells] at h
  rw [parsed, List.length_append, List.length_reverse, length_saveRecs _ hall, hrbp, Nat.add_comm]
  exact h

/-- The loop over the saves stops at eight. -/
theorem savesLoop_full {size turns pos : Nat} {bytes : List (BitVec 8)} {recs : List SaveRec} (h : ¬ recs.length < 8) :
    savesLoop size turns pos bytes recs = (pos, recs) := by
  cases turns with
  | zero => rfl
  | succ turns => exact if_neg h

/-- After a quiet body, no saves are added to those of the prologue. -/
theorem savesOver_quiet {body : List (BitVec 8)} (hq : p.Quiet body) (turns : Nat) :
    savesOver p turns body (parsed p).saves = (parsed p).saves := by
  rw [savesOver]
  split
  · rename_i hsaves
    by_cases hroom : p.localCells.length < 8
    · exact savesLoop_quiet (Nat.le_refl _) (hq.saves hsaves.1 hsaves.2 hroom) _
    · rw [savesLoop_full (length_saves_full p hroom)]
  · rfl

/-- What is read of a prologue with a quiet body after it is right if the prologue is described. -/
theorem right_iff_of_quiet {body info : List (BitVec 8)} (hq : p.Quiet (window p body)) (h : registerUnwind (p.bytes ++ body) = some info) :
    ∃ u, decodeInfo info = some u ∧ (u.Right p ↔ p.Described) := by
  cases halloc : p.alloc with
  | some a =>
    obtain ⟨turns, prolog, _, hparse⟩ := parse_alloc p halloc body hq.mir
    rw [savesOver_quiet p hq] at hparse
    obtain ⟨u, hu, hreads⟩ := reads_of_parsed p h hparse rfl rfl rfl (fun _ => rfl) rfl rfl rfl
    exact ⟨u, hu, right_iff_of_reads hreads⟩
  | none =>
    have hsize : p.size = 0 := by rw [PrologShape.size, halloc]; rfl
    have hmir := mir_of_zero p hsize
    have hsaves : (parsed p).saves = [] := by
      rw [parsed, saves_of_zero p hsize, rbpRec, hmir]
      rfl
    have hset : (headFrame p).1 = (parsed p).setFpregOffset := by
      rw [headFrame, parsed, hmir]
      cases p.frame <;> rfl
    have hreg : (headFrame p).2 = (parsed p).frameReg := by
      rw [headFrame, parsed, PrologShape.setsFrame, hmir]
      cases p.frame <;> rfl
    have hoff : 0#8 = (parsed p).frameOffset := by
      rw [parsed, hmir]
      rfl
    obtain ⟨turns, hturns, hparse⟩ := parse_open p hq.start halloc body
    obtain ⟨⟨hpos, hrest, hpushes⟩, hframe⟩ := headLoop_beside (room_allRecs p) (headAfter_eq p hturns) rfl (hq.pushes halloc)
    obtain ⟨off, prolog, hscan⟩ := takeScan_quiet (fun n len hscan => hq.alloc halloc n len (hrest ▸ hscan))
    rw [hscan] at hparse
    rcases hframe with ⟨hfp, hfreg, -⟩ | ⟨hfp, hfreg⟩
    · obtain ⟨u, hu, hreads⟩ := reads_of_parsed p h hparse hpushes hsaves.symm hsize.symm (fun hne => absurd hsize hne) (hfp.trans hset)
        (hfreg.trans hreg) hoff
      exact ⟨u, hu, right_iff_of_reads hreads⟩
    · obtain ⟨u, hu, hcodes, hne⟩ := pops_of_parsed p h hparse hpushes rfl rfl (hfp.trans (hq.frame halloc)) hfreg
      exact ⟨u, hu, right_iff_of_pops hsize hcodes hne⟩

/-! ## What is right comes from the prologue -/

/-- Every instruction has a first byte. -/
theorem encode_pos (i : PrologInsn) : 0 < i.encode.length := by
  cases i with
  | endbr64 => decide
  | push r =>
    rw [length_push, pushLen]
    split <;> decide
  | movRbpRsp alt => cases alt <;> decide
  | subRsp wide n =>
    rw [length_sub]
    cases wide <;> decide
  | lea t =>
    rw [length_lea]
    decide
  | saveRbp disp => cases disp <;> exact Nat.succ_pos _
  | movRbp t =>
    rw [length_movRbp]
    decide
  | save disp r => exact Nat.succ_pos _

/-- An instruction ends in the prologue. -/
theorem inProlog_of_endsAt {i : PrologInsn} {off : Nat} (h : p.EndsAt i off) : InProlog p.bytes.length off := by
  obtain ⟨pre, post, hinsns, rfl⟩ := h
  have hpos := encode_pos i
  have hlen : p.bytes.length = (encodeProlog pre).length + (i.encode.length + (encodeProlog post).length) := by
    rw [PrologShape.bytes, hinsns, encode_append, encode_cons, List.length_append, List.length_append]
  exact ⟨by omega, by omega⟩

/-- Where what is read is right, every item lies in the prologue. -/
theorem inProlog_of_right {code info : List (BitVec 8)} (h : registerUnwind code = some info) {q : ParsedPrologue}
    (hparse : parseInsns code = q) {u : UnwindInfo} (hu : decodeInfo info = some u) (hright : u.Right p) :
    q.pending.items ≠ [] ∧ ∀ e ∈ q.pending.items, InProlog p.bytes.length (itemOff q e % 256) := by
  have hlt := allocSize_lt code
  have hne := codes_ne_nil h
  rw [hparse] at hlt hne
  obtain ⟨items, hperm, hcodes, hroom⟩ := codes_perm hne
  have hdecode := decode_registered h hparse hcodes (hcodes ▸ hroom) fun hin => by
    have hin := hperm.mem_iff.1 hin
    have halloc : q.pending.alloc = true := by
      by_contra hno
      simp [Pending.items, hno] at hin
    exact ⟨Nat.pos_of_ne_zero (bne_iff_ne.1 halloc), hlt⟩
  obtain rfl := Option.some.inj (hdecode.symm.trans hu)
  refine ⟨fun hnil => ?_, fun e he => ?_⟩
  · rw [hnil, List.perm_nil] at hperm
    rw [hcodes, hperm] at hne
    exact hne rfl
  · obtain ⟨i, hends, _⟩ := hright.ends _ (List.mem_map_of_mem (hperm.mem_iff.2 he))
    exact inProlog_of_endsAt p hends

section

variable {q : ParsedPrologue}

theorem push_mem_pending {x : PushRec} (hx : x ∈ q.pushes) : .push x ∈ q.pending.items :=
  List.mem_append_right _ (List.mem_append_right _ (List.mem_append_left _ (List.mem_map_of_mem hx)))

theorem save_mem_pending {x : SaveRec} (hx : x ∈ q.saves) : .save x ∈ q.pending.items :=
  List.mem_append_right _ (List.mem_append_right _ (List.mem_append_right _ (List.mem_map_of_mem hx)))

theorem alloc_mem_pending (h : q.allocSize ≠ 0) : .alloc ∈ q.pending.items := by
  have halloc : q.pending.alloc = true := bne_iff_ne.2 h
  rw [Pending.items, halloc]
  exact List.mem_cons_self

theorem fpreg_mem_pending (h : q.setFpregOffset ≠ 0) : .fpreg ∈ q.pending.items := by
  have hfpreg : q.pending.fpreg = true := bne_iff_ne.2 h
  rw [Pending.items, hfpreg]
  exact List.mem_append_right _ List.mem_cons_self

end

/-- Where every item lies in a prologue without an allocation, the code after it is quiet. -/
theorem quiet_of_open (hne : p.insns ≠ []) (halloc : p.alloc = none) {body : List (BitVec 8)} {q : ParsedPrologue}
    (hparse : parseInsns (p.bytes ++ body) = q) (h : ∀ e ∈ q.pending.items, InProlog p.bytes.length (itemOff q e % 256)) :
    p.Quiet (window p body) := by
  have hwindow := length_window p body
  have hsize : p.size = 0 := by rw [PrologShape.size, halloc]; rfl
  have hsets := @headLoop_fpreg (window p body).length _ ⟨p.bytes.length, window p body, [], 0, 0#8, p.headSkips⟩ (Nat.le_refl _)
    hwindow rfl
  have hposs := headLoop_pos (window p body).length ⟨p.bytes.length, window p body, [], 0, 0#8, p.headSkips⟩
  rw [headAfter_eq p (Nat.le_refl _)] at hsets hposs
  obtain ⟨hle, hend⟩ := hposs
  dsimp only at hle hend hsets
  obtain ⟨turns, hturns, hparse'⟩ := parse_open p hne halloc body
  generalize hst : headLoop turns ⟨p.bytes.length, window p body, (allRecs p).reverse, (headFrame p).1, (headFrame p).2, p.headSkips⟩ = st
    at hparse'
  obtain rfl := hparse.symm.trans hparse'
  have hall : ∀ x ∈ st.pushes, InProlog p.bytes.length x.codeOff := by
    intro x hx
    rw [← pushes_takeScan st] at hx
    have hin := h _ (push_mem_pending hx)
    rwa [itemOff, PushRec.codeOff, Nat.mod_mod] at hin
  have hpushes : (p.headAfter (window p body)).pushes = [] := by
    rw [← headAfter_eq p hturns]
    exact pushes_eq_nil (room_allRecs p) (Nat.le_refl _) hwindow (hst ▸ hall)
  obtain ⟨⟨hpos, hrest, -⟩, hframe⟩ := headLoop_beside (room_allRecs p) (headAfter_eq p hturns) hst hpushes
  have hscan : ∀ n len, subScan 0 (st.rest.take 64) = some (n, len) → n = 0 := by
    intro n len hscan
    by_contra hn
    obtain ⟨hsz, hoff⟩ := takeScan_found hscan
    obtain ⟨hin, hin'⟩ := h _ (alloc_mem_pending (hsz ▸ hn))
    obtain ⟨hgt, hlt, -⟩ := subScan_bounds hscan
    rw [itemOff, hoff, Nat.mod_mod, hpos] at hin hin'
    rw [hrest, List.length_take] at hlt
    omega
  refine ⟨hne, fun _ => hpushes, fun _ => ?_, fun _ n len hn => hscan n len (hrest ▸ hn), fun _ _ => ?_, fun _ hpos => ?_⟩
  · obtain ⟨off, prolog, hquiet⟩ := takeScan_quiet hscan
    rcases hframe with ⟨-, -, hset⟩ | ⟨hset, -⟩
    · exact hset
    · by_contra hno
      obtain ⟨-, hin⟩ := h _ (fpreg_mem_pending (by rw [hquiet, hset]; exact hno))
      rw [itemOff, hquiet, hset] at hin
      dsimp only at hin
      omega
  · rw [hsize]
    exact if_neg fun h => Nat.lt_irrefl 0 h.1
  · omega

/-- A store of the frame register is four or five bytes long. -/
theorem rbpSave_len {bytes : List (BitVec 8)} {off len : Nat} (h : rbpSave bytes = some (off, len)) : 4 ≤ len ∧ len ≤ 5 := by
  rw [rbpSave.eq_def] at h
  split at h
  · split at h
    · obtain ⟨-, rfl⟩ := Prod.mk.inj (Option.some.inj h)
      decide
    · split at h
      · obtain ⟨-, rfl⟩ := Prod.mk.inj (Option.some.inj h)
        decide
      · exact absurd h (Option.some_ne_none _).symm
  · exact absurd h (Option.some_ne_none _).symm

/-- A frame setup begins with a store of the frame register, and the copy of the stack pointer comes after it. -/
theorem mirSetup_len {n : Nat} {bytes : List (BitVec 8)} {off len len' : Nat} (h : mirSetup n bytes = some (off, len, len')) :
    (4 ≤ len ∧ len ≤ 5) ∧ 7 ≤ bytes.length := by
  rw [mirSetup] at h
  split at h
  · rename_i hroom
    split at h
    · exact absurd h (Option.some_ne_none _).symm
    · rename_i off' l hsave
      dsimp only at h
      split at h
      · obtain ⟨-, hlen⟩ := Prod.mk.inj (Option.some.inj h)
        obtain ⟨rfl, -⟩ := Prod.mk.inj hlen
        exact ⟨rbpSave_len hsave, hroom.2⟩
      · exact absurd h (Option.some_ne_none _).symm
  · exact absurd h (Option.some_ne_none _).symm

/-- A frame setup of MIR that is found is kept. -/
theorem takeFrame_setup {st : HeadState} {n len off allocOffset rspOff l l' : Nat}
    (h : mirSetup n (st.rest.drop len) = some (rspOff, l, l'))
    (hoff : off = (st.pos + len + l) % 256) : ⟨5#4, rspOff, off⟩ ∈ (st.takeFrame n len allocOffset).saves := by
  rw [HeadState.takeFrame]
  dsimp only
  rw [h, hoff]
  dsimp only
  rw [ParsedPrologue.takeSaves]
  split
  · exact savesLoop_mem (List.mem_singleton_self _)
  · exact List.mem_singleton_self _

/-- Where every item lies in a prologue with an allocation, the code after it is quiet. -/
theorem quiet_of_alloc {a : Bool × Nat} (halloc : p.alloc = some a) {body : List (BitVec 8)} {q : ParsedPrologue}
    (hparse : parseInsns (p.bytes ++ body) = q) (h : ∀ e ∈ q.pending.items, InProlog p.bytes.length (itemOff q e % 256)) :
    p.Quiet (window p body) := by
  have hwindow := length_window p body
  have hlen := length_bytes p
  have hnone : p.alloc ≠ none := fun hnone => Option.some_ne_none a (halloc.symm.trans hnone)
  have hsetup : p.saves = [] → p.mir = none → mirSetup p.size (window p body) = none := by
    intro hsaves hmir
    by_contra hne
    obtain ⟨⟨rspOff, l, l'⟩, hfound⟩ := Option.ne_none_iff_exists'.1 hne
    obtain ⟨hl, hroom⟩ := mirSetup_len hfound
    have hpos : headPos p + subLen a.1 = p.bytes.length := by
      rw [hlen, hsaves, mirPos, hmir, allocPos, hmir, halloc]
      rfl
    have hplain := hparse.symm.trans (parse_plain p halloc hmir body)
    rw [PrologShape.saveInsns, hsaves] at hplain
    have hkept : ⟨5#4, rspOff, (p.bytes.length + l) % 256⟩ ∈ q.saves := by
      rw [hplain, ← hpos]
      refine @takeFrame_setup _ _ _ _ _ rspOff l l' ?_ rfl
      dsimp only
      rw [← length_sub a.1 a.2, List.drop_left]
      exact hfound
    obtain ⟨-, hin⟩ := h _ (save_mem_pending hkept)
    rw [itemOff] at hin
    dsimp only at hin
    omega
  refine ⟨insns_ne_nil p halloc, fun hno => absurd hno hnone, fun hno => absurd hno hnone, fun hno => absurd hno hnone, hsetup,
    fun hset hsize hroom => ?_⟩
  obtain ⟨turns, prolog, hturns, hparse'⟩ := parse_alloc p halloc body hsetup
  obtain rfl := hparse.symm.trans hparse'
  refine saves_eq_nil (length_saves_parsed p hroom) (Nat.le_refl _) hwindow hturns fun x hx => ?_
  have hover : savesOver p turns (window p body) (parsed p).saves =
      (savesLoop p.size turns p.bytes.length (window p body) (parsed p).saves).2 := if_pos ⟨hset, hsize⟩
  rw [← hover] at hx
  exact h (.save x) (save_mem_pending hx)

/-- What is registered is right only where the code after the prologue is quiet. -/
theorem quiet_of_right {body info : List (BitVec 8)} (h : registerUnwind (p.bytes ++ body) = some info) {u : UnwindInfo}
    (hu : decodeInfo info = some u) (hright : u.Right p) : p.Quiet (window p body) := by
  obtain ⟨hitems, hin⟩ := inProlog_of_right p h rfl hu hright
  have hne : p.insns ≠ [] := by
    -- no instruction, and so no place for an item
    intro hnil
    obtain ⟨e, he⟩ := List.exists_mem_of_ne_nil _ hitems
    obtain ⟨hpos, hle⟩ := hin e he
    have hbytes : p.bytes.length = 0 := by rw [PrologShape.bytes, hnil]; rfl
    omega
  cases halloc : p.alloc with
  | none => exact quiet_of_open p hne halloc rfl hin
  | some a => exact quiet_of_alloc p halloc rfl hin

end Win64Aux
end PgJitter
