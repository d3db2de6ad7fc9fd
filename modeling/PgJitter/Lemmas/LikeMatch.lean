import PgJitter.Lemmas.LikeCompile
import Mathlib.Data.List.Perm.Basic
import Mathlib.Data.FinEnum
import Mathlib.Data.Fintype.Option

/-!
# What the LIKE matcher decides

The search of a floating segment finds its leftmost place (`searchSegment_some`, `searchSegment_none`). The matcher accepts a
subject exactly when the head block fits at the start, the tail block at the end, and the floating blocks can be placed in
order under the limits the matcher keeps (`CodePlaceable`): the room before the tail until a block with a literal has been
found, the whole subject from then on.
-/

namespace PgJitter

open Glob

/-! ## The search of one segment -/

/-- The outcome of a search among the `n` places from `q₀` on: the leftmost one with the property, or none has it. -/
def Leftmost (P : Nat → Prop) (q₀ n : Nat) : Option Nat → Prop
  | some q => q₀ ≤ q ∧ q < q₀ + n ∧ P q ∧ ∀ q', q₀ ≤ q' → q' < q → ¬P q'
  | none => ∀ q', q₀ ≤ q' → q' < q₀ + n → ¬P q'

/-- A search that starts after places without the property searches those too. -/
theorem Leftmost.extend {P : Nat → Prop} {q₀ q₁ n : Nat} {r : Option Nat} (h : Leftmost P q₁ (q₀ + n - q₁) r)
    (hle : q₀ ≤ q₁ ∧ q₁ ≤ q₀ + n) (hskip : ∀ q', q₀ ≤ q' → q' < q₁ → ¬P q') : Leftmost P q₀ n r := by
  cases r with
  | none =>
    intro q' h₁ h₂
    by_cases hq : q' < q₁
    · exact hskip q' h₁ hq
    · exact h q' (by omega) (by omega)
  | some q =>
    obtain ⟨h₁, h₂, hp, hleft⟩ := h
    refine ⟨by omega, by omega, hp, fun q' h₃ h₄ => ?_⟩
    by_cases hq : q' < q₁
    · exact hskip q' h₃ hq
    · exact hleft q' (by omega) h₄

/-- The first place of a byte. -/
theorem memchr_some {data : List Byte} {b : Byte} {scan n hit : Nat} (h : memchr data b scan n = some hit) :
    scan ≤ hit ∧ hit < scan + n ∧ ∀ i, scan ≤ i → i < hit → data[i]? ≠ some b := by
  induction n generalizing scan with
  | zero => simp [memchr] at h
  | succ n ih =>
    rw [memchr] at h
    split at h
    · obtain rfl := Option.some.inj h
      exact ⟨Nat.le_refl _, by omega, fun i h₁ h₂ => by omega⟩
    · rename_i hb
      obtain ⟨h₁, h₂, h₃⟩ := ih h
      refine ⟨by omega, by omega, fun i hi hlt => ?_⟩
      by_cases his : i = scan
      · rwa [his]
      · exact h₃ i (by omega) hlt

/-- A byte that is nowhere. -/
theorem memchr_none {data : List Byte} {b : Byte} {scan n : Nat} (h : memchr data b scan n = none) :
    ∀ i, scan ≤ i → i < scan + n → data[i]? ≠ some b := by
  induction n generalizing scan with
  | zero => intro i h₁ h₂; omega
  | succ n ih =>
    intro i h₁ h₂
    rw [memchr] at h
    split at h
    · cases h
    · rename_i hb
      by_cases his : i = scan
      · rwa [his]
      · exact ih h i (by omega) (by omega)

/-- A piece that is found begins with its first byte. -/
theorem SzPiece.matchesAt_head {pc : SzPiece} {b : Byte} {rest data : List Byte} {pos : Nat} (hdata : pc.data = b :: rest)
    (h : pc.matchesAt data pos = true) : data[pos + pc.offset]? = some b := by
  rw [SzPiece.matchesAt, hdata, List.isPrefixOf_iff_prefix] at h
  obtain ⟨t, ht⟩ := h
  have := congrArg (·[0]?) ht
  simpa [List.getElem?_drop, eq_comm] using this

/-- The anchor and the other pieces are all the pieces. -/
theorem piecesOk_iff_anchor {seg : SzSegment} (data : List Byte) (pos : Nat) (hlt : seg.longestIdx < seg.pieces.length) :
    seg.piecesOk data pos = true ↔
      (seg.pieces[seg.longestIdx]).matchesAt data pos = true ∧ seg.otherPiecesOk data pos = true := by
  have hperm := List.getElem_cons_eraseIdx_perm hlt
  rw [SzSegment.piecesOk, ← hperm.all_eq, List.all_cons, Bool.and_eq_true, SzSegment.otherPiecesOk]

section Search

variable {data : List Byte} {seg : SzSegment} {m : Mask Byte} (hrep : Represents seg m)
  (hlt : seg.longestIdx < seg.pieces.length)
include hrep hlt

/-- A place where the block fits shows the anchor's first byte. -/
theorem anchor_head_of_fitsAt {b : Byte} {rest : List Byte} {q : Nat} (hanchor : seg.pieces[seg.longestIdx].data = b :: rest)
    (hfit : FitsAt m data q) : data[q + seg.pieces[seg.longestIdx].offset]? = some b := by
  have hok := (hrep.piecesOk data q hfit.1).mpr hfit
  exact SzPiece.matchesAt_head hanchor ((piecesOk_iff_anchor data q hlt).mp hok).1

/-- The search over the `n` places from `q₀` on, all inside the subject, finds the leftmost one where the block fits. -/
theorem searchSegment_leftmost (fuel q₀ n : Nat) (hfuel : n ≤ fuel) (hroom : q₀ + n + m.length ≤ data.length + 1) :
    Leftmost (FitsAt m data) q₀ n
      (searchSegment data seg seg.pieces[seg.longestIdx] fuel (q₀ + seg.pieces[seg.longestIdx].offset) n) := by
  induction fuel generalizing q₀ n with
  | zero =>
    intro q' h₁ h₂
    omega
  | succ fuel ih =>
    have hpiece := hrep.piece _ (List.getElem_mem hlt)
    rw [searchSegment]
    cases hanchor : seg.pieces[seg.longestIdx].data with
    | nil => exact absurd hanchor hpiece.1
    | cons b rest =>
      have hhead : ∀ q, FitsAt m data q → data[q + seg.pieces[seg.longestIdx].offset]? = some b := fun q hfit =>
        anchor_head_of_fitsAt hrep hlt hanchor hfit
      simp only
      cases hmem : memchr data b (q₀ + seg.pieces[seg.longestIdx].offset) n with
      | none =>
        intro q' h₁ h₂ hfit
        exact memchr_none hmem _ (by omega) (by omega) (hhead q' hfit)
      | some hit =>
        obtain ⟨hle, hhit, hbefore⟩ := memchr_some hmem
        obtain ⟨q, rfl⟩ : ∃ q, hit = q + seg.pieces[seg.longestIdx].offset :=
          ⟨hit - seg.pieces[seg.longestIdx].offset, by omega⟩
        have hleft : ∀ q', q₀ ≤ q' → q' < q → ¬FitsAt m data q' := fun q' h₁ h₂ hfit =>
          hbefore _ (by omega) (by omega) (hhead q' hfit)
        have hok := (piecesOk_iff_anchor data q hlt).symm.trans (hrep.piecesOk data q (by omega))
        simp only [Nat.add_sub_cancel]
        by_cases hfit : FitsAt m data q
        · rw [if_pos (hok.mpr hfit)]
          exact ⟨by omega, by omega, hfit, hleft⟩
        · -- the search goes on one byte after the hit, which is the next place
          rw [if_neg (fun h => hfit (hok.mp h)),
            show q + seg.pieces[seg.longestIdx].offset + 1 = q + 1 + seg.pieces[seg.longestIdx].offset by omega,
            show q₀ + seg.pieces[seg.longestIdx].offset + n - (q + 1 + seg.pieces[seg.longestIdx].offset) = q₀ + n - (q + 1)
              by omega]
          refine (ih (q + 1) (q₀ + n - (q + 1)) (by omega) (by omega)).extend (by omega) fun q' h₁ h₂ => ?_
          by_cases hq : q' = q
          · rwa [hq]
          · exact hleft q' h₁ (by omega)

end Search

/-! ## The floating segments -/

/-- The limits the matcher keeps for the floating blocks, from `pos` on: a block of underscores alone takes the next bytes
before `lim`; any other block is found at some place before `lim`, and lifts the limit to the end of the subject. -/
def CodePlaceable (s : List Byte) : List (Mask Byte) → (pos lim : Nat) → Prop
  | [], _, _ => True
  | m :: ms, pos, lim =>
    if ∀ o ∈ m, o = none then pos + m.length ≤ lim ∧ CodePlaceable s ms (pos + m.length) lim
    else ∃ q, pos ≤ q ∧ q + m.length ≤ lim ∧ FitsAt m s q ∧ CodePlaceable s ms (q + m.length) s.length

/-- The matcher's placement may start further to the left. -/
theorem CodePlaceable.mono_left {s : List Byte} {ms : List (Mask Byte)} {pos pos' lim : Nat}
    (h : CodePlaceable s ms pos lim) (hle : pos' ≤ pos) : CodePlaceable s ms pos' lim := by
  induction ms generalizing pos pos' with
  | nil => trivial
  | cons m ms ih =>
    rw [CodePlaceable] at h ⊢
    split at h
    · rename_i hwild
      rw [if_pos hwild]
      exact ⟨by omega, ih h.2 (by omega)⟩
    · rename_i hwild
      rw [if_neg hwild]
      obtain ⟨q, hq, hlim, hfit, hms⟩ := h
      exact ⟨q, by omega, hlim, hfit, hms⟩

/-- The matcher places whatever can be placed before the tail. -/
theorem CodePlaceable.of_placeable {s : List Byte} {ms : List (Mask Byte)} {pos lim : Nat} (h : Placeable s ms pos lim)
    (hlim : lim ≤ s.length) : CodePlaceable s ms pos lim := by
  induction ms generalizing pos lim with
  | nil => trivial
  | cons m ms ih =>
    obtain ⟨p, hp, hfit, hms⟩ := h
    have hle := hms.width_le
    rw [CodePlaceable]
    split
    · exact ⟨by omega, (ih hms hlim).mono_left (by omega)⟩
    · exact ⟨p, hp, by omega, hfit, ih (hms.mono_right hlim) (Nat.le_refl _)⟩

/-- The loop over the floating segments succeeds exactly when their blocks can be placed under the matcher's limits. -/
theorem matchFloating_isSome (data : List Byte) {segs : List SzSegment} {ms : List (Mask Byte)}
    (hrep : List.Forall₂ Represents segs ms) (pos remaining : Nat) (hroom : pos + remaining ≤ data.length) :
    (matchFloating data segs pos remaining).isSome = true ↔ CodePlaceable data ms pos (pos + remaining) := by
  induction hrep generalizing pos remaining with
  | nil => simp [matchFloating, CodePlaceable]
  | @cons seg m segs ms hseg _ ih =>
    rw [matchFloating, CodePlaceable, hseg.width]
    by_cases hwidth : remaining < m.length
    · rw [if_pos hwidth]
      split
      · simp only [Option.isSome_none, Bool.false_eq_true, false_iff, not_and]
        intro; omega
      · simp only [Option.isSome_none, Bool.false_eq_true, false_iff, not_exists, not_and]
        intro q hq; omega
    · rw [if_neg hwidth]
      cases hpieces : seg.pieces with
      | nil =>
        rw [if_pos (hseg.wild.mp hpieces)]
        simp only
        rw [ih (pos + m.length) (remaining - m.length) (by omega),
          show pos + m.length + (remaining - m.length) = pos + remaining by omega]
        simp only [iff_and_self]
        intro; omega
      | cons first rest =>
        have hne : seg.pieces ≠ [] := by simp [hpieces]
        have hlt := hseg.longest_lt hne
        rw [if_neg (fun hwild => hne (hseg.wild.mpr hwild))]
        have hanchor : (first :: rest).getD seg.longestIdx first = seg.pieces[seg.longestIdx] := by
          rw [← hpieces, List.getD_eq_getElem?_getD, List.getElem?_eq_getElem hlt, Option.getD_some]
        have hsearch := searchSegment_leftmost hseg hlt (pos + remaining - m.length + 1 - pos) pos
          (pos + remaining - m.length + 1 - pos) (Nat.le_refl _) (by omega : _ ≤ data.length + 1)
        simp only [hanchor]
        revert hsearch
        cases searchSegment data seg seg.pieces[seg.longestIdx] (pos + remaining - m.length + 1 - pos)
            (pos + seg.pieces[seg.longestIdx].offset) (pos + remaining - m.length + 1 - pos) with
        | none =>
          intro hnone
          simp only [Option.isSome_none, Bool.false_eq_true, false_iff, not_exists, not_and]
          intro q hq hlim hfit
          exact absurd hfit (hnone q hq (by omega))
        | some q =>
          rintro ⟨hq, hlim, hfit, hleft⟩
          have hend := hfit.1
          simp only
          rw [ih (q + m.length) (data.length - (q + m.length)) (by omega),
            show q + m.length + (data.length - (q + m.length)) = data.length by omega]
          constructor
          · intro h
            exact ⟨q, hq, by omega, hfit, h⟩
          · -- the leftmost place leaves at least the room of any other
            rintro ⟨q', hq', -, hfit', h⟩
            refine h.mono_left ?_
            by_contra hlt'
            exact hleft q' hq' (by omega) hfit'

/-! ## The whole matcher -/

/-- The last stored segment stands for the last block. -/
theorem represents_concat {segs : List SzSegment} {ms : List (Mask Byte)} {e : Mask Byte}
    (h : List.Forall₂ Represents segs (ms ++ [e])) :
    ∃ segs' last, segs = segs' ++ [last] ∧ List.Forall₂ Represents segs' ms ∧ Represents last e := by
  induction ms generalizing segs with
  | nil =>
    obtain _ | ⟨hlast, hnil⟩ := h
    cases hnil
    exact ⟨[], _, rfl, .nil, hlast⟩
  | cons m ms ih =>
    obtain _ | ⟨hseg, hrest⟩ := h
    obtain ⟨segs', last, rfl, hsegs', hlast⟩ := ih hrest
    exact ⟨_ :: segs', last, rfl, .cons hseg hsegs', hlast⟩

/-- After the start, the matcher checks the tail block, if there is one, at the end and the floating blocks before it. -/
theorem matchAfterStart_iff {c : SzLikeCompiled} (data : List Byte) (pos remaining : Nat) {segs : List SzSegment}
    {ms : List (Mask Byte)} {e : Mask Byte} (hend : c.anchoredEnd = true ↔ e ≠ [])
    (hrep : List.Forall₂ Represents segs (ms ++ [e].filter (fun m => !m.isEmpty))) (hroom : pos + remaining = data.length) :
    matchAfterStart c data pos remaining segs = true ↔
      pos + e.length ≤ data.length ∧ FitsAt e data (data.length - e.length) ∧
        CodePlaceable data ms pos (data.length - e.length) := by
  by_cases he : e = []
  · subst he
    have hfalse : c.anchoredEnd = false := by simpa using hend
    simp only [List.isEmpty_nil, Bool.not_true, Bool.false_eq_true, not_false_eq_true, List.filter_cons_of_neg,
      List.filter_nil, List.append_nil] at hrep
    have hfloat := matchFloating_isSome data hrep pos remaining (by omega)
    rw [hroom] at hfloat
    rw [List.length_nil, Nat.add_zero, Nat.sub_zero, fitsAt_nil, ← hfloat, matchAfterStart, hfalse]
    have hpos : pos ≤ data.length := by omega
    cases matchFloating data segs pos remaining <;> simp [hpos]
  · have htrue : c.anchoredEnd = true := hend.mpr he
    have hfilter : [e].filter (fun m => !m.isEmpty) = [e] := by simp [he]
    rw [hfilter] at hrep
    obtain ⟨segs', last, rfl, hsegs', hlast⟩ := represents_concat hrep
    simp only [matchAfterStart, htrue, List.getLast?_concat, List.dropLast_concat, hlast.width]
    by_cases hroom' : pos + e.length ≤ data.length
    · have hok := hlast.piecesOk data (data.length - e.length) (by omega)
      have hfloat := matchFloating_isSome data hsegs' pos (remaining - e.length) (by omega)
      rw [show pos + (remaining - e.length) = data.length - e.length by omega] at hfloat
      rw [if_neg (by omega), if_neg (by omega), ← hok, ← hfloat]
      cases last.piecesOk data (data.length - e.length) <;> simp [hroom']
    · rw [if_pos (by omega)]
      simp [hroom']

/-- The matcher on an object that stores the blocks of a pattern without `%`. -/
theorem match_single_block {c : SzLikeCompiled} {kinds : List PatChar} (hc : StoresBlocks c kinds)
    (hfull : fullBlocks kinds ≠ []) (hb : (blocks kinds).2 = []) (data : List Byte) :
    simdLikeMatchCompiled c data = true ↔
      FitsAt (blocks kinds).1 data 0 ∧ (blocks kinds).1.length = data.length := by
  have hne : (blocks kinds).1 ≠ [] := by
    intro hnil
    exact hfull (by simp [fullBlocks, allBlocks, hnil, hb])
  have hblocks : fullBlocks kinds = [(blocks kinds).1] := by simp [fullBlocks, allBlocks, hb, hne]
  have hsegs := hc.segments
  rw [hblocks, ← List.nil_append [_]] at hsegs
  obtain ⟨segs', last, hseg, hnil, hlast⟩ := represents_concat hsegs
  cases hnil
  have hstart : c.anchoredStart = true := hc.anchoredStart.mpr hne
  have hend : c.anchoredEnd = true := hc.anchoredEnd.mpr ⟨_, by simp [allBlocks, hb], hne⟩
  have hmin : c.minLen = (blocks kinds).1.length := by simp [hc.minLen, hblocks]
  simp only [simdLikeMatchCompiled, hseg, List.nil_append, hstart, hmin, if_true, hlast.width, matchAfterStart, hend,
    List.getLast?_nil, matchFloating]
  by_cases hlen : data.length < (blocks kinds).1.length
  · simp [hlen]
    intro; omega
  · have hok := hlast.piecesOk data 0 (by omega)
    rw [if_neg hlen, if_neg hlen, ← hok]
    cases last.piecesOk data 0 <;> simp

/-- Empty blocks have no width. -/
theorem sum_length_filter (ms : List (Mask Byte)) :
    ((ms.filter (fun m => !m.isEmpty)).map List.length).sum = (ms.map List.length).sum := by
  induction ms with
  | nil => rfl
  | cons m ms ih => cases m <;> simp [ih]

/-- The matcher on an object that stores the blocks of a pattern with a `%`. -/
theorem match_blocks {c : SzLikeCompiled} {kinds : List PatChar} (hc : StoresBlocks c kinds)
    (hfull : fullBlocks kinds ≠ []) {mids : List (Mask Byte)} {e : Mask Byte} (hb : (blocks kinds).2 = mids ++ [e])
    (data : List Byte) :
    simdLikeMatchCompiled c data = true ↔
      ((allBlocks kinds).map List.length).sum ≤ data.length ∧ FitsAt (blocks kinds).1 data 0 ∧
        FitsAt e data (data.length - e.length) ∧
        CodePlaceable data (mids.filter (fun m => !m.isEmpty)) (blocks kinds).1.length (data.length - e.length) := by
  have hmin : c.minLen = ((allBlocks kinds).map List.length).sum := by rw [hc.minLen, fullBlocks, sum_length_filter]
  have hend : c.anchoredEnd = true ↔ e ≠ [] := by
    have hlast : (allBlocks kinds).getLast? = some e := by
      rw [allBlocks, hb, ← List.cons_append, List.getLast?_concat]
    simpa [hlast] using hc.anchoredEnd
  have hsegs := hc.segments
  have hsplit : fullBlocks kinds = [(blocks kinds).1].filter (fun m => !m.isEmpty) ++
      (mids.filter (fun m => !m.isEmpty) ++ [e].filter (fun m => !m.isEmpty)) := by
    rw [fullBlocks, allBlocks, hb, ← List.filter_append, ← List.filter_append, List.singleton_append]
  rw [hsplit] at hsegs
  have hwidth : ((allBlocks kinds).map List.length).sum =
      (blocks kinds).1.length + (mids.map List.length).sum + e.length := by
    simp [allBlocks, hb, Nat.add_assoc]
  rw [simdLikeMatchCompiled, hmin]
  by_cases hlen : data.length < ((allBlocks kinds).map List.length).sum
  · rw [if_pos hlen]
    simp only [Bool.false_eq_true, false_iff, not_and]
    omega
  · rw [if_neg hlen]
    by_cases hhead : (blocks kinds).1 = []
    · have hstart : c.anchoredStart = false := by simpa [hhead] using hc.anchoredStart
      have hafter := matchAfterStart_iff data 0 data.length hend
        (by simpa [hhead] using hsegs) (by omega)
      cases hcs : c.segments with
      | nil =>
        rw [hcs, ← hsplit] at hsegs
        cases hsegs' : fullBlocks kinds with
        | nil => exact absurd hsegs' hfull
        | cons m ms => rw [hsegs'] at hsegs; cases hsegs
      | cons seg segs =>
        rw [hcs] at hafter
        simp only [hstart, Bool.false_eq_true, if_false, hafter, hhead, List.length_nil, fitsAt_nil]
        constructor
        · rintro ⟨h₁, h₂, h₃⟩
          exact ⟨by omega, by omega, h₂, h₃⟩
        · rintro ⟨h₁, -, h₂, h₃⟩
          exact ⟨by omega, h₂, h₃⟩
    · have hstart : c.anchoredStart = true := hc.anchoredStart.mpr hhead
      have hone : [(blocks kinds).1].filter (fun m => !m.isEmpty) = [(blocks kinds).1] := by simp [hhead]
      rw [hone, List.singleton_append] at hsegs
      cases hcs : c.segments with
      | nil => rw [hcs] at hsegs; cases hsegs
      | cons seg segs =>
        rw [hcs] at hsegs
        obtain _ | ⟨hseg, hrest⟩ := hsegs
        have hafter := matchAfterStart_iff data (blocks kinds).1.length (data.length - (blocks kinds).1.length) hend hrest
          (by omega)
        have hok := hseg.piecesOk data 0 (by omega)
        simp only [hstart, if_true, hseg.width]
        rw [if_neg (by omega), ← hok]
        cases seg.piecesOk data 0 with
        | false => simp
        | true =>
          simp only [Bool.true_eq_false, if_false, hafter, true_and]
          constructor
          · rintro ⟨h₁, h₂, h₃⟩
            exact ⟨by omega, h₂, h₃⟩
          · rintro ⟨h₁, h₂, h₃⟩
            exact ⟨by omega, h₂, h₃⟩

end PgJitter
