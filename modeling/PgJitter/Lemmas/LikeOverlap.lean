import PgJitter.Lemmas.LikeMatch
import Mathlib.Order.Nat
import Mathlib.Data.Nat.Find

/-!
# Where the LIKE matcher goes wrong

The matcher's limits are wider than the language's: once a floating block with a literal has been found, the later ones are
searched up to the end of the subject, the bytes of the tail block included. What the matcher accepts and the language does not
has the last floating block lying over the tail (`codePlaceable_cases`). Conversely, when the last floating block can lie over
the tail, a subject of the pattern's minimal width has it there (`overlapSubject`).
-/

namespace PgJitter

open Glob

/-- The floating block `f`, placed so that it ends `t` bytes into the tail block `e`, agrees with it: no byte is asked to be two
letters at once. -/
def LiesOver (f e : Mask Byte) (t : Nat) : Prop :=
  1 ≤ t ∧ t ≤ e.length ∧
    ∀ (i j : Nat) (a b : Byte), t + i = f.length + j → f[i]? = some (some a) → e[j]? = some (some b) → a = b

/-- Some block of the list asks for a literal byte. -/
def HasLiteral (ms : List (Mask Byte)) : Prop := ∃ m ∈ ms, ¬∀ o ∈ m, o = none

/-! ## What the matcher accepts -/

/-- Under the widest limit the matcher's placement is a placement in the subject. -/
theorem placeable_of_codePlaceable {s : List Byte} {ms : List (Mask Byte)} {pos : Nat} (hpos : pos ≤ s.length)
    (h : CodePlaceable s ms pos s.length) : Placeable s ms pos s.length := by
  induction ms generalizing pos with
  | nil => exact hpos
  | cons m ms ih =>
    rw [CodePlaceable] at h
    split at h
    · rename_i hwild
      refine ⟨pos, Nat.le_refl _, ⟨h.1, fun j a hj => ?_⟩, ih h.1 h.2⟩
      exact absurd (hwild _ (List.mem_of_getElem? hj)) (by simp)
    · obtain ⟨q, hq, hlim, hfit, hms⟩ := h
      exact ⟨q, hq, hfit, ih hlim hms⟩

/-- A placement in the subject either stays before `lim`, or its last block ends beyond it. -/
theorem placeable_or_beyond {s : List Byte} {ms : List (Mask Byte)} {pos lim : Nat} (hpos : pos ≤ lim)
    (h : Placeable s ms pos s.length) :
    Placeable s ms pos lim ∨ ∃ pre f q, ms = pre ++ [f] ∧ FitsAt f s q ∧ lim < q + f.length := by
  rcases List.eq_nil_or_concat ms with rfl | ⟨pre, f, rfl⟩
  · exact Or.inl hpos
  · rw [List.concat_eq_append] at h ⊢
    obtain ⟨mid, hpre, q, hq, hfit, -⟩ := (placeable_append s pre [f] pos s.length).mp h
    by_cases hlim : q + f.length ≤ lim
    · exact Or.inl ((placeable_append s pre [f] pos lim).mpr ⟨mid, hpre, q, hq, hfit, hlim⟩)
    · exact Or.inr ⟨pre, f, q, rfl, hfit, by omega⟩

/-- What the matcher places is a placement before the tail, or its last floating block lies over the tail after a floating block
with a literal. -/
theorem codePlaceable_cases {s : List Byte} {ms : List (Mask Byte)} {pos lim : Nat} (hpos : pos ≤ lim)
    (hlim : lim ≤ s.length) (h : CodePlaceable s ms pos lim) :
    Placeable s ms pos lim ∨
      ∃ pre f q, ms = pre ++ [f] ∧ HasLiteral pre ∧ FitsAt f s q ∧ lim < q + f.length := by
  induction ms generalizing pos with
  | nil => exact Or.inl hpos
  | cons m ms ih =>
    rw [CodePlaceable] at h
    split at h
    · rename_i hwild
      rcases ih h.1 h.2 with hms | ⟨pre, f, q, rfl, ⟨m', hm', hlit⟩, hfit, hlt⟩
      · refine Or.inl ⟨pos, Nat.le_refl _, ⟨by have := h.1; omega, fun j a hj => ?_⟩, hms⟩
        exact absurd (hwild _ (List.mem_of_getElem? hj)) (by simp)
      · exact Or.inr ⟨m :: pre, f, q, rfl, ⟨m', List.mem_cons_of_mem _ hm', hlit⟩, hfit, hlt⟩
    · rename_i hlit
      obtain ⟨q, hq, hqlim, hfit, hms⟩ := h
      rcases placeable_or_beyond hqlim (placeable_of_codePlaceable (by omega) hms) with hms | ⟨pre, f, q', rfl, hfit', hlt⟩
      · exact Or.inl ⟨q, hq, hfit, hms⟩
      · exact Or.inr ⟨m :: pre, f, q', rfl, ⟨m, List.mem_cons_self, hlit⟩, hfit', hlt⟩

/-- A floating block and the tail block that both fit, one reaching into the other, lie over each other. -/
theorem liesOver_of_fitsAt {s : List Byte} {f e : Mask Byte} {q : Nat} (hf : FitsAt f s q)
    (he : FitsAt e s (s.length - e.length)) (hlt : s.length - e.length < q + f.length) :
    LiesOver f e (q + f.length - (s.length - e.length)) := by
  have hend := hf.1
  have htail := he.1
  refine ⟨by omega, by omega, fun i j a b hij ha hb => ?_⟩
  have h₁ := hf.2 i a ha
  have h₂ := he.2 j b hb
  rw [show q + i = s.length - e.length + j by omega, h₂] at h₁
  exact (Option.some.inj h₁).symm

/-- The matcher places the floating blocks when those up to one with a literal can be placed before the limit, and the others
anywhere after them. -/
theorem codePlaceable_append {s : List Byte} {pre ms : List (Mask Byte)} {pos mid lim : Nat} (hlit : HasLiteral pre)
    (hpre : Placeable s pre pos mid) (hmid : mid ≤ lim) (hms : Placeable s ms mid s.length) :
    CodePlaceable s (pre ++ ms) pos lim := by
  induction pre generalizing pos with
  | nil => obtain ⟨m, hm, -⟩ := hlit; cases hm
  | cons m pre ih =>
    obtain ⟨p, hp, hfit, hrest⟩ := hpre
    have hle := hrest.width_le
    rw [List.cons_append, CodePlaceable]
    split
    · rename_i hwild
      obtain ⟨m', hm', hlit'⟩ := hlit
      have hm'pre : m' ∈ pre := by
        rcases List.mem_cons.mp hm' with rfl | hm'
        · exact absurd hwild hlit'
        · exact hm'
      exact ⟨by omega, (ih ⟨m', hm'pre, hlit'⟩ hrest).mono_left (by omega)⟩
    · refine ⟨p, hp, by omega, hfit, CodePlaceable.of_placeable ?_ (Nat.le_refl _)⟩
      exact (placeable_append s pre ms _ _).mpr ⟨mid, hrest, hms⟩

/-! ## A subject that is accepted and should not be -/

/-- The first literal of blocks that have one. -/
theorem exists_first_literal {ms : List (Mask Byte)} (h : HasLiteral ms) :
    ∃ (i : Nat) (a : Byte), ms.flatten[i]? = some (some a) ∧ ∀ j, j < i → ms.flatten[j]? = some none := by
  obtain ⟨m, hm, hlit⟩ := h
  have hex : ∃ i : Nat, ∃ a : Byte, ms.flatten[i]? = some (some a) := by
    obtain ⟨o, ho, hne⟩ : ∃ o ∈ m, o ≠ none := by simpa using hlit
    obtain ⟨a, rfl⟩ := Option.ne_none_iff_exists'.mp hne
    obtain ⟨i, hi⟩ := List.mem_iff_getElem?.mp (List.mem_flatten.mpr ⟨m, hm, ho⟩)
    exact ⟨i, a, hi⟩
  classical
  obtain ⟨a, ha⟩ := Nat.find_spec hex
  refine ⟨Nat.find hex, a, ha, fun j hj => ?_⟩
  have hlt : j < ms.flatten.length := Nat.lt_trans hj (List.getElem?_eq_some_iff.mp ha).1
  have hmin := Nat.find_min hex hj
  cases ho : ms.flatten[j] with
  | none => rw [List.getElem?_eq_getElem hlt, ho]
  | some b => exact absurd ⟨b, by rw [List.getElem?_eq_getElem hlt, ho]⟩ hmin

/-- What is asked of the subject apart from its last floating block: the head, then `d` free bytes, the other floating blocks
side by side, free bytes up to the tail, the tail. -/
def overlapGround (b : Mask Byte) (pre : List (Mask Byte)) (f e : Mask Byte) (d : Nat) : Mask Byte :=
  b ++ (List.replicate d none ++ (pre.flatten ++ (List.replicate (f.length - d) none ++ e)))

/-- What the last floating block asks of the subject when it ends `t` bytes into the tail. -/
def overlapFloat (b : Mask Byte) (pre : List (Mask Byte)) (f e : Mask Byte) (t : Nat) : Mask Byte :=
  List.replicate (b.length + pre.flatten.length + t) none ++ (f ++ List.replicate (e.length - t) none)

/-- The subject of minimal width in which the last floating block lies over the tail, with `c` at every free byte. -/
def overlapSubject (c : Byte) (b : Mask Byte) (pre : List (Mask Byte)) (f e : Mask Byte) (t : Nat) : List Byte :=
  Mask.fill c (overlapGround b pre f e (min f.length t)) (overlapFloat b pre f e t)

section Overlap

variable {b : Mask Byte} {pre : List (Mask Byte)} {f e : Mask Byte} {t : Nat}

theorem length_overlapGround {d : Nat} (hd : d ≤ f.length) :
    (overlapGround b pre f e d).length = b.length + pre.flatten.length + f.length + e.length := by
  simp only [overlapGround, List.length_append, List.length_replicate]
  omega

theorem length_overlapFloat (ht : t ≤ e.length) :
    (overlapFloat b pre f e t).length = b.length + pre.flatten.length + f.length + e.length := by
  simp only [overlapFloat, List.length_append, List.length_replicate]
  omega

/-- A letter asked for after the other floating blocks is a letter of the tail. -/
theorem overlapGround_letter {d i : Nat} {a : Byte} (hd : d ≤ f.length) (hi : b.length + pre.flatten.length + d ≤ i)
    (h : (overlapGround b pre f e d)[i]? = some (some a)) :
    ∃ j, i = b.length + pre.flatten.length + f.length + j ∧ e[j]? = some (some a) := by
  rw [overlapGround, List.getElem?_append_right (by omega), List.getElem?_append_right (by rw [List.length_replicate]; omega),
    List.getElem?_append_right (by rw [List.length_replicate]; omega)] at h
  simp only [List.length_replicate] at h
  by_cases hlt : i - b.length - d - pre.flatten.length < f.length - d
  · rw [List.getElem?_append_left (by rw [List.length_replicate]; omega), List.getElem?_replicate, if_pos hlt] at h
    simp at h
  · rw [List.getElem?_append_right (by rw [List.length_replicate]; omega), List.length_replicate] at h
    exact ⟨_, by omega, h⟩

/-- A letter the last floating block asks for is one of its own. -/
theorem overlapFloat_letter {i : Nat} {a : Byte} (h : (overlapFloat b pre f e t)[i]? = some (some a)) :
    ∃ j, i = b.length + pre.flatten.length + t + j ∧ f[j]? = some (some a) := by
  rw [overlapFloat] at h
  by_cases hlt : i < b.length + pre.flatten.length + t
  · rw [List.getElem?_append_left (by rw [List.length_replicate]; omega), List.getElem?_replicate, if_pos hlt] at h
    simp at h
  · rw [List.getElem?_append_right (by rw [List.length_replicate]; omega), List.length_replicate] at h
    by_cases hf : i - (b.length + pre.flatten.length + t) < f.length
    · rw [List.getElem?_append_left hf] at h
      exact ⟨_, by omega, h⟩
    · rw [List.getElem?_append_right (by omega), List.getElem?_replicate] at h
      split at h <;> simp at h

/-- The two things asked of the subject agree, since the last floating block agrees with the tail. -/
theorem overlap_compatible (hover : LiesOver f e t) :
    Mask.Compatible (overlapGround b pre f e (min f.length t)) (overlapFloat b pre f e t) := by
  intro i a a' ha ha'
  obtain ⟨j', rfl, hj'⟩ := overlapFloat_letter ha'
  obtain ⟨j, hj, hje⟩ := overlapGround_letter (by omega) (by omega) ha
  exact (hover.2.2 j' j a' a (by omega) hj' hje).symm

/-- The parts of the subject: where the head, the other floating blocks, the tail and the last floating block fit. -/
theorem overlapSubject_fits (b : Mask Byte) (pre : List (Mask Byte)) (c : Byte) (hover : LiesOver f e t) :
    FitsAt b (overlapSubject c b pre f e t) 0 ∧
      FitsAt pre.flatten (overlapSubject c b pre f e t) (b.length + min f.length t) ∧
      FitsAt e (overlapSubject c b pre f e t) (b.length + pre.flatten.length + f.length) ∧
      FitsAt f (overlapSubject c b pre f e t) (b.length + pre.flatten.length + t) := by
  have hlen : (overlapGround b pre f e (min f.length t)).length = (overlapFloat b pre f e t).length := by
    rw [length_overlapGround (by omega), length_overlapFloat hover.2.1]
  have hground := Mask.fitsAt_fill_left c hlen
  have hfloat := Mask.fitsAt_fill_right c hlen (overlap_compatible hover)
  rw [← overlapSubject] at hground hfloat
  rw [overlapGround] at hground
  rw [overlapFloat] at hfloat
  simp only [fitsAt_append, List.length_replicate, Nat.zero_add] at hground hfloat
  obtain ⟨hb, -, hpre, -, he⟩ := hground
  refine ⟨hb, hpre, ?_, hfloat.2.1⟩
  rwa [show b.length + min f.length t + pre.flatten.length + (f.length - min f.length t) =
    b.length + pre.flatten.length + f.length by omega] at he

theorem length_overlapSubject (b : Mask Byte) (pre : List (Mask Byte)) (c : Byte) (hover : LiesOver f e t) :
    (overlapSubject c b pre f e t).length = b.length + pre.flatten.length + f.length + e.length := by
  rw [overlapSubject, Mask.length_fill, length_overlapGround (by omega)]
  rw [length_overlapGround (by omega), length_overlapFloat hover.2.1]

/-- Where the other floating blocks, moved to their minimal place, would ask for their first letter, the subject has its free
byte. -/
theorem overlapSubject_free (b : Mask Byte) (c : Byte) (hover : LiesOver f e t) (hf : f ≠ []) {i : Nat} {a : Byte}
    (hi : pre.flatten[i]? = some (some a)) (hfirst : ∀ j, j < i → pre.flatten[j]? = some none) :
    (overlapSubject c b pre f e t)[b.length + i]? = some c := by
  have hilt : i < pre.flatten.length := (List.getElem?_eq_some_iff.mp hi).1
  have hflen := List.length_pos_iff.mpr hf
  have ht := hover.1
  have hground : (overlapGround b pre f e (min f.length t))[b.length + i]? = some none := by
    rw [overlapGround, List.getElem?_append_right (by omega), Nat.add_sub_cancel_left]
    by_cases hd : i < min f.length t
    · rw [List.getElem?_append_left (by rwa [List.length_replicate]), List.getElem?_replicate, if_pos hd]
    · rw [List.getElem?_append_right (by rw [List.length_replicate]; omega), List.length_replicate,
        List.getElem?_append_left (by omega), hfirst _ (by omega)]
  have hfloat : (overlapFloat b pre f e t)[b.length + i]? = some none := by
    rw [overlapFloat, List.getElem?_append_left (by rw [List.length_replicate]; omega), List.getElem?_replicate, if_pos (by omega)]
  rw [overlapSubject, Mask.getElem?_fill c hground hfloat]
  rfl

end Overlap

end PgJitter
