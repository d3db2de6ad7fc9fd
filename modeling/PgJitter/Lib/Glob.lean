import Mathlib.Data.List.Basic
import Mathlib.Data.List.Infix
import Mathlib.Algebra.Ring.Nat

/-!
# Wildcard patterns over an alphabet

A pattern is a list of tokens: a letter, a wildcard for one letter, a wildcard for any string. Its language is `Matches`. A
pattern with a string wildcard is a head block, floating blocks and a tail block, each of fixed width (a `Mask`), and its
language is a placement problem: the head fits at the start, the tail at the end, and the floating blocks fit one after another
in between (`matches_starJoin`). Blocks that can be placed from one position on can be placed from every earlier one
(`Placeable.mono_left`), so that a placement is found from the left.
-/

namespace Glob

variable {α : Type*}

/-- A token: one given letter, any one letter, any string. -/
inductive Tok (α : Type*) where
  | lit (a : α)
  | one
  | star
  deriving DecidableEq, Repr

/-- The language of a pattern. -/
def Matches : List (Tok α) → List α → Prop
  | [], s => s = []
  | .lit a :: t, s => ∃ s', s = a :: s' ∧ Matches t s'
  | .one :: t, s => ∃ b s', s = b :: s' ∧ Matches t s'
  | .star :: t, s => ∃ s₁ s₂, s = s₁ ++ s₂ ∧ Matches t s₂

/-- The language of a pattern, decided by trying every suffix at a string wildcard. -/
def matchesB [DecidableEq α] : List (Tok α) → List α → Bool
  | [], s => s.isEmpty
  | .lit a :: t, s => match s with
    | [] => false
    | b :: s' => b == a && matchesB t s'
  | .one :: t, s => match s with
    | [] => false
    | _ :: s' => matchesB t s'
  | .star :: t, s => s.tails.any (matchesB t)

/-- The decision procedure decides the language. -/
theorem matchesB_iff [DecidableEq α] (t : List (Tok α)) (s : List α) : matchesB t s = true ↔ Matches t s := by
  induction t generalizing s with
  | nil => simp [matchesB, Matches]
  | cons o t ih =>
    cases o with
    | lit a => cases s <;> simp [matchesB, Matches, ih]
    | one => cases s <;> simp [matchesB, Matches, ih]
    | star =>
      simp only [matchesB, List.any_eq_true, List.mem_tails, ih, Matches]
      constructor
      · rintro ⟨s₂, ⟨s₁, rfl⟩, h⟩
        exact ⟨s₁, s₂, rfl, h⟩
      · rintro ⟨s₁, s₂, rfl, h⟩
        exact ⟨s₂, ⟨s₁, rfl⟩, h⟩

instance [DecidableEq α] (t : List (Tok α)) (s : List α) : Decidable (Matches t s) :=
  decidable_of_iff _ (matchesB_iff t s)

/-- A pattern cut in two reads a string cut in two. -/
theorem matches_append (t t' : List (Tok α)) (s : List α) :
    Matches (t ++ t') s ↔ ∃ s₁ s₂, s = s₁ ++ s₂ ∧ Matches t s₁ ∧ Matches t' s₂ := by
  induction t generalizing s with
  | nil =>
    constructor
    · intro h
      exact ⟨[], s, rfl, rfl, h⟩
    · rintro ⟨s₁, s₂, rfl, rfl, h⟩
      exact h
  | cons o t ih =>
    cases o with
    | lit a =>
      constructor
      · rintro ⟨s', rfl, h⟩
        obtain ⟨s₁, s₂, rfl, h₁, h₂⟩ := (ih s').1 h
        exact ⟨a :: s₁, s₂, rfl, ⟨s₁, rfl, h₁⟩, h₂⟩
      · rintro ⟨s₁, s₂, rfl, ⟨s', rfl, h₁⟩, h₂⟩
        exact ⟨s' ++ s₂, rfl, (ih _).2 ⟨s', s₂, rfl, h₁, h₂⟩⟩
    | one =>
      constructor
      · rintro ⟨b, s', rfl, h⟩
        obtain ⟨s₁, s₂, rfl, h₁, h₂⟩ := (ih s').1 h
        exact ⟨b :: s₁, s₂, rfl, ⟨b, s₁, rfl, h₁⟩, h₂⟩
      · rintro ⟨s₁, s₂, rfl, ⟨b, s', rfl, h₁⟩, h₂⟩
        exact ⟨b, s' ++ s₂, rfl, (ih _).2 ⟨s', s₂, rfl, h₁, h₂⟩⟩
    | star =>
      constructor
      · rintro ⟨u, s', rfl, h⟩
        obtain ⟨s₁, s₂, rfl, h₁, h₂⟩ := (ih s').1 h
        exact ⟨u ++ s₁, s₂, (List.append_assoc u s₁ s₂).symm, ⟨u, s₁, rfl, h₁⟩, h₂⟩
      · rintro ⟨s₁, s₂, rfl, ⟨u, s', rfl, h₁⟩, h₂⟩
        exact ⟨u, s' ++ s₂, List.append_assoc u s' s₂, (ih _).2 ⟨s', s₂, rfl, h₁, h₂⟩⟩

/-- A run of string wildcards reads anything. -/
theorem matches_stars {t : List (Tok α)} (ht : ∀ o ∈ t, o = .star) (hne : t ≠ []) (s : List α) : Matches t s := by
  induction t with
  | nil => exact absurd rfl hne
  | cons o t ih =>
    obtain rfl := ht o List.mem_cons_self
    cases t with
    | nil => exact ⟨s, [], (List.append_nil s).symm, rfl⟩
    | cons o' t => exact ⟨[], s, rfl, ih (fun x hx => ht x (List.mem_cons_of_mem _ hx)) (List.cons_ne_nil _ _)⟩

/-- A block of fixed width: `some a` asks for the letter `a`, `none` takes any letter. -/
abbrev Mask (α : Type*) := List (Option α)

/-- The tokens of a block. -/
def Mask.toks (m : Mask α) : List (Tok α) := m.map (fun o => o.elim .one .lit)

@[simp] theorem Mask.toks_nil : Mask.toks ([] : Mask α) = [] := rfl

/-- The block fits the string at position `p`: it lies inside it and agrees with it at every letter it asks for. -/
def FitsAt (m : Mask α) (s : List α) (p : Nat) : Prop :=
  p + m.length ≤ s.length ∧ ∀ j a, m[j]? = some (some a) → s[p + j]? = some a

/-- The blocks fit one after another, without overlap, from `pos` on and up to `lim`. -/
def Placeable (s : List α) : List (Mask α) → Nat → Nat → Prop
  | [], pos, lim => pos ≤ lim
  | m :: ms, pos, lim => ∃ p, pos ≤ p ∧ FitsAt m s p ∧ Placeable s ms (p + m.length) lim

/-! ## Blocks -/

@[simp] theorem fitsAt_nil (s : List α) (p : Nat) : FitsAt [] s p ↔ p ≤ s.length := by
  simp [FitsAt]

/-- A block fits when its first letter does and the rest fits one position on. -/
theorem fitsAt_cons (o : Option α) (m : Mask α) (s : List α) (p : Nat) :
    FitsAt (o :: m) s p ↔ (∃ b, s[p]? = some b ∧ ∀ a, o = some a → b = a) ∧ FitsAt m s (p + 1) := by
  constructor
  · rintro ⟨hlen, hfit⟩
    simp only [List.length_cons] at hlen
    have hp : p < s.length := by omega
    refine ⟨⟨s[p], List.getElem?_eq_getElem hp, ?_⟩, by omega, ?_⟩
    · intro a ha
      have := hfit 0 a (by simp [ha])
      simpa [List.getElem?_eq_getElem hp] using this
    · intro j a hj
      have := hfit (j + 1) a (by simpa using hj)
      rwa [show p + (j + 1) = p + 1 + j by omega] at this
  · rintro ⟨⟨b, hb, ho⟩, hlen, hfit⟩
    refine ⟨by simp only [List.length_cons]; omega, ?_⟩
    intro j a hj
    cases j with
    | zero =>
      have ha : o = some a := by simpa using hj
      simpa [ho a ha] using hb
    | succ j =>
      have := hfit j a (by simpa using hj)
      rwa [show p + 1 + j = p + (j + 1) by omega] at this

/-- Two adjacent blocks fit as one. -/
theorem fitsAt_append (m m' : Mask α) (s : List α) (p : Nat) :
    FitsAt (m ++ m') s p ↔ FitsAt m s p ∧ FitsAt m' s (p + m.length) := by
  induction m generalizing p with
  | nil =>
    simp only [List.nil_append, fitsAt_nil, List.length_nil, Nat.add_zero, iff_and_self]
    intro h
    have := h.1
    omega
  | cons o m ih =>
    rw [List.cons_append, fitsAt_cons, fitsAt_cons, ih, List.length_cons, show p + 1 + m.length = p + (m.length + 1) by omega]
    tauto

/-- A string that starts with a block is one where the block fits and the rest matches after it. -/
theorem matches_mask_append (m : Mask α) (t : List (Tok α)) (s : List α) (p : Nat) (hp : p ≤ s.length) :
    Matches (m.toks ++ t) (s.drop p) ↔ FitsAt m s p ∧ Matches t (s.drop (p + m.length)) := by
  induction m generalizing p with
  | nil => simp [hp]
  | cons o m ih =>
    have key : Matches (Mask.toks (o :: m) ++ t) (s.drop p) ↔
        (∃ b, s[p]? = some b ∧ ∀ a, o = some a → b = a) ∧ Matches (Mask.toks m ++ t) (s.drop (p + 1)) := by
      by_cases hlt : p < s.length
      · rw [List.drop_eq_getElem_cons hlt, List.getElem?_eq_getElem hlt]
        generalize s[p] = c, s.drop (p + 1) = rest
        cases o <;> simp [Mask.toks, Matches, eq_comm]
      · have hnil : s.drop p = [] := List.drop_eq_nil_of_le (by omega)
        have hnone : s[p]? = none := List.getElem?_eq_none (by omega)
        rw [hnil]
        cases o <;> simp [Mask.toks, Matches, hnone]
    rw [key, fitsAt_cons, List.length_cons, show p + (m.length + 1) = p + 1 + m.length by omega, and_assoc]
    refine and_congr_right fun ⟨b, hb, _⟩ => ?_
    have hlt : p < s.length := (List.getElem?_eq_some_iff.mp hb).1
    exact ih (p + 1) hlt

/-- A string wildcard skips to some later position. -/
theorem matches_star_drop (t : List (Tok α)) (s : List α) (p : Nat) :
    Matches (.star :: t) (s.drop p) ↔ ∃ q, p ≤ q ∧ Matches t (s.drop q) := by
  constructor
  · rintro ⟨s₁, s₂, hs, ht⟩
    refine ⟨p + s₁.length, by omega, ?_⟩
    rwa [← List.drop_drop, hs, List.drop_left]
  · rintro ⟨q, hpq, ht⟩
    refine ⟨(s.drop p).take (q - p), s.drop q, ?_, ht⟩
    conv_lhs => rw [← List.take_append_drop (q - p) (s.drop p)]
    rw [List.drop_drop, show p + (q - p) = q by omega]

/-! ## Strings built to fit -/

/-- Two blocks laid over each other ask for no two letters at one place. -/
def Mask.Compatible (m m' : Mask α) : Prop :=
  ∀ (i : Nat) (a b : α), m[i]? = some (some a) → m'[i]? = some (some b) → a = b

/-- The string that fits two blocks laid over each other, with `c` wherever neither asks for a letter. -/
def Mask.fill (c : α) (m m' : Mask α) : List α :=
  List.zipWith (fun o o' => (o.or o').getD c) m m'

theorem Mask.length_fill (c : α) {m m' : Mask α} (hlen : m.length = m'.length) :
    (Mask.fill c m m').length = m.length := by
  simp [Mask.fill, hlen]

theorem Mask.getElem?_fill (c : α) {m m' : Mask α} {i : Nat} {o o' : Option α} (ho : m[i]? = some o)
    (ho' : m'[i]? = some o') : (Mask.fill c m m')[i]? = some ((o.or o').getD c) := by
  simp [Mask.fill, List.getElem?_zipWith, ho, ho']

/-- The filled string fits the first block. -/
theorem Mask.fitsAt_fill_left (c : α) {m m' : Mask α} (hlen : m.length = m'.length) : FitsAt m (Mask.fill c m m') 0 := by
  refine ⟨by rw [Mask.length_fill c hlen]; omega, fun j a hj => ?_⟩
  have hlt : j < m'.length := by rw [← hlen]; exact (List.getElem?_eq_some_iff.mp hj).1
  rw [Nat.zero_add, Mask.getElem?_fill c hj (List.getElem?_eq_getElem hlt)]
  simp

/-- The filled string fits the second block when the two are compatible. -/
theorem Mask.fitsAt_fill_right (c : α) {m m' : Mask α} (hlen : m.length = m'.length) (hcompat : Mask.Compatible m m') :
    FitsAt m' (Mask.fill c m m') 0 := by
  refine ⟨by rw [Mask.length_fill c hlen]; omega, fun j a hj => ?_⟩
  have hlt : j < m.length := by rw [hlen]; exact (List.getElem?_eq_some_iff.mp hj).1
  rw [Nat.zero_add, Mask.getElem?_fill c (List.getElem?_eq_getElem hlt) hj]
  rcases hm : m[j] with _ | b
  · simp
  · have := hcompat j b a (by rw [List.getElem?_eq_getElem hlt, hm]) hj
    simp [this]

/-! ## Placements -/

/-- A placement may start further to the left. -/
theorem Placeable.mono_left {s : List α} {ms : List (Mask α)} {pos pos' lim : Nat} (h : Placeable s ms pos lim)
    (hle : pos' ≤ pos) : Placeable s ms pos' lim := by
  cases ms with
  | nil => exact Nat.le_trans hle h
  | cons m ms =>
    obtain ⟨p, hp, hm, hms⟩ := h
    exact ⟨p, Nat.le_trans hle hp, hm, hms⟩

/-- A placement may end further to the right. -/
theorem Placeable.mono_right {s : List α} {ms : List (Mask α)} {pos lim lim' : Nat} (h : Placeable s ms pos lim)
    (hle : lim ≤ lim') : Placeable s ms pos lim' := by
  induction ms generalizing pos with
  | nil => exact Nat.le_trans h hle
  | cons m ms ih =>
    obtain ⟨p, hp, hm, hms⟩ := h
    exact ⟨p, hp, hm, ih hms⟩

/-- The blocks of a placement fill at most the space they are placed in. -/
theorem Placeable.width_le {s : List α} {ms : List (Mask α)} {pos lim : Nat} (h : Placeable s ms pos lim) :
    pos + (ms.map List.length).sum ≤ lim := by
  induction ms generalizing pos with
  | nil => simpa [Placeable] using h
  | cons m ms ih =>
    obtain ⟨p, hp, -, hms⟩ := h
    have := ih hms
    simp only [List.map_cons, List.sum_cons]
    omega

/-- Placements one after the other make one placement, and a placement splits anywhere. -/
theorem placeable_append (s : List α) (ms ms' : List (Mask α)) (pos lim : Nat) :
    Placeable s (ms ++ ms') pos lim ↔ ∃ mid, Placeable s ms pos mid ∧ Placeable s ms' mid lim := by
  induction ms generalizing pos with
  | nil =>
    constructor
    · intro h
      exact ⟨pos, Nat.le_refl _, h⟩
    · rintro ⟨mid, hpos, h⟩
      exact h.mono_left hpos
  | cons m ms ih =>
    constructor
    · rintro ⟨p, hp, hm, hms⟩
      obtain ⟨mid, h₁, h₂⟩ := (ih _).mp hms
      exact ⟨mid, ⟨p, hp, hm, h₁⟩, h₂⟩
    · rintro ⟨mid, ⟨p, hp, hm, h₁⟩, h₂⟩
      exact ⟨p, hp, hm, (ih _).mpr ⟨mid, h₁, h₂⟩⟩

/-- Empty blocks take no room: they may be dropped from a placement that stays inside the string. -/
theorem placeable_filter (s : List α) (ms : List (Mask α)) (pos lim : Nat) (hlim : lim ≤ s.length) :
    Placeable s (ms.filter (fun m => !m.isEmpty)) pos lim ↔ Placeable s ms pos lim := by
  induction ms generalizing pos with
  | nil => rfl
  | cons m ms ih =>
    cases m with
    | nil =>
      simp only [List.isEmpty_nil, Bool.not_true, Bool.false_eq_true, not_false_eq_true, List.filter_cons_of_neg, ih]
      constructor
      · intro h
        have := h.width_le
        exact ⟨pos, Nat.le_refl _, by rw [fitsAt_nil]; omega, h⟩
      · rintro ⟨p, hp, -, h⟩
        exact h.mono_left hp
    | cons o m => simp only [List.isEmpty_cons, Bool.not_false, List.filter_cons_of_pos, Placeable, ih]

/-- Blocks that fit side by side are placed there. -/
theorem placeable_of_fitsAt_flatten {s : List α} {ms : List (Mask α)} {pos : Nat} (h : FitsAt ms.flatten s pos) :
    Placeable s ms pos (pos + ms.flatten.length) := by
  induction ms generalizing pos with
  | nil => simp [Placeable]
  | cons m ms ih =>
    rw [List.flatten_cons, fitsAt_append] at h
    refine ⟨pos, Nat.le_refl _, h.1, ?_⟩
    have := ih h.2
    rwa [List.flatten_cons, List.length_append, ← Nat.add_assoc]

/-- Blocks placed in a space that is exactly their width are placed side by side. -/
theorem fitsAt_flatten_of_placeable {s : List α} {ms : List (Mask α)} {pos lim : Nat} (h : Placeable s ms pos lim)
    (hlim : lim ≤ s.length) (hw : lim = pos + ms.flatten.length) : FitsAt ms.flatten s pos := by
  induction ms generalizing pos with
  | nil => simpa using Nat.le_trans h hlim
  | cons m ms ih =>
    obtain ⟨p, hp, hm, hms⟩ := h
    have hle := hms.width_le
    rw [List.flatten_cons, List.length_append] at hw
    rw [List.length_flatten] at hw
    have hpp : p = pos := by omega
    subst hpp
    rw [List.flatten_cons, fitsAt_append]
    exact ⟨hm, ih hms (by rw [List.length_flatten]; omega)⟩

/-! ## A pattern with a string wildcard is a placement problem -/

/-- The tokens of blocks that each follow a string wildcard. -/
def starJoin (ms : List (Mask α)) : List (Tok α) := ms.flatMap (fun m => .star :: m.toks)

/-- A block at the end of a string. -/
theorem matches_mask_drop (m : Mask α) (s : List α) (p : Nat) (hp : p ≤ s.length) :
    Matches m.toks (s.drop p) ↔ FitsAt m s p ∧ p + m.length = s.length := by
  have h := matches_mask_append m [] s p hp
  rw [List.append_nil] at h
  rw [h]
  refine and_congr_right fun hm => ?_
  simp only [Matches, List.drop_eq_nil_iff]
  exact ⟨fun hle => Nat.le_antisymm hm.1 hle, fun heq => by omega⟩

/-- Floating blocks and a tail after a string wildcard match from `p` on exactly when the tail fits the end and the blocks can be
placed between. -/
theorem matches_starJoin_drop (mids : List (Mask α)) (e : Mask α) (s : List α) (p : Nat) (hp : p ≤ s.length) :
    Matches (starJoin (mids ++ [e])) (s.drop p) ↔
      e.length ≤ s.length ∧ FitsAt e s (s.length - e.length) ∧ Placeable s mids p (s.length - e.length) := by
  induction mids generalizing p with
  | nil =>
    simp only [starJoin, List.nil_append, List.flatMap_singleton, matches_star_drop, Placeable]
    constructor
    · rintro ⟨q, hpq, hq⟩
      have hqs : q ≤ s.length ∨ s.length < q := by omega
      rcases hqs with hqs | hqs
      · obtain ⟨hfit, hlen⟩ := (matches_mask_drop e s q hqs).mp hq
        obtain rfl : q = s.length - e.length := by omega
        exact ⟨by omega, hfit, by omega⟩
      · rw [List.drop_eq_nil_of_le (by omega), ← List.drop_length (l := s)] at hq
        obtain ⟨hfit, hlen⟩ := (matches_mask_drop e s s.length (Nat.le_refl _)).mp hq
        have he : e.length = 0 := by omega
        exact ⟨by omega, by simpa [he] using hfit, by omega⟩
    · rintro ⟨hle, hfit, hpq⟩
      exact ⟨s.length - e.length, hpq, (matches_mask_drop e s _ (by omega)).mpr ⟨hfit, by omega⟩⟩
  | cons m mids ih =>
    rw [starJoin, List.cons_append, List.flatMap_cons, ← starJoin, List.cons_append, matches_star_drop]
    constructor
    · rintro ⟨q, hpq, hq⟩
      have hqs : q ≤ s.length ∨ s.length < q := by omega
      obtain ⟨q', hq', hpq', h⟩ : ∃ q', q' ≤ s.length ∧ p ≤ q' ∧ Matches (m.toks ++ starJoin (mids ++ [e])) (s.drop q') := by
        rcases hqs with hqs | hqs
        · exact ⟨q, hqs, hpq, hq⟩
        · refine ⟨s.length, Nat.le_refl _, hp, ?_⟩
          rwa [List.drop_length, ← List.drop_eq_nil_of_le (by omega : s.length ≤ q)]
      rw [matches_mask_append m _ s q' hq'] at h
      obtain ⟨hle, hfit, hpl⟩ := (ih _ h.1.1).mp h.2
      exact ⟨hle, hfit, q', hpq', h.1, hpl⟩
    · rintro ⟨hle, hfit, q, hpq, hm, hpl⟩
      have hq : q ≤ s.length := by have := hm.1; omega
      exact ⟨q, hpq, (matches_mask_append m _ s q hq).mpr ⟨hm, (ih _ hm.1).mpr ⟨hle, hfit, hpl⟩⟩⟩

/-- The language of a pattern with a string wildcard: the head fits the start, the tail the end, and the floating blocks can be
placed in between. -/
theorem matches_starJoin (b : Mask α) (mids : List (Mask α)) (e : Mask α) (s : List α) :
    Matches (b.toks ++ starJoin (mids ++ [e])) s ↔
      FitsAt b s 0 ∧ e.length ≤ s.length ∧ FitsAt e s (s.length - e.length) ∧
        Placeable s mids b.length (s.length - e.length) := by
  have h := matches_mask_append b (starJoin (mids ++ [e])) s 0 (Nat.zero_le _)
  rw [List.drop_zero, Nat.zero_add] at h
  rw [h]
  exact and_congr_right fun hb => matches_starJoin_drop mids e s _ (by have := hb.1; omega)

/-- The language of a pattern without a string wildcard. -/
theorem matches_mask (m : Mask α) (s : List α) : Matches m.toks s ↔ FitsAt m s 0 ∧ m.length = s.length := by
  have h := matches_mask_drop m s 0 (Nat.zero_le _)
  rwa [List.drop_zero, Nat.zero_add] at h

end Glob
