import PgJitter.Lemmas.FloatCmp
import PgJitter.Lib.Extremum
import PgJitter.MinMax
import Mathlib.Data.List.TakeWhile

/-!
# Folding the MIN and MAX transitions

What a run leaves, as a selection among the inputs: by a total order of integers for the integer types, by the machine's comparison
for floats.
-/

namespace PgJitter

namespace MinMaxAux

open Extremum

variable {α β : Type} [LinearOrder α] [LinearOrder β] {F : FloatFormats α β} {isMin : Bool} {ty : MinMaxType}

/-- After its first input a run folds the emitted body. -/
theorem inlineMinMaxRun_cons (x : Datum) (xs : List Datum) :
    inlineMinMaxRun F isMin ty (x :: xs) = ⟨xs.foldl (inlineMinMax F isMin ty) x, false, false⟩ := by
  have hrest : ∀ (v : Datum) (xs : List Datum), xs.foldl (inlineMinMaxTrans F isMin ty) ⟨v, false, false⟩ =
      ⟨xs.foldl (inlineMinMax F isMin ty) v, false, false⟩ := by
    intro v xs
    induction xs generalizing v with
    | nil => rfl
    | cons y ys ih => exact ih _
  exact hrest x xs

/-! ## Integers -/

/-- The test of a key. -/
def keepKey {K : Type} [LinearOrder K] (isMin : Bool) (a b : K) : Bool := if isMin then decide (a ≤ b) else decide (b ≤ a)

section KeepKey

variable {K : Type} [LinearOrder K] {a b c : K}

theorem keepKey_iff : keepKey isMin a b = true ↔ if isMin then a ≤ b else b ≤ a := by
  cases isMin <;> simp [keepKey]

theorem keepKey_refl (a : K) : keepKey isMin a a = true := by
  cases isMin <;> simp [keepKey]

theorem keepKey_trans (h : keepKey isMin a b = true) (h' : keepKey isMin b c = true) : keepKey isMin a c = true := by
  rw [keepKey_iff] at h h' ⊢
  cases isMin with
  | true => exact le_trans h h'
  | false => exact le_trans h' h

/-- Of two keys one is kept before the other. -/
theorem keepKey_of_not (h : keepKey isMin a b = false) : keepKey isMin b a = true := by
  cases isMin with
  | true => simpa [keepKey] using le_of_lt (show b < a by simpa [keepKey] using h)
  | false => simpa [keepKey] using le_of_lt (show a < b by simpa [keepKey] using h)

end KeepKey

/-- Selecting by a key finds the extremum of the keys. -/
theorem select_extreme {K : Type} [LinearOrder K] (isMin : Bool) (m : K) (xs : List K) :
    IsExtreme (· ≤ ·) isMin (select (keepKey isMin) m xs) (m :: xs) := by
  intro y hy
  have hkept := select_rel (r := fun a b : K => keepKey isMin a b = true) keepKey_refl (fun _ _ _ => keepKey_trans) (fun _ _ h => h)
    (fun _ _ => keepKey_of_not) m xs y hy
  exact keepKey_iff.1 hkept

/-- When the order of a type is that of a key, a run is right if its key is that of an extreme input. -/
theorem minMaxRight_iff_key {K : Type} [LinearOrder K] (g : Datum → K) (hle : ∀ a b, ty.Le F a b ↔ g a ≤ g b) (x : Datum)
    (xs : List Datum) :
    MinMaxRight F isMin ty (x :: xs) ↔ ∃ m ∈ x :: xs, IsExtreme (fun a b => g a ≤ g b) isMin m (x :: xs) ∧
      g (xs.foldl (inlineMinMax F isMin ty) x) = g m := by
  have hext : ∀ m, IsExtreme (ty.Le F) isMin m (x :: xs) ↔ IsExtreme (fun a b => g a ≤ g b) isMin m (x :: xs) := by
    intro m
    simp only [IsExtreme, hle]
  simp only [MinMaxRight, inlineMinMaxRun_cons, hext, hle, le_antisymm_iff, true_and]

/-- A body that selects by the key of the order is right on every run. -/
theorem minMaxRight_of_key {K : Type} [LinearOrder K] (g : Datum → K) (hle : ∀ a b, ty.Le F a b ↔ g a ≤ g b)
    (hstep : ∀ m x, g (inlineMinMax F isMin ty m x) = choose (keepKey isMin) (g m) (g x)) (x : Datum) (xs : List Datum) :
    MinMaxRight F isMin ty (x :: xs) := by
  rw [minMaxRight_iff_key g hle, map_foldl hstep]
  have hmem : select (keepKey isMin) (g x) (xs.map g) ∈ g x :: xs.map g := select_mem (g x) (xs.map g)
  have hext := select_extreme isMin (g x) (xs.map g)
  rw [← List.map_cons] at hmem hext
  obtain ⟨m, hm, hgm⟩ := List.mem_map.1 hmem
  refine ⟨m, hm, fun y hy => ?_, hgm.symm⟩
  have := hext (g y) (List.mem_map_of_mem hy)
  rwa [← hgm] at this

/-- The template selects by a key that the load keeps and the comparison reads. -/
theorem key_inlineMinMaxWord {K : Type} [LinearOrder K] {g : Datum → K} {load : Datum → Datum} {skip : Datum → Datum → Bool}
    (hload : ∀ d, g (load d) = g d) (hskip : ∀ a b, skip (load a) (load b) = keepKey isMin (g a) (g b)) (m x : Datum) :
    g (inlineMinMaxWord load skip m x) = choose (keepKey isMin) (g m) (g x) := by
  unfold inlineMinMaxWord choose
  rw [← hskip]
  dsimp only
  split
  · rfl
  · exact hload x

theorem sigSkip_eq (r1 r2 : Datum) : sigSkip isMin r1 r2 = keepKey isMin r1.toInt r2.toInt := by
  cases isMin <;> simp [sigSkip, keepKey, BitVec.sle]

theorem unsSkip_eq (r1 r2 : Datum) : unsSkip isMin r1 r2 = keepKey isMin r1.toNat r2.toNat := by
  cases isMin <;> simp [unsSkip, keepKey, BitVec.ule]

theorem toInt_movS32 (d : Datum) : (movS32 d).toInt = (low32 d).toInt := BitVec.toInt_signExtend_of_le (by decide)

theorem toInt_movS16 (d : Datum) : (movS16 d).toInt = (d.setWidth 16).toInt := BitVec.toInt_signExtend_of_le (by decide)

/-- Sign extension keeps the low bits. -/
theorem setWidth_signExtend {v w : Nat} (h : v ≤ w) (x : BitVec v) : (x.signExtend w).setWidth v = x := by
  apply BitVec.eq_of_getLsbD_eq
  intro i hi
  rw [BitVec.getLsbD_setWidth, BitVec.getLsbD_signExtend]
  simp only [hi, show i < w by omega, decide_true, Bool.true_and, if_true]

theorem low32_movS32 (d : Datum) : low32 (movS32 d) = low32 d := setWidth_signExtend (by decide) _

theorem setWidth_movS16 (d : Datum) : (movS16 d).setWidth 16 = d.setWidth 16 := setWidth_signExtend (by decide) _

/-- `MOV_S32` makes the whole-register comparison one of the low halves, however they were extended. -/
theorem key_movS32 (m x : Datum) :
    (low32 (inlineMinMaxWord movS32 (sigSkip isMin) m x)).toInt =
      choose (keepKey isMin) (low32 m).toInt (low32 x).toInt := by
  refine key_inlineMinMaxWord (g := fun d => (low32 d).toInt) (fun d => ?_) (fun a b => ?_) m x
  · rw [low32_movS32]
  · rw [sigSkip_eq, toInt_movS32, toInt_movS32]

/-- Words that are compared as they are. -/
theorem key_mov (m x : Datum) :
    (inlineMinMaxWord id (sigSkip isMin) m x).toInt = choose (keepKey isMin) m.toInt x.toInt :=
  key_inlineMinMaxWord (g := fun d => d.toInt) (fun _ => rfl) (fun a b => sigSkip_eq a b) m x

/-- `MOV_S16` makes the comparison one of the low 16 bits. -/
theorem key_movS16 (m x : Datum) :
    ((inlineMinMaxWord movS16 (sigSkip isMin) m x).setWidth 16).toInt =
      choose (keepKey isMin) (m.setWidth 16).toInt (x.setWidth 16).toInt := by
  refine key_inlineMinMaxWord (g := fun d => (d.setWidth 16).toInt) (fun d => ?_) (fun a b => ?_) m x
  · rw [setWidth_movS16]
  · rw [sigSkip_eq, toInt_movS16, toInt_movS16]

/-- The types that are compared at their own width. -/
theorem minMaxRight_int2 (x : Datum) (xs : List Datum) : MinMaxRight F isMin .int2 (x :: xs) := by
  refine minMaxRight_of_key (fun d => (d.setWidth 16).toInt) (fun _ _ => Iff.rfl) (fun m x => ?_) x xs
  exact key_movS16 m x

theorem minMaxRight_int4 (x : Datum) (xs : List Datum) : MinMaxRight F isMin .int4 (x :: xs) := by
  refine minMaxRight_of_key (fun d => (low32 d).toInt) (fun _ _ => Iff.rfl) (fun m x => ?_) x xs
  exact key_movS32 m x

theorem minMaxRight_date (x : Datum) (xs : List Datum) : MinMaxRight F isMin .date (x :: xs) := by
  refine minMaxRight_of_key (fun d => (low32 d).toInt) (fun _ _ => Iff.rfl) (fun m x => ?_) x xs
  exact key_movS32 m x

theorem minMaxRight_int8 (x : Datum) (xs : List Datum) : MinMaxRight F isMin .int8 (x :: xs) := by
  refine minMaxRight_of_key (fun d => d.toInt) (fun _ _ => Iff.rfl) (fun m x => ?_) x xs
  exact key_mov m x

theorem minMaxRight_timestamp (x : Datum) (xs : List Datum) : MinMaxRight F isMin .timestamp (x :: xs) := by
  refine minMaxRight_of_key (fun d => d.toInt) (fun _ _ => Iff.rfl) (fun m x => ?_) x xs
  exact key_mov m x

theorem minMaxRight_time (x : Datum) (xs : List Datum) : MinMaxRight F isMin .time (x :: xs) := by
  refine minMaxRight_of_key (fun d => d.toInt) (fun _ _ => Iff.rfl) (fun m x => ?_) x xs
  exact key_mov m x

/-! ## OIDs -/

/-- The OID body selects by the whole word. -/
theorem key_oid (m x : Datum) :
    (inlineMinMax F isMin .oid m x).toNat = choose (keepKey isMin) m.toNat x.toNat :=
  key_inlineMinMaxWord (g := fun d => d.toNat) (fun _ => rfl) (fun a b => unsSkip_eq a b) m x

/-- What is left is one of the inputs. -/
theorem foldl_oid_mem (x : Datum) (xs : List Datum) : xs.foldl (inlineMinMax F isMin .oid) x ∈ x :: xs := by
  have hword : xs.foldl (inlineMinMax F isMin .oid) x = select (unsSkip isMin) x xs :=
    map_foldl (g := id) (fun _ _ => rfl) x xs |>.trans (by rw [List.map_id]; rfl)
  rw [hword]
  exact select_mem x xs

/-- Two extremes of a list are equal. -/
theorem isExtreme_unique {K : Type} [LinearOrder K] {g : Datum → K} {m m' : Datum} {xs : List Datum} (hm : m ∈ xs) (hm' : m' ∈ xs)
    (h : IsExtreme (fun a b => g a ≤ g b) isMin m xs) (h' : IsExtreme (fun a b => g a ≤ g b) isMin m' xs) : g m = g m' := by
  have h1 := h m' hm'
  have h2 := h' m hm
  cases isMin with
  | true => exact le_antisymm (by simpa using h1) (by simpa using h2)
  | false => exact le_antisymm (by simpa using h2) (by simpa using h1)

/-- OIDs: the run is right when an input is extreme both as a word and as an OID. -/
theorem minMaxRight_oid_iff (x : Datum) (xs : List Datum) :
    MinMaxRight F isMin .oid (x :: xs) ↔ OidsInOrder isMin (x :: xs) := by
  rw [minMaxRight_iff_key (fun d => (low32 d).toNat) (fun _ _ => Iff.rfl)]
  have hr : xs.foldl (inlineMinMax F isMin .oid) x ∈ x :: xs := foldl_oid_mem x xs
  have hword : IsExtreme (fun a b : Datum => a.toNat ≤ b.toNat) isMin (xs.foldl (inlineMinMax F isMin .oid) x) (x :: xs) := by
    intro y hy
    have := select_extreme isMin x.toNat (xs.map BitVec.toNat) y.toNat (List.mem_map_of_mem (f := BitVec.toNat) hy)
    rwa [← map_foldl (g := BitVec.toNat) (key_oid (F := F)) x xs] at this
  generalize xs.foldl (inlineMinMax F isMin .oid) x = r at hr hword ⊢
  constructor
  · rintro ⟨m, hm, hext, hrm⟩
    refine ⟨r, hr, hword, fun y hy => ?_⟩
    have := hext y hy
    dsimp only at this hrm ⊢
    rwa [hrm]
  · rintro ⟨m, hm, hmword, hext⟩
    refine ⟨m, hm, hext, ?_⟩
    have : r = m := BitVec.eq_of_toNat_eq (isExtreme_unique (g := BitVec.toNat) hr hm hword hmword)
    rw [this]

/-! ## Floats -/

omit [LinearOrder β] in
/-- A number after a list without NaN. -/
theorem afterLastNan_append (fs : List (PgFloat β)) (f : PgFloat β) :
    afterLastNan (fs ++ [f]) = if f.isnan then [] else afterLastNan fs ++ [f] := by
  unfold afterLastNan
  rw [List.reverse_append, List.reverse_singleton, List.singleton_append, List.takeWhile_cons]
  cases f.isnan <;> simp

omit [LinearOrder β] in
theorem afterLastNan_sub {fs : List (PgFloat β)} {f : PgFloat β} (h : f ∈ afterLastNan fs) : f ∈ fs ∧ f.isnan = false := by
  rw [afterLastNan, List.mem_reverse] at h
  refine ⟨List.mem_reverse.1 ((List.takeWhile_prefix _).subset h), ?_⟩
  simpa using List.mem_takeWhile_imp h

omit [LinearOrder β] in
/-- Nothing comes after the last NaN when that is the last float. -/
theorem getLast?_of_afterLastNan_eq_nil {fs : List (PgFloat β)} (hne : fs ≠ []) (h : afterLastNan fs = []) :
    ∃ f, fs.getLast? = some f ∧ f.isnan := by
  obtain ⟨fs, f, rfl⟩ : ∃ l f, fs = l ++ [f] := ⟨_, _, (List.dropLast_append_getLast hne).symm⟩
  refine ⟨f, by simp, ?_⟩
  rw [afterLastNan_append] at h
  cases hf : f.isnan with
  | true => rfl
  | false => simp [hf] at h

omit [LinearOrder β] in
theorem afterLastNan_eq_nil_of_getLast? {fs : List (PgFloat β)} {f : PgFloat β} (h : fs.getLast? = some f) (hf : f.isnan = true) :
    afterLastNan fs = [] := by
  obtain ⟨l, rfl⟩ := List.getLast?_eq_some_iff.1 h
  rw [afterLastNan_append, if_pos hf]

omit [LinearOrder β] in
theorem afterLastNan_of_num {fs : List (PgFloat β)} (h : ∀ f ∈ fs, ¬ f.isnan) : afterLastNan fs = fs := by
  unfold afterLastNan
  rw [List.takeWhile_eq_self_iff.2, List.reverse_reverse]
  intro f hf
  simpa using h f (List.mem_reverse.1 hf)

/-- The machine's comparison of numbers is that of the order. -/
theorem floatSkip_of_num {a b : PgFloat β} (ha : a.isnan = false) (hb : b.isnan = false) :
    floatSkip isMin a b = keepKey isMin a.key b.key := by
  cases a with
  | nan => nomatch ha
  | num a =>
    cases b with
    | nan => nomatch hb
    | num b => cases isMin <;> simp [floatSkip, keepKey, PgFloat.le, PgFloat.key]

theorem floatSkip_of_nan {a b : PgFloat β} (h : (a.isnan || b.isnan) = true) : floatSkip isMin a b = false := by
  cases isMin <;> cases a <;> cases b <;> first | rfl | nomatch h

/-- The machine's comparison selects among the floats after the last NaN, and is left with NaN when there are none. -/
theorem floatSelect_spec (isMin : Bool) (m : PgFloat β) (fs : List (PgFloat β)) :
    (afterLastNan (m :: fs) = [] → (select (floatSkip isMin) m fs).isnan = true) ∧
    (afterLastNan (m :: fs) ≠ [] → select (floatSkip isMin) m fs ∈ afterLastNan (m :: fs) ∧
      ∀ y ∈ afterLastNan (m :: fs), if isMin then (select (floatSkip isMin) m fs).key ≤ y.key
        else y.key ≤ (select (floatSkip isMin) m fs).key) := by
  induction fs using List.reverseRecOn with
  | nil =>
    have h1 : afterLastNan [m] = if m.isnan then [] else [m] := by
      rw [← List.nil_append [m], afterLastNan_append]
      rfl
    rw [select_nil, h1]
    cases m.isnan <;> simp
  | append_singleton fs f ih =>
    rw [select_append_singleton, ← List.cons_append, afterLastNan_append]
    generalize select (floatSkip isMin) m fs = r at ih ⊢
    cases hf : f.isnan with
    | true =>
      rw [if_pos rfl, choose, floatSkip_of_nan (by rw [hf, Bool.or_true]), if_neg (by decide)]
      exact ⟨fun _ => hf, fun h => absurd rfl h⟩
    | false =>
      rw [if_neg (by decide)]
      refine ⟨fun h => absurd h (by simp), fun _ => ?_⟩
      by_cases hnil : afterLastNan (m :: fs) = []
      · -- the accumulator is NaN, so the number replaces it
        rw [hnil, choose, floatSkip_of_nan (by rw [ih.1 hnil, Bool.true_or]), if_neg (by decide)]
        refine ⟨by simp, fun y hy => ?_⟩
        rw [List.nil_append, List.mem_singleton] at hy
        subst hy
        cases isMin <;> simp
      · obtain ⟨hr, hext⟩ := ih.2 hnil
        rw [choose, floatSkip_of_num (afterLastNan_sub hr).2 hf]
        cases hk : keepKey isMin r.key f.key with
        | true =>
          rw [if_pos rfl]
          refine ⟨List.mem_append_left _ hr, fun y hy => ?_⟩
          rcases List.mem_append.1 hy with hy | hy
          · exact hext y hy
          · rw [List.mem_singleton.1 hy]
            exact keepKey_iff.1 hk
        | false =>
          rw [if_neg Bool.false_ne_true]
          refine ⟨by simp, fun y hy => ?_⟩
          rcases List.mem_append.1 hy with hy | hy
          · exact keepKey_iff.1 (keepKey_trans (keepKey_of_not hk) (keepKey_iff.2 (hext y hy)))
          · rw [List.mem_singleton.1 hy]
            exact keepKey_iff.1 (keepKey_refl _)

theorem key_eq_top_iff {γ : Type} (f : PgFloat γ) : f.key = ⊤ ↔ f.isnan = true := by
  cases f <;> simp [PgFloat.key, PgFloat.isnan]

/-- A selected float has the key of an extreme one exactly when the floats are in order. -/
theorem floatsInOrder_iff (m : PgFloat β) (fs : List (PgFloat β)) :
    (∃ f ∈ m :: fs, (∀ y ∈ m :: fs, if isMin then f.key ≤ y.key else y.key ≤ f.key) ∧
      (select (floatSkip isMin) m fs).key = f.key) ↔ FloatsInOrder isMin (m :: fs) := by
  obtain ⟨hnil, hcons⟩ := floatSelect_spec isMin m fs
  have hne : m :: fs ≠ [] := List.cons_ne_nil m fs
  generalize select (floatSkip isMin) m fs = r at hnil hcons ⊢
  generalize m :: fs = l at hnil hcons hne ⊢
  unfold FloatsInOrder
  by_cases hafter : afterLastNan l = []
  · have hr : r.key = ⊤ := (key_eq_top_iff r).2 (hnil hafter)
    obtain ⟨last, hlast, hnan⟩ := getLast?_of_afterLastNan_eq_nil hne hafter
    have hmem : last ∈ l := List.mem_of_getLast? hlast
    have hkey : last.key = ⊤ := (key_eq_top_iff last).2 hnan
    cases isMin with
    | true =>
      simp only [if_true, hafter, List.not_mem_nil, false_and, exists_false, or_false]
      constructor
      · rintro ⟨f, _, hext, hrf⟩ y hy
        have := hext y hy
        rw [← hrf, hr, top_le_iff] at this
        exact (key_eq_top_iff y).1 this
      · intro hall
        refine ⟨last, hmem, fun y hy => ?_, by rw [hr, hkey]⟩
        rw [(key_eq_top_iff y).2 (hall y hy)]
        exact le_top
    | false =>
      simp only [Bool.false_eq_true, if_false]
      refine iff_of_true ⟨last, hmem, fun y _ => ?_, by rw [hr, hkey]⟩ (Or.inr ⟨last, hlast, hnan⟩)
      rw [hkey]
      exact le_top
  · obtain ⟨hr, hext⟩ := hcons hafter
    obtain ⟨hrmem, hrnum⟩ := afterLastNan_sub hr
    have hrtop : r.key ≠ ⊤ := fun h => absurd ((key_eq_top_iff r).1 h) (by rw [hrnum]; decide)
    cases isMin with
    | true =>
      simp only [if_true] at hext ⊢
      constructor
      · rintro ⟨f, _, hf, hrf⟩
        exact Or.inr ⟨r, hr, fun y hy => hrf ▸ hf y hy⟩
      · rintro (hall | ⟨f, hf, hle⟩)
        · exact absurd ((key_eq_top_iff r).2 (hall r hrmem)) hrtop
        · exact ⟨r, hrmem, fun y hy => (hext f hf).trans (hle y hy), rfl⟩
    | false =>
      simp only [Bool.false_eq_true, if_false] at hext ⊢
      constructor
      · rintro ⟨f, _, hf, hrf⟩
        refine Or.inl fun y hy hnan => hrtop ?_
        have := hf y hy
        rw [← hrf, (key_eq_top_iff y).2 hnan, top_le_iff] at this
        exact this
      · rintro (hall | ⟨last, hlast, hnan⟩)
        · rw [afterLastNan_of_num hall] at hext
          exact ⟨r, hrmem, hext, rfl⟩
        · exact absurd (afterLastNan_eq_nil_of_getLast? hlast hnan) hafter

/-- A float body, read through its format. -/
theorem minMaxRight_float_iff {γ : Type} [LinearOrder γ] (g : Datum → PgFloat γ) (hle : ∀ a b, ty.Le F a b ↔ (g a).key ≤ (g b).key)
    (hstep : ∀ m x, g (inlineMinMax F isMin ty m x) = choose (floatSkip isMin) (g m) (g x)) (x : Datum) (xs : List Datum) :
    MinMaxRight F isMin ty (x :: xs) ↔ FloatsInOrder isMin ((x :: xs).map g) := by
  rw [minMaxRight_iff_key (fun d => (g d).key) hle, List.map_cons, ← floatsInOrder_iff, map_foldl hstep, ← List.map_cons]
  simp only [IsExtreme, List.mem_map, exists_exists_and_eq_and, forall_exists_index, and_imp, forall_apply_eq_imp_iff₂]

theorem step_float8 (m x : Datum) :
    F.toF64 (inlineMinMax F isMin .float8 m x) = choose (floatSkip isMin) (F.toF64 m) (F.toF64 x) := by
  unfold inlineMinMax inlineFloat8MinMax choose
  dsimp only
  split <;> rfl

theorem step_float4 (m x : Datum) :
    F.toF32 (low32 (inlineMinMax F isMin .float4 m x)) =
      choose (floatSkip isMin) (F.toF32 (low32 m)) (F.toF32 (low32 x)) := by
  have hlow : low32 (m.extractLsb' 32 32 ++ low32 x) = low32 x := BitVec.setWidth_append_eq_right
  unfold inlineMinMax inlineFloat4MinMax choose
  dsimp only
  split
  · rfl
  · rw [hlow]

end MinMaxAux

end PgJitter
