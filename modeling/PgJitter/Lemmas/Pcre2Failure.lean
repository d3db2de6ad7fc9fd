import PgJitter.Lemmas.Pcre2Compile
import Mathlib.Data.List.Basic

/-!
# Helpers for calls that return no entry

The slot that is chosen is an empty one when there is one, and there is always one to choose. What the last exit of
`pg_jitter_pcre2_compile` frees is what the call had made.
-/

namespace PgJitter

namespace Pcre2CacheAux

open Pcre2State

/-! ## The slot that is chosen -/

/-- An empty slot among those that are left is chosen. -/
theorem chooseLoop_of_empty (s : Pcre2State) {slots : List (Fin pcre2CacheSize)} (hempty : ∃ i ∈ slots, s.cache i = none)
    (unpinned pinned : Oldest) : ∃ i, s.chooseLoop slots unpinned pinned = some i ∧ s.cache i = none := by
  induction slots generalizing unpinned pinned with
  | nil =>
    obtain ⟨i, hi, -⟩ := hempty
    nomatch hi
  | cons slot rest ih =>
    cases hslot : s.cache slot with
    | none => exact ⟨slot, by rw [chooseLoop, hslot], hslot⟩
    | some e =>
      have hrest : ∃ i ∈ rest, s.cache i = none := by
        obtain ⟨i, hi, hnone⟩ := hempty
        rcases List.mem_cons.1 hi with rfl | hmem
        · rw [hslot] at hnone
          nomatch hnone
        · exact ⟨i, hmem, hnone⟩
      simp only [chooseLoop, hslot]
      split
      · exact ih hrest _ _
      · exact ih hrest _ _

/-- What is noted is there. -/
theorem note_isSome (o : Oldest) (slot : Fin pcre2CacheSize) (lruCounter : UInt64) : (o.note slot lruCounter).isSome = true := by
  unfold Oldest.note
  split
  · rfl
  · split
    · rfl
    · rfl

/-- A slot is chosen once one was noted, or when one is left. -/
theorem chooseLoop_isSome (s : Pcre2State) (slots : List (Fin pcre2CacheSize)) {unpinned pinned : Oldest}
    (hnoted : unpinned.isSome = true ∨ pinned.isSome = true ∨ slots ≠ []) :
    (s.chooseLoop slots unpinned pinned).isSome = true := by
  induction slots generalizing unpinned pinned with
  | nil =>
    cases unpinned with
    | some o => rfl
    | none => simpa [chooseLoop] using hnoted
  | cons slot rest ih =>
    rw [chooseLoop]
    split
    · rfl
    · split
      · exact ih (.inl (note_isSome _ _ _))
      · exact ih (.inr (.inl (note_isSome _ _ _)))

/-- There is always a slot to choose. -/
theorem chooseSlot_isSome (s : Pcre2State) : s.chooseSlot.isSome = true := by
  have hslots : List.finRange pcre2CacheSize ≠ [] := List.ne_nil_of_mem (List.mem_finRange ⟨0, by decide⟩)
  exact chooseLoop_isSome s _ (.inr (.inr hslots))

/-! ## Eviction -/

/-- Freeing objects one after the other. -/
theorem objects_foldl_freeObject (os : List Nat) (s : Pcre2State) : (os.foldl freeObject s).objects = s.objects.diff os := by
  induction os generalizing s with
  | nil => rfl
  | cons o os ih => rw [List.foldl_cons, ih, List.diff_cons]; rfl

/-- Freeing objects is not freeing entries. -/
theorem freed_foldl_freeObject (os : List Nat) (s : Pcre2State) :
    (os.foldl freeObject s).freed = s.freed ∧ (os.foldl freeObject s).nextEntry = s.nextEntry := by
  induction os generalizing s with
  | nil => exact ⟨rfl, rfl⟩
  | cons o os ih => exact ih (s.freeObject o)

/-- Nor does it change how often one was freed. -/
theorem frees_foldl_freeObject (os : List Nat) (s : Pcre2State) (e : Nat) : (os.foldl freeObject s).frees e = s.frees e := by
  rw [frees, (freed_foldl_freeObject os s).1, frees]

/-- One more free of an entry. -/
theorem frees_pfreeEntry (s : Pcre2State) (e x : Nat) : (s.pfreeEntry e).frees x = s.frees x + if x = e then 1 else 0 := by
  rw [frees, Pcre2State.pfreeEntry, List.countP_cons]
  by_cases hx : x = e
  · subst hx
    simp [frees]
  · simp [frees, hx, Ne.symm hx]

/-- An eviction only frees. -/
theorem evictSlot_frees (s : Pcre2State) (slot : Fin pcre2CacheSize) :
    (∃ gone, (s.evictSlot slot).objects = s.objects.diff gone) ∧ (s.evictSlot slot).nextEntry = s.nextEntry ∧
      ∀ e, s.frees e ≤ (s.evictSlot slot).frees e := by
  unfold evictSlot
  split
  · exact ⟨⟨[], rfl⟩, rfl, fun e => le_rfl⟩
  · rename_i victim _
    dsimp only
    split
    · refine ⟨⟨_, objects_foldl_freeObject _ _⟩, (freed_foldl_freeObject _ _).2, fun e => ?_⟩
      rw [Pcre2State.freeEntry, frees_pfreeEntry, frees_foldl_freeObject]
      exact Nat.le_add_right _ _
    · exact ⟨⟨[], rfl⟩, rfl, fun e => le_rfl⟩

/-- An empty slot is left alone. -/
theorem evictSlot_of_empty {s : Pcre2State} {slot : Fin pcre2CacheSize} (hslot : s.cache slot = none) : s.evictSlot slot = s := by
  unfold evictSlot
  rw [hslot]

/-! ## The last exit -/

/-- Without a match context the new entry and its objects are freed, and nothing else happens. -/
structure Discarded (u t : Pcre2State) (e : Nat) (made : List Nat) : Prop where
  cache : t.cache = u.cache
  entries : ∀ x, x ≠ e → t.entries x = u.entries x
  objects : t.objects = u.objects.diff made
  nextEntry : t.nextEntry = u.nextEntry
  frees : ∀ x, t.frees x = u.frees x + if x = e then 1 else 0

/-- The exit without a match context. -/
theorem installEntry_discarded (u : Pcre2State) {call : Pcre2CompileCall} (hctx : call.matchContextOk = false)
    (slot : Fin pcre2CacheSize) (pattern : Pcre2Pattern) (flags : Pcre2Flags) (e code matchData : Nat) :
    Discarded u (u.installEntry call slot pattern flags e code matchData).1 e [matchData, code, pattern.object] := by
  unfold installEntry
  simp only [hctx, if_true]
  cases hstack : call.jitStackOk with
  | false =>
    refine ⟨rfl, fun x hx => by simp [allocIf, freeObject, Pcre2State.pfreeEntry, Pcre2State.modify, hx], ?_, rfl,
      fun x => frees_pfreeEntry _ e x⟩
    simp [allocIf, freeObject, Pcre2State.pfreeEntry, Pcre2State.modify, List.diff_cons]
  | true =>
    refine ⟨rfl, fun x hx => by simp [allocIf, allocObject, freeObject, Pcre2State.pfreeEntry, Pcre2State.modify, hx], ?_, rfl,
      fun x => frees_pfreeEntry _ e x⟩
    -- the stack is the first of the objects that are freed
    simp [allocIf, allocObject, freeObject, Pcre2State.pfreeEntry, Pcre2State.modify, List.diff_cons]

/-- With one the call ends with an entry or an error. -/
theorem installEntry_ne_null (u : Pcre2State) {call : Pcre2CompileCall} (hctx : call.matchContextOk = true) {c : Nat}
    (hc : call.ctx = some c) (slot : Fin pcre2CacheSize) (pattern : Pcre2Pattern) (flags : Pcre2Flags) (e code matchData : Nat) :
    (u.installEntry call slot pattern flags e code matchData).2 ≠ .null := by
  unfold installEntry
  simp only [hctx, reduceCtorEq, if_false, hc]
  cases call.registerOk with
  | false => exact nofun
  | true => exact nofun

/-- A hit ends so as well. -/
theorem compileHit_ne_null (s : Pcre2State) {call : Pcre2CompileCall} {c : Nat} (hc : call.ctx = some c) (regexObj e : Nat) :
    (s.compileHit call regexObj e).2 ≠ .null := by
  unfold compileHit
  rw [hc]
  cases call.registerOk with
  | false => exact nofun
  | true => exact nofun

end Pcre2CacheAux

end PgJitter
