import PgJitter.Lemmas.Pcre2Cache

/-!
# Calls on the pattern cache

What one call of `pg_jitter_pcre2_compile` and one release of a context do to the cache, put together from the lemmas about its
operations. The keys of the entries that exist never change, so what a call returned stays what it was asked for.
-/

namespace PgJitter

namespace Pcre2CacheAux

open Pcre2State

/-! ## What stays -/

/-- The entries that exist keep their keys. -/
structure Keeps (s t : Pcre2State) : Prop where
  next : s.nextEntry ≤ t.nextEntry
  key : ∀ e < s.nextEntry, (t.entries e).key = (s.entries e).key

/-- Besides, no context is touched, and no slot is filled. -/
structure Quiet (s t : Pcre2State) : Prop extends Keeps s t where
  contexts : t.contexts = s.contexts
  cache : ∀ i e, t.cache i = some e → s.cache i = some e

theorem Keeps.refl (s : Pcre2State) : Keeps s s := ⟨le_rfl, fun _ _ => rfl⟩

theorem Keeps.trans {s t u : Pcre2State} (h : Keeps s t) (h' : Keeps t u) : Keeps s u where
  next := h.next.trans h'.next
  key e he := (h'.key e (he.trans_le h.next)).trans (h.key e he)

theorem Quiet.refl (s : Pcre2State) : Quiet s s := ⟨Keeps.refl s, rfl, fun _ _ h => h⟩

theorem Quiet.trans {s t u : Pcre2State} (h : Quiet s t) (h' : Quiet t u) : Quiet s u where
  toKeeps := h.toKeeps.trans h'.toKeeps
  contexts := h'.contexts.trans h.contexts
  cache i e hi := h.cache i e (h'.cache i e hi)

/-- Objects come and go without a trace in the entries. -/
theorem Quiet.of_objects {s t : Pcre2State} (he : t.entries = s.entries) (hn : t.nextEntry = s.nextEntry)
    (hc : t.cache = s.cache) (hx : t.contexts = s.contexts) : Quiet s t where
  next := hn.ge
  key e _ := by rw [he]
  contexts := hx
  cache i e hi := by rwa [hc] at hi

theorem Quiet.freeObjects (os : List Nat) (s : Pcre2State) : Quiet s (os.foldl freeObject s) := by
  induction os generalizing s with
  | nil => exact Quiet.refl s
  | cons o os ih =>
    have hfree : Quiet s (s.freeObject o) := Quiet.of_objects rfl rfl rfl rfl
    exact hfree.trans (ih _)

theorem Quiet.allocIf (s : Pcre2State) (ok : Bool) : Quiet s (s.allocIf ok).2 := by
  cases ok
  · exact Quiet.refl s
  · exact Quiet.of_objects rfl rfl rfl rfl

theorem Held.allocIf {pins loose : List Nat} {s : Pcre2State} (h : Held pins loose s) (ok : Bool) :
    Held pins loose (s.allocIf ok).2 := by
  cases ok
  · exact h
  · exact h.congr rfl rfl rfl rfl

theorem Quiet.allocEntry (s : Pcre2State) : Quiet s s.allocEntry.2 where
  next := Nat.le_succ _
  key e he := by simp [Pcre2State.allocEntry, Nat.ne_of_lt he]
  contexts := rfl
  cache _ _ hi := hi

/-- A change that keeps the key, or that is made to an entry younger than the state one started from. -/
theorem Quiet.modify {s t : Pcre2State} (h : Quiet s t) (e : Nat) {f : Pcre2CacheEntry → Pcre2CacheEntry}
    (hf : s.nextEntry ≤ e ∨ (f (t.entries e)).key = (t.entries e).key) : Quiet s (t.modify e f) where
  next := h.next
  key x hx := by
    by_cases hxe : x = e
    · subst hxe
      have hkey := hf.resolve_left (Nat.not_le.mpr hx)
      simp [hkey, h.key x hx]
    · simp [hxe, h.key x hx]
  contexts := h.contexts
  cache := h.cache

theorem Quiet.pfreeEntry (s : Pcre2State) (e : Nat) : Quiet s (s.pfreeEntry e) := Quiet.of_objects rfl rfl rfl rfl

theorem Quiet.freeEntry (s : Pcre2State) (e : Nat) : Quiet s (s.freeEntry e) :=
  (Quiet.freeObjects _ s).trans (Quiet.pfreeEntry _ e)

theorem Quiet.clearSlot (s : Pcre2State) (i : Fin pcre2CacheSize) : Quiet s (s.setSlot i none) where
  next := le_rfl
  key _ _ := rfl
  contexts := rfl
  cache j e hj := by
    by_cases hji : j = i
    · subst hji
      simp at hj
    · simpa [hji] using hj

theorem Quiet.evictSlot (s : Pcre2State) (i : Fin pcre2CacheSize) : Quiet s (s.evictSlot i) := by
  unfold Pcre2State.evictSlot
  split
  · exact Quiet.refl s
  · rename_i e _
    have hclear : Quiet s ((s.modify e fun entry => { entry with inCache := false }).setSlot i none) :=
      ((Quiet.refl s).modify e (.inr rfl)).trans (Quiet.clearSlot _ i)
    dsimp only
    split
    · exact hclear.trans (Quiet.freeEntry _ e)
    · exact hclear

theorem Quiet.withdraw (s : Pcre2State) (i : Fin pcre2CacheSize) (e : Nat) : Quiet s (s.withdraw i e) := by
  have hmark (t : Pcre2State) : Quiet t ((t.modify e fun entry => { entry with inCache := false }).freeEntry e) :=
    ((Quiet.refl t).modify e (.inr rfl)).trans (Quiet.freeEntry _ e)
  unfold Pcre2State.withdraw
  split
  · exact (Quiet.clearSlot s i).trans (hmark _)
  · exact hmark s

theorem Quiet.unpinEntry (s : Pcre2State) (e : Nat) : Quiet s (s.unpinEntry e) := by
  have hdrop : Quiet s (s.modify e fun entry => { entry with refcount := entry.refcount - 1 }) :=
    (Quiet.refl s).modify e (.inr rfl)
  unfold Pcre2State.unpinEntry
  dsimp only
  split
  · exact hdrop.trans (Quiet.freeEntry _ e)
  · exact hdrop

theorem Quiet.unpinAll (dropped : List Nat) (s : Pcre2State) : Quiet s (dropped.foldl Pcre2State.unpinEntry s) := by
  induction dropped generalizing s with
  | nil => exact Quiet.refl s
  | cons e dropped ih => exact (Quiet.unpinEntry s e).trans (ih _)

/-- Publishing changes neither keys nor contexts. -/
theorem Keeps.publish (s : Pcre2State) (i : Fin pcre2CacheSize) (e : Nat) : Keeps s (s.publish i e) where
  next := le_rfl
  key x _ := by
    by_cases hx : x = e
    · subst hx; simp [Pcre2State.publish, Pcre2CacheEntry.key]
    · simp [Pcre2State.publish, hx]

/-! ## The lookup -/

/-- What the scan finds is in a slot and has the key. -/
theorem key_of_findCached {s : Pcre2State} {flags : Pcre2Flags} {regex : List Byte} {e : Nat}
    (h : s.findCached flags regex = some e) : (∃ i, s.cache i = some e) ∧ (s.entries e).key = (flags, some regex) := by
  obtain ⟨i, -, hi⟩ := List.exists_of_findSome?_eq_some h
  split at hi
  · nomatch hi
  · rename_i x hx
    split at hi
    · rename_i hkey
      obtain rfl := Option.some.inj hi
      exact ⟨⟨i, hx⟩, hkey⟩
    · nomatch hi

/-- When the scan finds nothing, no slot has the key. -/
theorem key_of_findCached_none {s : Pcre2State} {flags : Pcre2Flags} {regex : List Byte}
    (h : s.findCached flags regex = none) {i : Fin pcre2CacheSize} {e : Nat} (hi : s.cache i = some e) :
    (s.entries e).key ≠ (flags, some regex) := by
  intro hkey
  have hno := List.findSome?_eq_none_iff.mp h i (List.mem_finRange i)
  rw [hi] at hno
  simp [hkey] at hno

/-- After eviction the slot is empty. -/
theorem evictSlot_cache (s : Pcre2State) (i : Fin pcre2CacheSize) : (s.evictSlot i).cache i = none := by
  have hempty {t : Pcre2State} (ht : t.cache i = none) (e : Nat) : (t.freeEntry e).cache i = none := by
    rcases hc : (t.freeEntry e).cache i with _ | x
    · rfl
    · have := (Quiet.freeEntry t e).cache i x hc
      rw [ht] at this
      nomatch this
  unfold Pcre2State.evictSlot
  split
  · rename_i hi
    exact hi
  · dsimp only
    split
    · exact hempty (by simp) _
    · simp

/-! ## Pins of contexts -/

/-- The context holds a pin on the entry. -/
def PinnedBy (s : Pcre2State) (c e : Nat) : Prop := ∃ compiledList, s.contexts[c]? = some (some compiledList) ∧ e ∈ compiledList

/-- Adding to one list adds to all of them together. -/
theorem flatMap_modify_perm {contexts : List (Option (List Nat))} {c e : Nat} {l : List Nat}
    (h : contexts[c]? = some (some l)) :
    ((contexts.modify c (Option.map (e :: ·))).flatMap (·.getD [])).Perm (e :: contexts.flatMap (·.getD [])) := by
  induction contexts generalizing c with
  | nil => simp at h
  | cons x contexts ih =>
    cases c with
    | zero =>
      obtain rfl : x = some l := by simpa using h
      simp
    | succ c =>
      have ih := ih (by simpa using h)
      simp only [List.modify_succ_cons, List.flatMap_cons]
      exact (ih.append_left _).trans List.perm_middle

/-- The pins of one context, and those of the others. -/
theorem flatMap_set_perm {contexts : List (Option (List Nat))} {c : Nat} {l : List Nat} (h : contexts[c]? = some (some l)) :
    (contexts.flatMap (·.getD [])).Perm (l ++ (contexts.set c none).flatMap (·.getD [])) := by
  induction contexts generalizing c with
  | nil => simp at h
  | cons x contexts ih =>
    cases c with
    | zero =>
      obtain rfl : x = some l := by simpa using h
      simp
    | succ c =>
      have ih := ih (by simpa using h)
      simp only [List.set_cons_succ, List.flatMap_cons]
      refine (ih.append_left _).trans ?_
      rw [← List.append_assoc, ← List.append_assoc]
      exact List.perm_append_comm.append_right _

/-! ## Calls -/

/-- A call of a context for a key is done: nothing is loose, and a returned entry has the key and a pin of the context. -/
structure Done (c : Nat) (k : Pcre2Flags × Option (List Byte)) (s : Pcre2State) (r : Pcre2State × Pcre2Compiled) : Prop where
  held : Held r.1.pins [] r.1
  keeps : Keeps s r.1
  entry : ∀ e, r.2 = .entry e → e < r.1.nextEntry ∧ (r.1.entries e).key = k ∧ PinnedBy r.1 c e

/-- A call that changes nothing but the objects. -/
theorem Done.of_quiet {c : Nat} {k : Pcre2Flags × Option (List Byte)} {s t : Pcre2State} {r : Pcre2Compiled}
    (h : Held s.pins [] t) (hq : Quiet s t) (hr : ∀ e, r ≠ .entry e) : Done c k s (t, r) where
  held := by
    have hpins : t.pins = s.pins := by unfold Pcre2State.pins; rw [hq.contexts]
    rw [hpins]
    exact h
  keeps := hq.toKeeps
  entry e he := absurd he (hr e)

/-- The successful end of a call: the pin. -/
theorem Done.pin {c e : Nat} {k : Pcre2Flags × Option (List Byte)} {s t u : Pcre2State} (h : Held t.pins [] t)
    (hs : Keeps s t) (hctx : t.LiveContext c) (he : t.Live e) (hkey : (t.entries e).key = k)
    (hu : t.pinEntry (some c) e true = some (true, u)) :
    Done c k s ({ u with compileCounter := u.compileCounter + 1 }, .entry e) := by
  obtain ⟨l, hl⟩ := hctx
  simp only [pinEntry, registerCompiled, if_true, Option.map_some, Option.some.injEq, Prod.mk.injEq, true_and] at hu
  subst hu
  have hkeys (x : Nat) : ((t.modify e fun entry => { entry with refcount := entry.refcount + 1 }).entries x).key =
      (t.entries x).key := by
    by_cases hx : x = e
    · subst hx; simp [Pcre2CacheEntry.key]
    · simp [hx]
  refine ⟨?_, ⟨hs.next, ?_⟩, ?_⟩
  · have hpin := h.pin he List.not_mem_nil
    exact (hpin.perm (flatMap_modify_perm hl).symm).congr rfl rfl rfl rfl
  · intro x hx
    exact (hkeys x).trans (hs.key x hx)
  · intro x hx
    obtain rfl := Pcre2Compiled.entry.inj hx
    refine ⟨he.1, (hkeys _).trans hkey, e :: l, ?_, List.mem_cons_self⟩
    show (t.contexts.modify c (Option.map (e :: ·)))[c]? = _
    rw [List.getElem?_modify_eq, hl]
    rfl

/-- A pin that is not refused its record succeeds. -/
theorem pinEntry_true (s : Pcre2State) (c e : Nat) : ∃ t, s.pinEntry (some c) e true = some (true, t) := ⟨_, rfl⟩

/-- A hit pins the entry that was found. -/
theorem compileHit_done {s : Pcre2State} (h : Held s.pins [] s) {call : Pcre2CompileCall} {c : Nat} (hc : call.ctx = some c)
    (hctx : s.LiveContext c) {e : Nat} (he : s.Live e) (regexObj : Nat) :
    Done c (s.entries e).key s (s.compileHit call regexObj e) := by
  let ticked := { s with lruClock := s.lruClock + 1 }
  let touched := ticked.modify e fun entry => { entry with lruCounter := ticked.lruClock }
  set t := touched.freeObject regexObj with ht
  have hticked : Held s.pins [] ticked := h.congr rfl rfl rfl rfl
  have htouched : Held s.pins [] touched := hticked.modify rfl rfl (.inr rfl)
  have hheld : Held s.pins [] t := htouched.congr rfl rfl rfl rfl
  have hmoved : Quiet s touched := (Quiet.of_objects rfl rfl rfl rfl : Quiet s ticked).modify e (.inr rfl)
  have hquiet : Quiet s t := hmoved.trans (Quiet.of_objects rfl rfl rfl rfl)
  unfold Pcre2State.compileHit
  rw [hc]
  cases hreg : call.registerOk with
  | false => exact Done.of_quiet hheld hquiet (fun _ => nofun)
  | true =>
    obtain ⟨u, hu⟩ := pinEntry_true t c e
    have hdone := Done.pin (k := (s.entries e).key) hheld hquiet.toKeeps hctx he (hquiet.key e he.1) hu
    dsimp only
    rw [← ht, hu]
    exact hdone

/-- A loose entry with a new key is published and pinned, or taken back. -/
theorem publishAndPin_done {s t : Pcre2State} {c e : Nat} (slot : Fin pcre2CacheSize) (hctx : t.LiveContext c)
    (hs : Keeps s t) (h : Held t.pins [e] t) (hslot : t.cache slot = none) (hpat : (t.entries e).pattern ≠ none)
    (hnew : ∀ i x, t.cache i = some x → (t.entries x).key ≠ (t.entries e).key) (ok : Bool) :
    Done c (t.entries e).key s
      (match t.publishAndPinEntry (some c) slot e ok with
        | (none, s) => (s, .error)
        | (some false, s) => (s, .null)
        | (some true, s) => ({ s with compileCounter := s.compileCounter + 1 }, .entry e)) := by
  have hpub := h.publish hslot hpat hnew
  have hkeeps : Keeps s (t.publish slot e) := hs.trans (Keeps.publish t slot e)
  obtain ⟨hlive, hpin, -⟩ := h.unheld e List.mem_cons_self
  cases ok with
  | true =>
    obtain ⟨u, hu⟩ := pinEntry_true (t.publish slot e) c e
    have hdone := Done.pin (k := (t.entries e).key) hpub hkeeps hctx hlive
      ((Keeps.publish t slot e).key e hlive.1) hu
    unfold publishAndPinEntry
    dsimp only
    rw [hu]
    exact hdone
  | false =>
    have hback : Held t.pins [] ((t.publish slot e).withdraw slot e) := hpub.withdraw (by simp [Pcre2State.publish]) hpin
    have hquiet := Quiet.withdraw (t.publish slot e) slot e
    have hpins : ((t.publish slot e).withdraw slot e).pins = t.pins := by
      unfold Pcre2State.pins
      rw [hquiet.contexts]
      rfl
    exact ⟨hpins ▸ hback, hkeeps.trans hquiet.toKeeps, fun _ he => by cases he⟩

/-- The end of a miss: `e` is the new entry, and no slot has the key. -/
theorem installEntry_done {s t : Pcre2State} {call : Pcre2CompileCall} {c e : Nat} {slot : Fin pcre2CacheSize}
    (hc : call.ctx = some c) (hctx : s.LiveContext c) (hs : Quiet s t) (hheld : Held s.pins [] s) (h : Held s.pins [e] t)
    (hyoung : s.nextEntry ≤ e) (hslot : t.cache slot = none) {pattern : Pcre2Pattern} {flags : Pcre2Flags}
    (hnew : ∀ i x, s.cache i = some x → (s.entries x).key ≠ (flags, some pattern.bytes)) (code matchData : Nat) :
    Done c (flags, some pattern.bytes) s (t.installEntry call slot pattern flags e code matchData) := by
  have hstack := Quiet.allocIf t call.jitStackOk
  have hstackHeld := h.allocIf call.jitStackOk
  unfold Pcre2State.installEntry
  generalize t.allocIf call.jitStackOk = stack at hstack hstackHeld ⊢
  obtain ⟨jitStack, t₁⟩ := stack
  dsimp only at hstack hstackHeld ⊢
  set fill : Pcre2CacheEntry → Pcre2CacheEntry := fun entry =>
    { entry with pattern := some pattern, flags, code := some code, matchData := some matchData, matchContext := none,
                 jitStack, jitFast := none } with hfill
  have hfilled : Held s.pins [e] (t₁.modify e fill) := hstackHeld.modify rfl rfl (.inl List.mem_cons_self)
  have hfilledQuiet : Quiet s (t₁.modify e fill) := (hs.trans hstack).modify e (.inl hyoung)
  split
  · -- without a match context the entry and its objects are freed, and the slot stays empty
    have hfreed : ∀ t₂, Held s.pins [e] t₂ → Quiet s t₂ → Done c (flags, some pattern.bytes) s
        ((((t₂.freeObject matchData).freeObject code).pfreeEntry e).freeObject pattern.object, .null) := by
      intro t₂ hheld₂ hquiet₂
      have hobjects : Held s.pins [e] ((t₂.freeObject matchData).freeObject code) := hheld₂.congr rfl rfl rfl rfl
      refine Done.of_quiet (hobjects.pfreeEntry.congr rfl rfl rfl rfl) (hquiet₂.trans (Quiet.of_objects rfl rfl rfl rfl)) ?_
      intro e he
      cases he
    cases jitStack with
    | none => exact hfreed _ hfilled hfilledQuiet
    | some o =>
      have hfree : Held s.pins [e] ((t₁.modify e fill).freeObject o) := hfilled.congr rfl rfl rfl rfl
      have hfreeQuiet : Quiet s ((t₁.modify e fill).freeObject o) := hfilledQuiet.trans (Quiet.of_objects rfl rfl rfl rfl)
      exact hfreed _ (hfree.modify rfl rfl (.inl List.mem_cons_self)) (hfreeQuiet.modify e (.inl hyoung))
  · set t₂ := (t₁.modify e fill).allocObject.2.modify e
      fun entry => { entry with matchContext := some (t₁.modify e fill).allocObject.1 } with ht₂
    have hctxHeld : Held s.pins [e] (t₁.modify e fill).allocObject.2 := hfilled.congr rfl rfl rfl rfl
    have hheld₂ : Held s.pins [e] t₂ := hctxHeld.modify rfl rfl (.inl List.mem_cons_self)
    have hctxQuiet : Quiet s (t₁.modify e fill).allocObject.2 := hfilledQuiet.trans (Quiet.of_objects rfl rfl rfl rfl)
    have hquiet₂ : Quiet s t₂ := hctxQuiet.modify e (.inl hyoung)
    have hfast := Quiet.allocIf t₂ (jitStack.isSome && call.jitFastOk)
    have hfastHeld := hheld₂.allocIf (jitStack.isSome && call.jitFastOk)
    have hkey₂ : (t₂.entries e).key = (flags, some pattern.bytes) := by
      simp [ht₂, hfill, Pcre2CacheEntry.key, Pcre2State.allocObject]
    have hkey₃ : ((t₂.allocIf (jitStack.isSome && call.jitFastOk)).2.entries e).key = (flags, some pattern.bytes) := by
      rw [← hkey₂]
      exact hfast.key e (hheld₂.unheld e List.mem_cons_self).1.1
    have hempty : (t₂.allocIf (jitStack.isSome && call.jitFastOk)).2.cache slot = none := by
      rcases hx : (t₂.allocIf (jitStack.isSome && call.jitFastOk)).2.cache slot with _ | x
      · rfl
      · have hback := hstack.cache slot x (hfast.cache slot x hx)
        rw [hslot] at hback
        cases hback
    generalize t₂.allocIf (jitStack.isSome && call.jitFastOk) = fast at hfast hfastHeld hkey₃ hempty ⊢
    obtain ⟨jitFast, t₃⟩ := fast
    dsimp only at hfast hfastHeld hkey₃ hempty ⊢
    have hlast : Held s.pins [e] (t₃.modify e fun entry => { entry with jitFast }) :=
      hfastHeld.modify rfl rfl (.inl List.mem_cons_self)
    have hquiet : Quiet s (t₃.modify e fun entry => { entry with jitFast }) :=
      (hquiet₂.trans hfast).modify e (.inl hyoung)
    have hkey : ((t₃.modify e fun entry => { entry with jitFast }).entries e).key = (flags, some pattern.bytes) := by
      rw [← hkey₃]
      simp [Pcre2CacheEntry.key]
    have hpins : (t₃.modify e fun entry => { entry with jitFast }).pins = s.pins := by
      unfold Pcre2State.pins
      rw [hquiet.contexts]
    have hdone := publishAndPin_done slot (by unfold LiveContext; rw [hquiet.contexts]; exact hctx)
      hquiet.toKeeps (hpins ▸ hlast) hempty (by rw [pattern_ne_none_iff, hkey]; simp)
      (by
        intro i x hi
        rw [hkey]
        have hx := hquiet.cache i x hi
        rw [hquiet.key x (hheld.slot i x hx).1.1]
        exact hnew i x hx) call.registerOk
    rw [hkey] at hdone
    rw [hc]
    exact hdone

/-- A miss, from the allocation of the entry on. -/
theorem compileMiss_done {s : Pcre2State} (h : Held s.pins [] s) {call : Pcre2CompileCall} {c : Nat} (hc : call.ctx = some c)
    (hctx : s.LiveContext c) (pattern : Pcre2Pattern) {flags : Pcre2Flags}
    (hnew : ∀ i x, s.cache i = some x → (s.entries x).key ≠ (flags, some pattern.bytes)) :
    Done c (flags, some pattern.bytes) s (s.compileMiss call pattern flags) := by
  have hquiet : Quiet s s.allocEntry.2 := Quiet.allocEntry s
  have hloose : Held s.pins [s.nextEntry] s.allocEntry.2 := h.allocEntry
  unfold Pcre2State.compileMiss
  split
  · exact Done.of_quiet (h.congr rfl rfl rfl rfl) (Quiet.of_objects rfl rfl rfl rfl) (fun _ => nofun)
  dsimp only
  split
  · exact Done.of_quiet (hloose.pfreeEntry.congr rfl rfl rfl rfl)
      (hquiet.trans (Quiet.of_objects rfl rfl rfl rfl)) (fun _ => nofun)
  set t₁ := s.allocEntry.2.allocObject.2 with ht₁
  have hheld₁ : Held s.pins [s.nextEntry] t₁ := hloose.congr rfl rfl rfl rfl
  have hquiet₁ : Quiet s t₁ := hquiet.trans (Quiet.of_objects rfl rfl rfl rfl)
  split
  · have hfree : Held s.pins [s.nextEntry] (t₁.freeObject s.allocEntry.2.allocObject.1) := hheld₁.congr rfl rfl rfl rfl
    exact Done.of_quiet (hfree.pfreeEntry.congr rfl rfl rfl rfl)
      (hquiet₁.trans (Quiet.of_objects rfl rfl rfl rfl)) (fun _ => nofun)
  set t₂ := t₁.allocObject.2 with ht₂
  have hheld₂ : Held s.pins [s.nextEntry] t₂ := hheld₁.congr rfl rfl rfl rfl
  have hquiet₂ : Quiet s t₂ := hquiet₁.trans (Quiet.of_objects rfl rfl rfl rfl)
  split
  · have hfree : Held s.pins [s.nextEntry]
        ((t₂.freeObject t₁.allocObject.1).freeObject s.allocEntry.2.allocObject.1) := hheld₂.congr rfl rfl rfl rfl
    exact Done.of_quiet (hfree.pfreeEntry.congr rfl rfl rfl rfl)
      (hquiet₂.trans (Quiet.of_objects rfl rfl rfl rfl)) (fun _ => nofun)
  · rename_i slot _
    exact installEntry_done hc hctx (hquiet₂.trans (Quiet.evictSlot t₂ slot)) h (hheld₂.evictSlot slot) le_rfl
      (evictSlot_cache t₂ slot) hnew _ _

/-- The key a call asks for: its flags and the translation of its pattern. -/
def askedKey (env : Pcre2Env) (call : Pcre2CompileCall) : Pcre2Flags × Option (List Byte) :=
  (pcre2CompileFlags env.encoding call.caseInsensitive, env.translate call)

/-- One call of `pg_jitter_pcre2_compile`. -/
theorem pcre2Compile_done (env : Pcre2Env) {s : Pcre2State} (h : Held s.pins [] s) {call : Pcre2CompileCall} {c : Nat}
    (hc : call.ctx = some c) (hctx : s.LiveContext c) : Done c (askedKey env call) s (pcre2Compile env s call) := by
  have hsame : Done c (askedKey env call) s (s, .null) := Done.of_quiet h (Quiet.refl s) (fun _ => nofun)
  have hallocated : Held s.pins [] s.allocObject.2 := h.congr rfl rfl rfl rfl
  have hquiet : Quiet s s.allocObject.2 := Quiet.of_objects rfl rfl rfl rfl
  unfold pcre2Compile
  split
  · exact hsame
  split
  · exact hsame
  split
  · exact hsame
  dsimp only
  split
  · exact hsame
  rename_i regex hregex
  have hkey : askedKey env call = (pcre2CompileFlags env.encoding call.caseInsensitive, some regex) := by
    unfold askedKey
    rw [hregex]
  rw [hkey]
  split
  · exact Done.of_quiet (hallocated.congr rfl rfl rfl rfl) (Quiet.of_objects rfl rfl rfl rfl) (fun _ => nofun)
  split
  · rename_i e hfound
    obtain ⟨⟨i, hi⟩, hfoundKey⟩ := key_of_findCached hfound
    have hhit := compileHit_done (s := s.allocObject.2) hallocated hc hctx (h.slot i e hi).1 s.allocObject.1
    rw [hfoundKey] at hhit
    exact ⟨hhit.held, hquiet.toKeeps.trans hhit.keeps, hhit.entry⟩
  · rename_i hnone
    have hmiss := compileMiss_done (s := s.allocObject.2) hallocated hc hctx ⟨s.allocObject.1, regex⟩
      (fun i x hi => key_of_findCached_none hnone hi)
    exact ⟨hmiss.held, hquiet.toKeeps.trans hmiss.keeps, hmiss.entry⟩

/-- A released context gives back all of its pins. -/
theorem releaseContext_held {s : Pcre2State} (h : Held s.pins [] s) (c : Nat) :
    Held (s.releaseContext c).pins [] (s.releaseContext c) ∧ Keeps s (s.releaseContext c) := by
  unfold Pcre2State.releaseContext
  split
  · rename_i compiledList hl
    have hquiet := Quiet.unpinAll compiledList s
    have hall : Held ((s.contexts.set c none).flatMap (·.getD [])) [] (compiledList.foldl Pcre2State.unpinEntry s) :=
      Held.unpinAll compiledList (h.perm (flatMap_set_perm hl))
    refine ⟨?_, hquiet.next, hquiet.key⟩
    show Held ((compiledList.foldl Pcre2State.unpinEntry s).contexts.set c none |>.flatMap (·.getD [])) [] _
    rw [hquiet.contexts]
    exact hall.congr rfl rfl rfl rfl
  · exact ⟨h, Keeps.refl s⟩

end Pcre2CacheAux

end PgJitter
