import PgJitter.Pcre2Cache

/-!
# Who holds an entry of the pattern cache

The invariant of the cache, stated for a multiset of pins and a list of loose entries: those that are allocated but that neither
a slot nor a pin holds, because they are not published yet or have just lost their last holder. One lemma for each operation says
how it moves an entry between slot, pins and loose; no entry is loose between two calls.
-/

namespace PgJitter

namespace Pcre2CacheAux

open Pcre2State

/-! ## The invariant -/

/-- The entries of the cache are held by slots, by pins, or are loose. -/
structure Held (pins loose : List Nat) (s : Pcre2State) : Prop where
  refcount : ∀ e, s.Live e → (s.entries e).refcount = pins.count e
  pinned : ∀ e ∈ pins, s.Live e
  slot : ∀ i e, s.cache i = some e → s.Live e ∧ (s.entries e).inCache = true ∧ (s.entries e).pattern ≠ none
  cached : ∀ e, s.Live e → (s.entries e).inCache = true → ∃ i, s.cache i = some e
  distinct : ∀ i j e f, s.cache i = some e → s.cache j = some f → (s.entries e).key = (s.entries f).key → i = j
  held : ∀ e, s.Live e → (s.entries e).inCache = true ∨ e ∈ pins ∨ e ∈ loose
  unheld : ∀ e ∈ loose, s.Live e ∧ e ∉ pins ∧ (s.entries e).inCache = false
  nodup : loose.Nodup
  once : ∀ e, s.frees e ≤ 1
  unborn : ∀ e, s.nextEntry ≤ e → s.frees e = 0
  freed : ∀ f ∈ s.freed, f.refcount = 0 ∧ f.inCache = false ∧ f.inSlot = false

/-- The invariant reads the entries, the slots and the log only. -/
theorem Held.congr {pins loose : List Nat} {s t : Pcre2State} (h : Held pins loose s) (he : t.entries = s.entries)
    (hn : t.nextEntry = s.nextEntry) (hf : t.freed = s.freed) (hc : t.cache = s.cache) : Held pins loose t := by
  obtain ⟨entries, nextEntry, freed, objects, nextObject, cache, clock, counter, contexts⟩ := t
  simp only at he hn hf hc
  subst he hn hf hc
  exact ⟨h.refcount, h.pinned, h.slot, h.cached, h.distinct, h.held, h.unheld, h.nodup, h.once, h.unborn, h.freed⟩

/-- The order of the pins does not matter. -/
theorem Held.perm {pins pins' loose : List Nat} {s : Pcre2State} (h : Held pins loose s) (hp : pins.Perm pins') :
    Held pins' loose s where
  refcount e he := by rw [h.refcount e he, hp.count_eq]
  pinned e he := h.pinned e (hp.mem_iff.mpr he)
  slot := h.slot
  cached := h.cached
  distinct := h.distinct
  held e he := by simpa only [hp.mem_iff] using h.held e he
  unheld e he := by simpa only [hp.mem_iff] using h.unheld e he
  nodup := h.nodup
  once := h.once
  unborn := h.unborn
  freed := h.freed

/-- A pinned entry has a positive count. -/
theorem Held.refcount_eq_zero {pins loose : List Nat} {s : Pcre2State} (h : Held pins loose s) {e : Nat} (he : s.Live e) :
    (s.entries e).refcount = 0 ↔ e ∉ pins := by
  rw [h.refcount e he, Int.natCast_eq_zero, List.count_eq_zero]

/-- A slot is one of a live entry, and the only one. -/
theorem Held.slot_inj {pins loose : List Nat} {s : Pcre2State} (h : Held pins loose s) {i j : Fin pcre2CacheSize} {e : Nat}
    (hi : s.cache i = some e) (hj : s.cache j = some e) : i = j := h.distinct i j e e hi hj rfl

/-- A loose entry is in no slot. -/
theorem Held.not_slot_of_loose {pins loose : List Nat} {s : Pcre2State} (h : Held pins loose s) {e : Nat} (he : e ∈ loose)
    (i : Fin pcre2CacheSize) : s.cache i ≠ some e := by
  intro hi
  have hin := (h.slot i e hi).2.1
  rw [(h.unheld e he).2.2] at hin
  nomatch hin

/-! ## Fields that the operations leave alone -/

@[simp] theorem modify_entries (s : Pcre2State) (e : Nat) (f : Pcre2CacheEntry → Pcre2CacheEntry) :
    (s.modify e f).entries = Function.update s.entries e (f (s.entries e)) := rfl

@[simp] theorem modify_cache (s : Pcre2State) (e : Nat) (f : Pcre2CacheEntry → Pcre2CacheEntry) :
    (s.modify e f).cache = s.cache := rfl

@[simp] theorem modify_live (s : Pcre2State) (e x : Nat) (f : Pcre2CacheEntry → Pcre2CacheEntry) :
    (s.modify e f).Live x ↔ s.Live x := Iff.rfl

@[simp] theorem modify_frees (s : Pcre2State) (e x : Nat) (f : Pcre2CacheEntry → Pcre2CacheEntry) :
    (s.modify e f).frees x = s.frees x := rfl

@[simp] theorem setSlot_cache (s : Pcre2State) (i : Fin pcre2CacheSize) (p : Option Nat) :
    (s.setSlot i p).cache = Function.update s.cache i p := rfl

@[simp] theorem setSlot_entries (s : Pcre2State) (i : Fin pcre2CacheSize) (p : Option Nat) :
    (s.setSlot i p).entries = s.entries := rfl

@[simp] theorem setSlot_live (s : Pcre2State) (i : Fin pcre2CacheSize) (p : Option Nat) (x : Nat) :
    (s.setSlot i p).Live x ↔ s.Live x := Iff.rfl

/-- The key of an entry tells whether it has a pattern. -/
theorem pattern_ne_none_iff (entry : Pcre2CacheEntry) : entry.pattern ≠ none ↔ entry.key.2 ≠ none := by
  simp [Pcre2CacheEntry.key]

/-- The freed objects are not entries. -/
theorem Held.freeObjects {pins loose : List Nat} {s : Pcre2State} (h : Held pins loose s) (os : List Nat) :
    Held pins loose (os.foldl freeObject s) := by
  induction os generalizing s with
  | nil => exact h
  | cons o os ih => exact ih (h.congr rfl rfl rfl rfl)

/-! ## Loose entries -/

/-- A change that keeps the count, the mark and the key, or that keeps the count and the mark of a loose entry. -/
theorem Held.modify {pins loose : List Nat} {s : Pcre2State} (h : Held pins loose s) {e : Nat}
    {f : Pcre2CacheEntry → Pcre2CacheEntry} (hr : (f (s.entries e)).refcount = (s.entries e).refcount)
    (hc : (f (s.entries e)).inCache = (s.entries e).inCache)
    (hk : e ∈ loose ∨ (f (s.entries e)).key = (s.entries e).key) : Held pins loose (s.modify e f) := by
  have hr' (x : Nat) : ((s.modify e f).entries x).refcount = (s.entries x).refcount := by
    by_cases hx : x = e
    · subst hx; simp [hr]
    · simp [hx]
  have hc' (x : Nat) : ((s.modify e f).entries x).inCache = (s.entries x).inCache := by
    by_cases hx : x = e
    · subst hx; simp [hc]
    · simp [hx]
  have hkey {i : Fin pcre2CacheSize} {x : Nat} (hi : s.cache i = some x) :
      ((s.modify e f).entries x).key = (s.entries x).key := by
    by_cases hx : x = e
    · subst hx
      have hsame := hk.resolve_left (fun hmem => h.not_slot_of_loose hmem i hi)
      simp [hsame]
    · simp [hx]
  refine ⟨?_, h.pinned, ?_, ?_, ?_, ?_, ?_, h.nodup, h.once, h.unborn, h.freed⟩
  · intro x hx
    rw [hr', h.refcount x hx]
  · intro i x hi
    obtain ⟨hx, hin, hpat⟩ := h.slot i x hi
    rw [hc']
    rw [pattern_ne_none_iff] at hpat ⊢
    rw [hkey hi]
    exact ⟨hx, hin, hpat⟩
  · intro x hx hin
    exact h.cached x hx (by rwa [hc'] at hin)
  · intro i j x y hi hj hxy
    rw [hkey hi, hkey hj] at hxy
    exact h.distinct i j x y hi hj hxy
  · intro x hx
    rw [hc']
    exact h.held x hx
  · intro x hx
    rw [hc']
    exact h.unheld x hx

/-- A new entry is loose. -/
theorem Held.allocEntry {pins loose : List Nat} {s : Pcre2State} (h : Held pins loose s) :
    Held pins (s.nextEntry :: loose) s.allocEntry.2 := by
  have hnew {x : Nat} (hx : s.Live x) : x ≠ s.nextEntry := fun hxe => absurd hx.1 (by omega)
  have hkeep {x : Nat} (hx : s.Live x) : s.allocEntry.2.entries x = s.entries x := by
    simp [Pcre2State.allocEntry, hnew hx]
  have hlive (x : Nat) : s.allocEntry.2.Live x ↔ s.Live x ∨ x = s.nextEntry := by
    show x < s.nextEntry + 1 ∧ s.frees x = 0 ↔ (x < s.nextEntry ∧ s.frees x = 0) ∨ x = s.nextEntry
    have := h.unborn x
    constructor
    · rintro ⟨hlt, hf⟩
      omega
    · rintro (⟨hlt, hf⟩ | rfl)
      · omega
      · exact ⟨by omega, h.unborn _ le_rfl⟩
  have hpins : s.nextEntry ∉ pins := fun hmem => hnew (h.pinned _ hmem) rfl
  have hzero : s.allocEntry.2.entries s.nextEntry = .zero := by simp [Pcre2State.allocEntry]
  refine ⟨?_, ?_, ?_, ?_, ?_, ?_, ?_, ?_, h.once, ?_, h.freed⟩
  · intro x hx
    rcases (hlive x).mp hx with hx | rfl
    · rw [hkeep hx, h.refcount x hx]
    · rw [hzero, List.count_eq_zero.mpr hpins]
      rfl
  · intro x hx
    exact (hlive x).mpr (.inl (h.pinned x hx))
  · intro i x hi
    obtain ⟨hx, hin, hpat⟩ := h.slot i x hi
    rw [hkeep hx]
    exact ⟨(hlive x).mpr (.inl hx), hin, hpat⟩
  · intro x hx hin
    rcases (hlive x).mp hx with hx | rfl
    · rw [hkeep hx] at hin
      exact h.cached x hx hin
    · rw [hzero] at hin
      nomatch hin
  · intro i j x y hi hj hkey
    rw [hkeep (h.slot i x hi).1, hkeep (h.slot j y hj).1] at hkey
    exact h.distinct i j x y hi hj hkey
  · intro x hx
    rcases (hlive x).mp hx with hx | rfl
    · rw [hkeep hx]
      rcases h.held x hx with hin | hmem | hmem
      · exact .inl hin
      · exact .inr (.inl hmem)
      · exact .inr (.inr (List.mem_cons_of_mem _ hmem))
    · exact .inr (.inr List.mem_cons_self)
  · intro x hx
    rcases List.mem_cons.mp hx with rfl | hx
    · exact ⟨(hlive _).mpr (.inr rfl), hpins, by rw [hzero]; rfl⟩
    · obtain ⟨hl, hp, hin⟩ := h.unheld x hx
      rw [hkeep hl]
      exact ⟨(hlive x).mpr (.inl hl), hp, hin⟩
  · refine List.nodup_cons.mpr ⟨fun hmem => hnew (h.unheld _ hmem).1 rfl, h.nodup⟩
  · intro x hx
    exact h.unborn x (Nat.le_of_succ_le hx)

/-- A loose entry can be freed. -/
theorem Held.pfreeEntry {pins loose : List Nat} {s : Pcre2State} {e : Nat} (h : Held pins (e :: loose) s) :
    Held pins loose (s.pfreeEntry e) := by
  obtain ⟨hlive, hpin, hin⟩ := h.unheld e List.mem_cons_self
  have hfrees (x : Nat) : (s.pfreeEntry e).frees x = s.frees x + if e = x then 1 else 0 := by
    simp [frees, Pcre2State.pfreeEntry, List.countP_cons]
  have hother (x : Nat) : (s.pfreeEntry e).Live x ↔ s.Live x ∧ x ≠ e := by
    show x < s.nextEntry ∧ (s.pfreeEntry e).frees x = 0 ↔ (x < s.nextEntry ∧ s.frees x = 0) ∧ x ≠ e
    rw [hfrees]
    by_cases hx : e = x
    · simp [hx]
    · simp [hx, Ne.symm hx]
  have hnodup := List.nodup_cons.mp h.nodup
  refine ⟨?_, ?_, ?_, ?_, h.distinct, ?_, ?_, hnodup.2, ?_, ?_, ?_⟩
  · intro x hx
    exact h.refcount x ((hother x).mp hx).1
  · intro x hx
    exact (hother x).mpr ⟨h.pinned x hx, fun hxe => hpin (hxe ▸ hx)⟩
  · intro i x hi
    obtain ⟨hx, hrest⟩ := h.slot i x hi
    refine ⟨(hother x).mpr ⟨hx, ?_⟩, hrest⟩
    rintro rfl
    exact h.not_slot_of_loose List.mem_cons_self i hi
  · intro x hx hinx
    exact h.cached x ((hother x).mp hx).1 hinx
  · intro x hx
    obtain ⟨hx, hxe⟩ := (hother x).mp hx
    rcases h.held x hx with hinx | hmem | hmem
    · exact .inl hinx
    · exact .inr (.inl hmem)
    · exact .inr (.inr ((List.mem_cons.mp hmem).resolve_left hxe))
  · intro x hx
    obtain ⟨hl, hrest⟩ := h.unheld x (List.mem_cons_of_mem _ hx)
    exact ⟨(hother x).mpr ⟨hl, fun hxe => hnodup.1 (hxe ▸ hx)⟩, hrest⟩
  · intro x
    rw [hfrees]
    by_cases hx : e = x
    · subst hx
      simp [hlive.2]
    · simpa [hx] using h.once x
  · intro x hx
    have hne : e ≠ x := fun he => absurd hlive.1 (by subst he; exact Nat.not_lt.mpr hx)
    rw [hfrees, if_neg hne]
    exact h.unborn x hx
  · intro f hf
    rcases List.mem_cons.mp hf with rfl | hf
    · refine ⟨(h.refcount_eq_zero hlive).mpr hpin, hin, decide_eq_false ?_⟩
      rintro ⟨i, hi⟩
      exact h.not_slot_of_loose List.mem_cons_self i hi
    · exact h.freed f hf

/-- The same with the objects of the entry. -/
theorem Held.freeEntry {pins loose : List Nat} {s : Pcre2State} {e : Nat} (h : Held pins (e :: loose) s) :
    Held pins loose (s.freeEntry e) := (h.freeObjects _).pfreeEntry

/-! ## Slots -/

/-- An entry leaves its slot: it is loose now unless something pins it. -/
theorem Held.clearSlot {pins loose : List Nat} {s : Pcre2State} (h : Held pins loose s) {i : Fin pcre2CacheSize} {e : Nat}
    (hi : s.cache i = some e) :
    Held pins (if e ∈ pins then loose else e :: loose)
      ((s.modify e fun entry => { entry with inCache := false }).setSlot i none) := by
  obtain ⟨hlive, hin, hpat⟩ := h.slot i e hi
  set t := (s.modify e fun entry => { entry with inCache := false }).setSlot i none with ht
  have hself : (t.entries e).inCache = false := by simp [ht]
  have hcount (x : Nat) : (t.entries x).refcount = (s.entries x).refcount := by
    by_cases hx : x = e
    · subst hx; simp [ht]
    · simp [ht, hx]
  have hkey (x : Nat) : (t.entries x).key = (s.entries x).key := by
    by_cases hx : x = e
    · subst hx; simp [ht, Pcre2CacheEntry.key]
    · simp [ht, hx]
  have hother {x : Nat} (hx : x ≠ e) : t.entries x = s.entries x := by simp [ht, hx]
  have hcache {j : Fin pcre2CacheSize} {x : Nat} (hj : t.cache j = some x) : s.cache j = some x ∧ x ≠ e := by
    have hji : j ≠ i := by
      rintro rfl
      simp [ht] at hj
    have hj' : s.cache j = some x := by simpa [ht, hji] using hj
    refine ⟨hj', ?_⟩
    rintro rfl
    exact hji (h.slot_inj hj' hi)
  have hloose : ∀ x ∈ (if e ∈ pins then loose else e :: loose), x ∈ loose ∨ x = e ∧ e ∉ pins := by
    intro x hx
    split at hx
    · exact .inl hx
    · rename_i hp
      rcases List.mem_cons.mp hx with rfl | hx
      · exact .inr ⟨rfl, hp⟩
      · exact .inl hx
  have hnot : e ∉ loose := fun hmem => h.not_slot_of_loose hmem i hi
  refine ⟨?_, h.pinned, ?_, ?_, ?_, ?_, ?_, ?_, h.once, h.unborn, h.freed⟩
  · intro x hx
    rw [hcount, h.refcount x hx]
  · intro j x hj
    obtain ⟨hj, hx⟩ := hcache hj
    rw [hother hx]
    exact h.slot j x hj
  · intro x hx hinx
    have hxe : x ≠ e := by
      rintro rfl
      rw [hself] at hinx
      nomatch hinx
    rw [hother hxe] at hinx
    obtain ⟨j, hj⟩ := h.cached x hx hinx
    have hji : j ≠ i := by
      rintro rfl
      exact hxe (Option.some.inj (hj.symm.trans hi))
    exact ⟨j, by simpa [ht, hji] using hj⟩
  · intro j k x y hj hk hxy
    rw [hkey, hkey] at hxy
    exact h.distinct j k x y (hcache hj).1 (hcache hk).1 hxy
  · intro x hx
    by_cases hxe : x = e
    · subst hxe
      by_cases hp : x ∈ pins
      · exact .inr (.inl hp)
      · exact .inr (.inr (by rw [if_neg hp]; exact List.mem_cons_self))
    · rw [hother hxe]
      rcases h.held x hx with hinx | hmem | hmem
      · exact .inl hinx
      · exact .inr (.inl hmem)
      · refine .inr (.inr ?_)
        split
        · exact hmem
        · exact List.mem_cons_of_mem _ hmem
  · intro x hx
    rcases hloose x hx with hx | ⟨rfl, hp⟩
    · obtain ⟨hl, hp, hinx⟩ := h.unheld x hx
      rw [hother (fun hxe => hnot (hxe ▸ hx))]
      exact ⟨hl, hp, hinx⟩
    · exact ⟨hlive, hp, hself⟩
  · split
    · exact h.nodup
    · exact List.nodup_cons.mpr ⟨hnot, h.nodup⟩

/-- Eviction keeps the invariant. -/
theorem Held.evictSlot {pins loose : List Nat} {s : Pcre2State} (h : Held pins loose s) (i : Fin pcre2CacheSize) :
    Held pins loose (s.evictSlot i) := by
  unfold Pcre2State.evictSlot
  split
  · exact h
  · rename_i e hi
    have hclear := h.clearSlot hi
    have hlive := (h.slot i e hi).1
    dsimp only
    split
    · rename_i hzero
      have hpin : e ∉ pins := by
        have hcount : (s.entries e).refcount = 0 := by simpa using hzero
        exact (h.refcount_eq_zero hlive).mp hcount
      rw [if_neg hpin] at hclear
      exact hclear.freeEntry
    · rename_i hpos
      have hpin : e ∈ pins := by
        have hcount : ¬ (s.entries e).refcount = 0 := by simpa using hpos
        rw [h.refcount_eq_zero hlive, not_not] at hcount
        exact hcount
      rwa [if_pos hpin] at hclear

/-- A loose entry with a new key enters an empty slot. -/
theorem Held.publish {pins loose : List Nat} {s : Pcre2State} {e : Nat} (h : Held pins (e :: loose) s)
    {i : Fin pcre2CacheSize} (hi : s.cache i = none) (hpat : (s.entries e).pattern ≠ none)
    (hnew : ∀ j x, s.cache j = some x → (s.entries x).key ≠ (s.entries e).key) : Held pins loose (s.publish i e) := by
  obtain ⟨hlive, hpin, hin⟩ := h.unheld e List.mem_cons_self
  have hnodup := List.nodup_cons.mp h.nodup
  set t := s.publish i e with ht
  have hself : (t.entries e).inCache = true := by simp [ht, Pcre2State.publish]
  have hcount (x : Nat) : (t.entries x).refcount = (s.entries x).refcount := by
    by_cases hx : x = e
    · subst hx; simp [ht, Pcre2State.publish]
    · simp [ht, Pcre2State.publish, hx]
  have hkey (x : Nat) : (t.entries x).key = (s.entries x).key := by
    by_cases hx : x = e
    · subst hx; simp [ht, Pcre2State.publish, Pcre2CacheEntry.key]
    · simp [ht, Pcre2State.publish, hx]
  have hother {x : Nat} (hx : x ≠ e) : t.entries x = s.entries x := by simp [ht, Pcre2State.publish, hx]
  have hlive' (x : Nat) : t.Live x ↔ s.Live x := Iff.rfl
  have hcache {j : Fin pcre2CacheSize} {x : Nat} (hj : t.cache j = some x) :
      (j = i ∧ x = e) ∨ (s.cache j = some x ∧ x ≠ e) := by
    by_cases hji : j = i
    · subst hji
      exact .inl ⟨rfl, by simpa [ht, Pcre2State.publish, eq_comm] using hj⟩
    · have hj' : s.cache j = some x := by simpa [ht, Pcre2State.publish, hji] using hj
      refine .inr ⟨hj', ?_⟩
      rintro rfl
      exact h.not_slot_of_loose List.mem_cons_self j hj'
  refine ⟨?_, h.pinned, ?_, ?_, ?_, ?_, ?_, hnodup.2, h.once, h.unborn, h.freed⟩
  · intro x hx
    rw [hcount, h.refcount x hx]
  · intro j x hj
    rcases hcache hj with ⟨rfl, rfl⟩ | ⟨hj, hx⟩
    · rw [pattern_ne_none_iff, hkey, ← pattern_ne_none_iff]
      exact ⟨hlive, hself, hpat⟩
    · rw [hother hx]
      exact h.slot j x hj
  · intro x hx hinx
    by_cases hxe : x = e
    · subst hxe
      exact ⟨i, by simp [ht, Pcre2State.publish]⟩
    · rw [hother hxe] at hinx
      obtain ⟨j, hj⟩ := h.cached x hx hinx
      have hji : j ≠ i := by
        rintro rfl
        rw [hi] at hj
        nomatch hj
      exact ⟨j, by simpa [ht, Pcre2State.publish, hji] using hj⟩
  · intro j k x y hj hk hxy
    rw [hkey, hkey] at hxy
    rcases hcache hj with ⟨hji, hxe⟩ | ⟨hj', -⟩ <;> rcases hcache hk with ⟨hki, hye⟩ | ⟨hk', -⟩
    · rw [hji, hki]
    · rw [hxe] at hxy
      exact absurd hxy.symm (hnew k y hk')
    · rw [hye] at hxy
      exact absurd hxy (hnew j x hj')
    · exact h.distinct j k x y hj' hk' hxy
  · intro x hx
    by_cases hxe : x = e
    · subst hxe
      exact .inl hself
    · rw [hother hxe]
      rcases h.held x hx with hinx | hmem | hmem
      · exact .inl hinx
      · exact .inr (.inl hmem)
      · exact .inr (.inr ((List.mem_cons.mp hmem).resolve_left hxe))
  · intro x hx
    rw [hother (fun hxe => hnodup.1 (hxe ▸ hx))]
    exact h.unheld x (List.mem_cons_of_mem _ hx)

/-- A published entry that nothing pins is taken back. -/
theorem Held.withdraw {pins loose : List Nat} {s : Pcre2State} (h : Held pins loose s) {i : Fin pcre2CacheSize} {e : Nat}
    (hi : s.cache i = some e) (hpin : e ∉ pins) : Held pins loose (s.withdraw i e) := by
  have hclear := h.clearSlot hi
  rw [if_neg hpin] at hclear
  unfold Pcre2State.withdraw
  rw [if_pos hi]
  exact (hclear.congr rfl rfl rfl rfl).freeEntry

/-! ## Pins -/

/-- One more pin on an entry that is held already. -/
theorem Held.pin {pins loose : List Nat} {s : Pcre2State} (h : Held pins loose s) {e : Nat} (he : s.Live e)
    (hloose : e ∉ loose) :
    Held (e :: pins) loose (s.modify e fun entry => { entry with refcount := entry.refcount + 1 }) := by
  set t := s.modify e fun entry => { entry with refcount := entry.refcount + 1 } with ht
  have hin (x : Nat) : (t.entries x).inCache = (s.entries x).inCache := by
    by_cases hx : x = e
    · subst hx; simp [ht]
    · simp [ht, hx]
  have hkey (x : Nat) : (t.entries x).key = (s.entries x).key := by
    by_cases hx : x = e
    · subst hx; simp [ht, Pcre2CacheEntry.key]
    · simp [ht, hx]
  refine ⟨?_, ?_, ?_, ?_, ?_, ?_, ?_, h.nodup, h.once, h.unborn, h.freed⟩
  · intro x hx
    by_cases hxe : x = e
    · subst hxe
      simp [ht, h.refcount x hx]
    · rw [List.count_cons_of_ne (Ne.symm hxe), ← h.refcount x hx]
      simp [ht, hxe]
  · intro x hx
    rcases List.mem_cons.mp hx with rfl | hx
    · exact he
    · exact h.pinned x hx
  · intro i x hi
    rw [pattern_ne_none_iff, hkey, hin, ← pattern_ne_none_iff]
    exact h.slot i x hi
  · intro x hx hinx
    rw [hin] at hinx
    exact h.cached x hx hinx
  · intro i j x y hi hj hxy
    rw [hkey, hkey] at hxy
    exact h.distinct i j x y hi hj hxy
  · intro x hx
    rw [hin]
    rcases h.held x hx with hinx | hmem | hmem
    · exact .inl hinx
    · exact .inr (.inl (List.mem_cons_of_mem _ hmem))
    · exact .inr (.inr hmem)
  · intro x hx
    obtain ⟨hl, hp, hinx⟩ := h.unheld x hx
    rw [hin]
    refine ⟨hl, fun hmem => ?_, hinx⟩
    rcases List.mem_cons.mp hmem with rfl | hmem
    · exact hloose hx
    · exact hp hmem

/-- One pin less: the entry is loose now unless a slot or another pin holds it. -/
theorem Held.dropPin {pins loose : List Nat} {s : Pcre2State} {e : Nat} (h : Held (e :: pins) loose s) :
    Held pins (if (s.entries e).inCache = true ∨ e ∈ pins then loose else e :: loose)
      (s.modify e fun entry => { entry with refcount := entry.refcount - 1 }) := by
  have he := h.pinned e List.mem_cons_self
  have hnot : e ∉ loose := fun hmem => (h.unheld e hmem).2.1 List.mem_cons_self
  set t := s.modify e fun entry => { entry with refcount := entry.refcount - 1 } with ht
  have hin (x : Nat) : (t.entries x).inCache = (s.entries x).inCache := by
    by_cases hx : x = e
    · subst hx; simp [ht]
    · simp [ht, hx]
  have hkey (x : Nat) : (t.entries x).key = (s.entries x).key := by
    by_cases hx : x = e
    · subst hx; simp [ht, Pcre2CacheEntry.key]
    · simp [ht, hx]
  refine ⟨?_, ?_, ?_, ?_, ?_, ?_, ?_, ?_, h.once, h.unborn, h.freed⟩
  · intro x hx
    have hcount := h.refcount x hx
    by_cases hxe : x = e
    · subst hxe
      rw [List.count_cons_self] at hcount
      simp [ht, hcount]
    · rw [List.count_cons_of_ne (Ne.symm hxe)] at hcount
      simpa [ht, hxe] using hcount
  · intro x hx
    exact h.pinned x (List.mem_cons_of_mem _ hx)
  · intro i x hi
    rw [pattern_ne_none_iff, hkey, hin, ← pattern_ne_none_iff]
    exact h.slot i x hi
  · intro x hx hinx
    rw [hin] at hinx
    exact h.cached x hx hinx
  · intro i j x y hi hj hxy
    rw [hkey, hkey] at hxy
    exact h.distinct i j x y hi hj hxy
  · intro x hx
    rw [hin]
    by_cases hxe : x = e
    · subst hxe
      split
      · rename_i hstill
        exact hstill.imp_right .inl
      · exact .inr (.inr List.mem_cons_self)
    · rcases h.held x hx with hinx | hmem | hmem
      · exact .inl hinx
      · exact .inr (.inl ((List.mem_cons.mp hmem).resolve_left hxe))
      · refine .inr (.inr ?_)
        split
        · exact hmem
        · exact List.mem_cons_of_mem _ hmem
  · intro x hx
    rw [hin]
    have hcases : x ∈ loose ∨ x = e ∧ ¬ ((s.entries e).inCache = true ∨ e ∈ pins) := by
      split at hx
      · exact .inl hx
      · rename_i hgone
        exact (List.mem_cons.mp hx).symm.imp_right (fun hxe => ⟨hxe, hgone⟩)
    rcases hcases with hx | ⟨rfl, hgone⟩
    · obtain ⟨hl, hp, hinx⟩ := h.unheld x hx
      exact ⟨hl, fun hmem => hp (List.mem_cons_of_mem _ hmem), hinx⟩
    · rw [not_or, Bool.not_eq_true] at hgone
      exact ⟨he, hgone.2, hgone.1⟩
  · split
    · exact h.nodup
    · exact List.nodup_cons.mpr ⟨hnot, h.nodup⟩

/-- Unpinning keeps the invariant, with one pin less. -/
theorem Held.unpinEntry {pins loose : List Nat} {s : Pcre2State} {e : Nat} (h : Held (e :: pins) loose s) :
    Held pins loose (s.unpinEntry e) := by
  have hdrop := h.dropPin
  have hcount : (s.entries e).refcount - 1 = pins.count e := by
    rw [h.refcount e (h.pinned e List.mem_cons_self), List.count_cons_self]
    simp
  have hgone : ((s.entries e).refcount - 1 = 0 ∧ (s.entries e).inCache = false) ↔
      ¬ ((s.entries e).inCache = true ∨ e ∈ pins) := by
    rw [hcount, Int.natCast_eq_zero, List.count_eq_zero, not_or, Bool.not_eq_true, and_comm]
  unfold Pcre2State.unpinEntry
  dsimp only
  split
  · rename_i hfree
    rw [if_neg (hgone.mp (by simpa using hfree))] at hdrop
    exact hdrop.freeEntry
  · rename_i hkeep
    rw [if_pos (by_contra fun hno => hkeep (by simpa using hgone.mpr hno))] at hdrop
    exact hdrop

/-- A whole list of pins is dropped. -/
theorem Held.unpinAll {pins loose : List Nat} (dropped : List Nat) {s : Pcre2State} (h : Held (dropped ++ pins) loose s) :
    Held pins loose (dropped.foldl Pcre2State.unpinEntry s) := by
  induction dropped generalizing s with
  | nil => exact h
  | cons e dropped ih => exact ih (Held.unpinEntry h)

end Pcre2CacheAux

end PgJitter
