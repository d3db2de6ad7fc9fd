import PgJitter.Theorems.Pcre2Cache
import PgJitter.Lemmas.Pcre2Failure

/-!
# Calls on the pattern cache that return no entry

What they made is always freed again. The cache is as before unless an entry was evicted, which is the case when no slot was empty and the
call came as far as the match context.
-/

namespace PgJitter

open Pcre2CacheAux

namespace Pcre2State

/-- The slots hold the entries that they held, with their flags, patterns and counts. -/
structure SameCache (s t : Pcre2State) : Prop where
  cache : t.cache = s.cache
  key : ∀ i e, s.cache i = some e → (t.entries e).key = (s.entries e).key
  refcount : ∀ i e, s.cache i = some e → (t.entries e).refcount = (s.entries e).refcount

/-- Nothing is live that was not: neither a pattern string or a PCRE2 object, nor an entry. -/
structure Released (s t : Pcre2State) : Prop where
  objects : t.objects ⊆ s.objects
  entries : ∀ e, t.Live e → s.Live e

end Pcre2State

/-- The call ends before it chooses a slot: it is refused, its pattern has no translation or one that is too long, or something that comes
before the slot can not be made. -/
def Pcre2Env.StopsEarly (env : Pcre2Env) (call : Pcre2CompileCall) : Prop :=
  call.ctx = none ∨ env.isEligible call.collid call.isLike call.caseInsensitive = false ∨ call.pattern.length > pcre2MaxPatternBytes ∨
    (∀ regex, env.translate call = some regex → regex.length > pcre2MaxPatternBytes) ∨ call.entryOk = false ∨ call.codeOk = false ∨
    call.matchDataOk = false

namespace Pcre2CacheAux

open Pcre2State

/-- A state with the same cache and objects, where no entry that existed was touched. -/
theorem sameCache_of_entries {s t : Pcre2State} (hslots : ∀ i e, s.cache i = some e → e < s.nextEntry) (hcache : t.cache = s.cache)
    (hentries : ∀ e < s.nextEntry, t.entries e = s.entries e) : s.SameCache t :=
  ⟨hcache, fun i e hi => congrArg _ (hentries e (hslots i e hi)), fun i e hi => congrArg _ (hentries e (hslots i e hi))⟩

/-- An entry that is new and freed is not live, and the frees of the others are not taken back. -/
theorem live_of_discard {s t : Pcre2State} (hnext : t.nextEntry = s.nextEntry + 1)
    (hfrees : ∀ x, s.frees x + (if x = s.nextEntry then 1 else 0) ≤ t.frees x) (e : Nat) (hlive : t.Live e) : s.Live e := by
  obtain ⟨hlt, hzero⟩ := hlive
  have hle := hfrees e
  by_cases he : e = s.nextEntry
  · rw [if_pos he] at hle
    omega
  · rw [if_neg he] at hle
    exact ⟨by omega, by omega⟩

/-- What is freed on both sides of an eviction can be freed before it. -/
theorem diff_diff_comm (l gone made : List Nat) : (l.diff gone).diff made = (l.diff made).diff gone := by
  rw [← List.diff_append, ← List.diff_append, List.Perm.diff_left _ List.perm_append_comm]

/-- The end of a miss that undoes itself. -/
theorem discarded_null {s t : Pcre2State} (hslots : ∀ i e, s.cache i = some e → e < s.nextEntry) {objs : List Nat} {p : Prop} (hp : p)
    (hcache : t.cache = s.cache) (hentries : ∀ x, x ≠ s.nextEntry → t.entries x = s.entries x) (hobjs : t.objects = objs)
    (hnext : t.nextEntry = s.nextEntry + 1) (hfrees : ∀ x, t.frees x = s.frees x + if x = s.nextEntry then 1 else 0) :
    t.objects ⊆ objs ∧ (∀ e, t.Live e → s.Live e) ∧ (s.SameCache t ↔ p) :=
  ⟨hobjs ▸ List.Subset.refl _, live_of_discard hnext fun x => (hfrees x).ge,
    iff_of_true (sameCache_of_entries hslots hcache fun e he => hentries e (Nat.ne_of_lt he)) hp⟩

/-- The exit after a slot was chosen: the cache is the same exactly when that slot was empty. -/
theorem install_null {s u : Pcre2State} (hslots : ∀ i e, s.cache i = some e → e < s.nextEntry) {call : Pcre2CompileCall} {c : Nat}
    (hc : call.ctx = some c) {pattern : Pcre2Pattern} {flags : Pcre2Flags} {code matchData : Nat} {objs : List Nat}
    (hcache : u.cache = s.cache) (hentries : ∀ x, x ≠ s.nextEntry → u.entries x = s.entries x)
    (hobjs : u.objects = matchData :: code :: pattern.object :: objs) (hnext : u.nextEntry = s.nextEntry + 1)
    (hfrees : ∀ x, u.frees x = s.frees x) {slot : Fin pcre2CacheSize} (hslot : u.chooseSlot = some slot)
    {t : Pcre2State × Pcre2Compiled} (ht : t = (u.evictSlot slot).installEntry call slot pattern flags s.nextEntry code matchData)
    (hnull : t.2 = .null) :
    t.1.objects ⊆ objs ∧ (∀ e, t.1.Live e → s.Live e) ∧ (s.SameCache t.1 ↔ ∃ i, s.cache i = none) := by
  subst ht
  have hctx : call.matchContextOk = false :=
    Bool.eq_false_iff.2 fun htrue => installEntry_ne_null _ htrue hc slot pattern flags s.nextEntry code matchData hnull
  have hlast := installEntry_discarded (u.evictSlot slot) hctx slot pattern flags s.nextEntry code matchData
  have hmade : u.objects.diff [matchData, code, pattern.object] = objs := by simp [hobjs]
  by_cases hempty : ∃ i, s.cache i = none
  · obtain ⟨i, hi⟩ := hempty
    obtain ⟨j, hj, hnone⟩ := chooseLoop_of_empty u ⟨i, List.mem_finRange i, by rwa [hcache]⟩ none none
    obtain rfl : j = slot := Option.some.inj (hj.symm.trans hslot)
    rw [evictSlot_of_empty hnone] at hlast ⊢
    refine discarded_null hslots ⟨i, hi⟩ (hlast.cache.trans hcache) (fun x hx => (hlast.entries x hx).trans (hentries x hx))
      (hlast.objects.trans hmade) (hlast.nextEntry.trans hnext) fun x => ?_
    rw [hlast.frees, hfrees]
  · obtain ⟨⟨gone, hgone⟩, hkeep, hmore⟩ := evictSlot_frees u slot
    refine ⟨?_, live_of_discard (hlast.nextEntry.trans (hkeep.trans hnext)) fun x => ?_, iff_of_false (fun hsame => ?_) hempty⟩
    · rw [hlast.objects, hgone, diff_diff_comm, hmade]
      exact List.diff_subset objs gone
    · have hmore := hmore x
      rw [hfrees] at hmore
      rw [hlast.frees]
      omega
    · have hnone : s.cache slot = none := by
        rw [← hsame.cache, hlast.cache]
        exact evictSlot_cache u slot
      exact hempty ⟨slot, hnone⟩

/-- A miss that returns no entry. -/
theorem compileMiss_null {s : Pcre2State} (hslots : ∀ i e, s.cache i = some e → e < s.nextEntry) {call : Pcre2CompileCall} {c : Nat}
    (hc : call.ctx = some c) {pattern : Pcre2Pattern} {objs : List Nat} (hobjs : s.objects = pattern.object :: objs)
    {flags : Pcre2Flags} (hnull : (s.compileMiss call pattern flags).2 = .null) :
    (s.compileMiss call pattern flags).1.objects ⊆ objs ∧ (∀ e, (s.compileMiss call pattern flags).1.Live e → s.Live e) ∧
      (s.SameCache (s.compileMiss call pattern flags).1 ↔
        (∃ i, s.cache i = none) ∨ call.entryOk = false ∨ call.codeOk = false ∨ call.matchDataOk = false) := by
  have hnew : ∀ x, x ≠ s.nextEntry → s.allocEntry.2.entries x = s.entries x := fun x hx => by simp [Pcre2State.allocEntry, hx]
  unfold compileMiss at hnull ⊢
  cases hentry : call.entryOk with
  | false =>
    rw [if_pos rfl]
    refine ⟨?_, fun e he => he, iff_of_true ⟨rfl, fun _ _ _ => rfl, fun _ _ _ => rfl⟩ (.inr (.inl rfl))⟩
    simp [freeObject, hobjs]
  | true =>
  simp only [hentry, reduceCtorEq, if_false] at hnull ⊢
  cases hcode : call.codeOk with
  | false =>
    rw [if_pos rfl]
    refine discarded_null hslots (.inr (.inr (.inl rfl))) rfl hnew ?_ rfl fun x => frees_pfreeEntry _ _ x
    simp [freeObject, Pcre2State.pfreeEntry, Pcre2State.allocEntry, hobjs]
  | true =>
  simp only [hcode, reduceCtorEq, if_false] at hnull ⊢
  cases hdata : call.matchDataOk with
  | false =>
    rw [if_pos rfl]
    refine discarded_null hslots (.inr (.inr (.inr rfl))) rfl hnew ?_ rfl fun x => frees_pfreeEntry _ _ x
    simp [freeObject, Pcre2State.pfreeEntry, Pcre2State.allocEntry, allocObject, hobjs]
  | true =>
  simp only [hdata, reduceCtorEq, if_false] at hnull ⊢
  -- the state in which the slot is chosen
  set u := s.allocEntry.2.allocObject.2.allocObject.2 with hu
  have hmade : u.objects = s.allocEntry.2.allocObject.2.nextObject :: s.allocEntry.2.nextObject :: pattern.object :: objs := by
    rw [← hobjs]
    rfl
  have hkept : ∀ x, x ≠ s.nextEntry → u.entries x = s.entries x := hnew
  have hfrees : ∀ x, u.frees x = s.frees x := fun x => rfl
  obtain ⟨slot, hslot⟩ := Option.isSome_iff_exists.1 (chooseSlot_isSome u)
  rw [hslot] at hnull ⊢
  obtain ⟨hobjects, hlive, hsame⟩ := install_null (u := u) hslots hc rfl hkept hmade rfl hfrees hslot rfl hnull
  refine ⟨hobjects, hlive, hsame.trans ?_⟩
  simp

end Pcre2CacheAux

open Pcre2State

/-- A call that returns no entry, on a cache as calls and releases leave it, leaves the slots with their patterns and counts and releases
all that it made exactly when a slot was empty or the call ended before it chose one. -/
theorem null_compile_restores_iff (env : Pcre2Env) (s : Pcre2State) (hs : s.Sound) (call : Pcre2CompileCall)
    (hnull : (pcre2Compile env s call).2 = .null) :
    s.SameCache (pcre2Compile env s call).1 ∧ s.Released (pcre2Compile env s call).1 ↔
      (∃ i, s.cache i = none) ∨ env.StopsEarly call := by
  have hslots : ∀ i e, s.cache i = some e → e < s.nextEntry := fun i e hi => (hs.slots i e hi).1
  have hrefl : s.SameCache s ∧ s.Released s := ⟨⟨rfl, fun _ _ _ => rfl, fun _ _ _ => rfl⟩, List.Subset.refl _, fun _ he => he⟩
  unfold pcre2Compile at hnull ⊢
  split
  · rename_i hctx
    exact iff_of_true hrefl (.inr (.inl hctx))
  rename_i hctx
  obtain ⟨c, hc⟩ := Option.ne_none_iff_exists'.1 hctx
  rw [if_neg hctx] at hnull
  split
  · rename_i helig
    exact iff_of_true hrefl (.inr (.inr (.inl helig)))
  rename_i helig
  rw [if_neg helig] at hnull
  split
  · rename_i hlong
    exact iff_of_true hrefl (.inr (.inr (.inr (.inl hlong))))
  rename_i hlong
  rw [if_neg hlong] at hnull
  dsimp only at hnull ⊢
  cases hregex : env.translate call with
  | none => exact iff_of_true hrefl (.inr (.inr (.inr (.inr (.inl fun _ h => nomatch hregex.symm.trans h)))))
  | some regex =>
  simp only [hregex] at hnull ⊢
  split
  · rename_i hbig
    refine iff_of_true ⟨⟨rfl, fun _ _ _ => rfl, fun _ _ _ => rfl⟩, ?_, fun _ he => he⟩ ?_
    · simp [freeObject, allocObject]
    · exact .inr (.inr (.inr (.inr (.inl fun r hr => Option.some.inj (hregex.symm.trans hr) ▸ hbig))))
  rename_i hbig
  rw [if_neg hbig] at hnull
  split
  · rename_i e hfound
    rw [hfound] at hnull
    exact absurd hnull (compileHit_ne_null _ hc _ e)
  · rename_i hfound
    rw [hfound] at hnull
    obtain ⟨hobjects, hlive, hsame⟩ := compileMiss_null (s := s.allocObject.2) hslots hc rfl hnull
    have hreach : ¬ ∀ r, env.translate call = some r → r.length > pcre2MaxPatternBytes := fun h => hbig (h regex hregex)
    have hctx : call.ctx ≠ none := by simp [hc]
    constructor
    · rintro ⟨⟨hcache, hkey, hrefcount⟩, -⟩
      rcases hsame.1 ⟨hcache, hkey, hrefcount⟩ with hempty | hfailed
      · exact .inl hempty
      · exact .inr (.inr (.inr (.inr (.inr hfailed))))
    · intro hcond
      have hstop : (∃ i, s.cache i = none) ∨ call.entryOk = false ∨ call.codeOk = false ∨ call.matchDataOk = false := by
        simpa [Pcre2Env.StopsEarly, hctx, helig, hlong, hreach] using hcond
      obtain ⟨hcache, hkey, hrefcount⟩ := hsame.2 hstop
      exact ⟨⟨hcache, hkey, hrefcount⟩, hobjects, hlive⟩

namespace Pcre2FailureWitness

/-- A database in a single-byte encoding with deterministic collations, and no raw regex translated. -/
def latinEnv : Pcre2Env := ⟨⟨1, false⟩, fun _ => true, fun _ => false, fun _ _ => none⟩

/-- The entry that `LIKE` made of one literal and a percent sign leaves, once its context is released. -/
def unpinned (e : Nat) : Pcre2CacheEntry :=
  { pattern := some ⟨5 * e, [0x5e, UInt8.ofNat (128 + e)]⟩, flags := pcre2CompileFlags latinEnv.encoding false, code := some (5 * e + 1),
    matchData := some (5 * e + 2), jitStack := some (5 * e + 3), matchContext := some (5 * e + 4), jitFast := none, refcount := 0,
    inCache := true, lruCounter := UInt64.ofNat (e + 1) }

/-- The cache after the first context compiled 64 patterns and was released, and a second one was created. -/
def fullCache : Pcre2State :=
  { entries := unpinned, nextEntry := 64, freed := [], objects := List.range 320, nextObject := 320, cache := fun i => some i.val,
    lruClock := 64, compileCounter := 64, contexts := [none, some []] }

/-- `LIKE 'a%'` for the second context; the match context can not be made. -/
def failedCall : Pcre2CompileCall :=
  ⟨some 1, [0x61, 0x25], true, false, 100, fun _ => true, true, true, true, true, false, false, true⟩

/-- The cache is as calls and releases leave it. -/
theorem fullCache_sound : fullCache.Sound where
  refcount e _ := rfl
  distinct i j e f hi hj hkey := by
    obtain rfl : i.val = e := Option.some.inj hi
    obtain rfl : j.val = f := Option.some.inj hj
    have hbyte : UInt8.ofNat (128 + i.val) = UInt8.ofNat (128 + j.val) := by
      simpa [fullCache, unpinned, Pcre2CacheEntry.key] using hkey
    have hi := i.isLt
    have hj := j.isLt
    have hval := congrArg UInt8.toNat hbyte
    simp only [UInt8.toNat_ofNat', pcre2CacheSize] at hval hi hj
    exact Fin.ext (by omega)
  slots i e hi := by
    obtain rfl : i.val = e := Option.some.inj hi
    exact ⟨i.isLt, rfl⟩
  freedOnce e he := by
    rw [if_pos (.inl ⟨⟨e, he⟩, rfl⟩)]
    rfl
  freedUnheld f hf := absurd hf List.not_mem_nil
  pinned c e hpin := by
    obtain ⟨l, hl, he⟩ := hpin
    have hnil : l = [] := by
      rcases c with _ | _ | c
      · simp [fullCache] at hl
      · simpa [fullCache] using hl.symm
      · simp [fullCache] at hl
    subst hnil
    exact absurd he List.not_mem_nil

/-- The call returns no entry, and the pattern that was cached first is gone. -/
theorem failed_call_evicts : fullCache.Sound ∧ (pcre2Compile latinEnv fullCache failedCall).2 = .null ∧
    ¬ (fullCache.SameCache (pcre2Compile latinEnv fullCache failedCall).1 ∧
      fullCache.Released (pcre2Compile latinEnv fullCache failedCall).1) := by
  refine ⟨fullCache_sound, by decide +kernel, fun hkept => ?_⟩
  have hgone : (pcre2Compile latinEnv fullCache failedCall).1.cache ⟨0, by decide⟩ = none := by decide +kernel
  rw [hkept.1.cache] at hgone
  nomatch hgone

/-- A pattern that can not be compiled. -/
def uncompilableCall : Pcre2CompileCall := { failedCall with codeOk := false }

/-- Such a call leaves the full cache as it was. -/
theorem uncompilable_call_restores : fullCache.SameCache (pcre2Compile latinEnv fullCache uncompilableCall).1 ∧
    fullCache.Released (pcre2Compile latinEnv fullCache uncompilableCall).1 :=
  (null_compile_restores_iff latinEnv fullCache fullCache_sound uncompilableCall (by decide +kernel)).2
    (.inr (.inr (.inr (.inr (.inr (.inr (.inl rfl)))))))

end Pcre2FailureWitness

end PgJitter
