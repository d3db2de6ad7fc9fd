import PgJitter.MetaStats

/-!
# Helpers for `Theorems/MetaStats.lean`

What one record does to the table: it keeps hashes and profiles, or it appends an entry with the hash and profile it was given. What one
event does follows from that.
-/

namespace PgJitter
namespace MetaStatsAux

open AdaptiveStatsTable MetaState

/-! ## One record -/

/-- The entries keep their hashes and profiles, and none is made. -/
structure SameProfiles (t t' : AdaptiveStatsTable) : Prop where
  num : t'.numEntries = t.numEntries
  max : t'.maxEntries = t.maxEntries
  hash : ∀ i, (t'.entries i).profileHash = (t.entries i).profileHash
  profile : ∀ i, (t'.entries i).profile = (t.entries i).profile

/-- An entry is made at the end, with a new hash. -/
structure Appended (t t' : AdaptiveStatsTable) (h : BitVec 32) (p : ExprProfile) : Prop where
  room : t.numEntries < t.maxEntries
  fresh : ∀ i < t.numEntries, (t.entries i).profileHash ≠ h
  num : t'.numEntries = t.numEntries + 1
  max : t'.maxEntries = t.maxEntries
  old : ∀ i < t.numEntries, (t'.entries i).profileHash = (t.entries i).profileHash ∧ (t'.entries i).profile = (t.entries i).profile
  newHash : (t'.entries t.numEntries).profileHash = h
  newProfile : (t'.entries t.numEntries).profile = p

theorem SameProfiles.refl (t : AdaptiveStatsTable) : SameProfiles t t := ⟨rfl, rfl, fun _ => rfl, fun _ => rfl⟩

theorem SameProfiles.trans {t u v : AdaptiveStatsTable} (h : SameProfiles t u) (h' : SameProfiles u v) : SameProfiles t v :=
  ⟨h'.num.trans h.num, h'.max.trans h.max, fun i => (h'.hash i).trans (h.hash i), fun i => (h'.profile i).trans (h.profile i)⟩

/-- A sample is added. -/
theorem sameProfiles_modify (t : AdaptiveStatsTable) (slot : Nat) (b : MetaBackend) (compileNs execNs : BitVec 64) (n : Nat) :
    SameProfiles t (t.modify slot fun e => e.add b compileNs execNs n) := by
  refine ⟨rfl, rfl, fun i => ?_, fun i => ?_⟩
  · by_cases hi : i = slot
    · subst hi
      simp [AdaptiveStatsTable.modify, AdaptiveStatsEntry.add]
    · simp [AdaptiveStatsTable.modify, hi]
  · by_cases hi : i = slot
    · subst hi
      simp [AdaptiveStatsTable.modify, AdaptiveStatsEntry.add]
    · simp [AdaptiveStatsTable.modify, hi]

/-- A record of a hash that the table has, or has no room for, keeps the profiles. -/
theorem sameProfiles_record {t : AdaptiveStatsTable} {h : BitVec 32}
    (hknown : (∃ i < t.numEntries, (t.entries i).profileHash = h) ∨ t.maxEntries ≤ t.numEntries) (b : MetaBackend)
    (compileNs execNs : BitVec 64) (n : Nat) (profile : Option ExprProfile) :
    SameProfiles t (t.adaptiveStatsRecord h b compileNs execNs n profile) := by
  unfold adaptiveStatsRecord
  cases hlookup : t.adaptiveStatsLookup h with
  | some slot => exact sameProfiles_modify t slot b compileNs execNs n
  | none =>
    have hfull : t.maxEntries ≤ t.numEntries := by
      rcases hknown with ⟨i, hi, hkey⟩ | hfull
      · exact absurd hkey (KeyedArray.lookup_eq_none_iff.1 hlookup i hi)
      · exact hfull
    simp only [adaptiveStatsInsert, hlookup, if_pos hfull]
    exact SameProfiles.refl t

/-- A record of a new hash for which there is room appends an entry. -/
theorem appended_record {t : AdaptiveStatsTable} {h : BitVec 32} (hnew : ∀ i < t.numEntries, (t.entries i).profileHash ≠ h)
    (hroom : t.numEntries < t.maxEntries) (b : MetaBackend) (compileNs execNs : BitVec 64) (n : Nat) (profile : Option ExprProfile) :
    Appended t (t.adaptiveStatsRecord h b compileNs execNs n profile) h (profile.getD .empty) := by
  have hlookup : t.adaptiveStatsLookup h = none := KeyedArray.lookup_eq_none_iff.2 hnew
  have hfull : ¬ t.maxEntries ≤ t.numEntries := Nat.not_le.2 hroom
  simp only [adaptiveStatsRecord, adaptiveStatsInsert, hlookup, if_neg hfull]
  have hsame := sameProfiles_modify
    { t with
      numEntries := t.numEntries + 1
      entries := Function.update t.entries t.numEntries
        { t.entries t.numEntries with profileHash := h, profile := profile.getD .empty } } t.numEntries b compileNs execNs n
  refine ⟨hroom, hnew, hsame.num, hsame.max, fun i hi => ?_, ?_, ?_⟩
  · rw [hsame.hash, hsame.profile]
    simp [Nat.ne_of_lt hi]
  · rw [hsame.hash]
    simp
  · rw [hsame.profile]
    simp

/-- A record does one or the other. -/
theorem record_cases (t : AdaptiveStatsTable) (h : BitVec 32) (b : MetaBackend) (compileNs execNs : BitVec 64) (n : Nat)
    (profile : Option ExprProfile) :
    SameProfiles t (t.adaptiveStatsRecord h b compileNs execNs n profile) ∨
      Appended t (t.adaptiveStatsRecord h b compileNs execNs n profile) h (profile.getD .empty) := by
  by_cases hknown : (∃ i < t.numEntries, (t.entries i).profileHash = h) ∨ t.maxEntries ≤ t.numEntries
  · exact .inl (sameProfiles_record hknown b compileNs execNs n profile)
  · simp only [not_or, not_exists, not_and, Nat.not_le] at hknown
    exact .inr (appended_record hknown.1 hknown.2 b compileNs execNs n profile)

/-! ## What is kept -/

theorem SameProfiles.keyed {t t' : AdaptiveStatsTable} (h : SameProfiles t t') (hkeyed : t.Keyed) : t'.Keyed where
  distinct i j hi hj heq := by
    rw [h.num] at hi hj
    rw [h.hash, h.hash] at heq
    exact hkeyed.distinct i j hi hj heq
  bounded := by rw [h.num, h.max]; exact hkeyed.bounded

theorem SameProfiles.profilesMatch {t t' : AdaptiveStatsTable} (h : SameProfiles t t') (hmatch : t.ProfilesMatch) : t'.ProfilesMatch := by
  intro i hi
  rw [h.num] at hi
  rw [h.hash, h.profile]
  exact hmatch i hi

/-- Keys stay different when a new one is appended. -/
theorem Appended.keyed {t t' : AdaptiveStatsTable} {hash : BitVec 32} {p : ExprProfile} (h : Appended t t' hash p) (hkeyed : t.Keyed) :
    t'.Keyed where
  distinct := by
    rw [h.num]
    have hdistinct : KeyedArray.Distinct AdaptiveStatsEntry.profileHash
        (Function.update t.entries t.numEntries (t'.entries t.numEntries)) (t.numEntries + 1) :=
      KeyedArray.Distinct.append hkeyed.distinct fun i hi => by rw [h.newHash]; exact h.fresh i hi
    refine hdistinct.congr fun i hi => ?_
    rcases Nat.lt_succ_iff_lt_or_eq.1 hi with hlt | rfl
    · rw [Function.update_of_ne (Nat.ne_of_lt hlt)]
      exact (h.old i hlt).1
    · rw [Function.update_self]
  bounded := by rw [h.num, h.max]; exact h.room

theorem Appended.profilesMatch {t t' : AdaptiveStatsTable} {hash : BitVec 32} {p : ExprProfile} (h : Appended t t' hash p)
    (hp : metaProfileHash p = hash) (hmatch : t.ProfilesMatch) : t'.ProfilesMatch := by
  intro i hi
  rw [h.num] at hi
  rcases Nat.lt_succ_iff_lt_or_eq.1 hi with hlt | rfl
  · rw [(h.old i hlt).1, (h.old i hlt).2]
    exact hmatch i hlt
  · rw [h.newHash, h.newProfile, hp]

/-- A record keeps the table keyed. -/
theorem keyed_record {t : AdaptiveStatsTable} (hkeyed : t.Keyed) (h : BitVec 32) (b : MetaBackend) (compileNs execNs : BitVec 64) (n : Nat)
    (profile : Option ExprProfile) : (t.adaptiveStatsRecord h b compileNs execNs n profile).Keyed := by
  rcases record_cases t h b compileNs execNs n profile with hsame | happ
  · exact hsame.keyed hkeyed
  · exact happ.keyed hkeyed

/-! ## Releases -/

theorem keyed_flush {t : AdaptiveStatsTable} (hkeyed : t.Keyed) (tctx : AdaptiveTimingCtx) : (flushTiming t tctx).Keyed := by
  unfold flushTiming
  split
  · exact keyed_record hkeyed _ _ _ _ _ _
  · exact hkeyed

theorem keyed_flushes {t : AdaptiveStatsTable} (hkeyed : t.Keyed) (tctxs : List AdaptiveTimingCtx) : (tctxs.foldl flushTiming t).Keyed := by
  induction tctxs generalizing t with
  | nil => exact hkeyed
  | cons tctx tctxs ih => exact ih (keyed_flush hkeyed tctx)

/-- A flush that makes no entry. -/
theorem sameProfiles_flush {t : AdaptiveStatsTable} {tctx : AdaptiveTimingCtx} (h : t.Flushable tctx) :
    SameProfiles t (flushTiming t tctx) := by
  unfold flushTiming
  split
  · rename_i hopen
    exact sameProfiles_record (h hopen.1 hopen.2) _ _ _ _ _
  · exact SameProfiles.refl t

/-- Whether a flush would make an entry depends on the hashes alone. -/
theorem SameProfiles.flushable {t t' : AdaptiveStatsTable} (h : SameProfiles t t') {tctx : AdaptiveTimingCtx} (hflush : t.Flushable tctx) :
    t'.Flushable tctx := by
  intro hdone hcalls
  rw [h.num, h.max]
  rcases hflush hdone hcalls with ⟨i, hi, hkey⟩ | hfull
  · exact .inl ⟨i, hi, (h.hash i).trans hkey⟩
  · exact .inr hfull

theorem sameProfiles_flushes {t : AdaptiveStatsTable} {tctxs : List AdaptiveTimingCtx} (h : ∀ tctx ∈ tctxs, t.Flushable tctx) :
    SameProfiles t (tctxs.foldl flushTiming t) := by
  induction tctxs generalizing t with
  | nil => exact SameProfiles.refl t
  | cons tctx tctxs ih =>
    have hfirst := sameProfiles_flush (h tctx List.mem_cons_self)
    exact hfirst.trans (ih fun other hother => hfirst.flushable (h other (List.mem_cons_of_mem tctx hother)))

/-! ## Events -/

/-- The hash of every timing context is that of its profile. -/
def Hashed (s : MetaState) : Prop := ∀ ctx, ∀ tctx ∈ s.timings ctx, metaProfileHash tctx.profile = tctx.profileHash

/-- The table holds what is said of it, if there is one. -/
def TableHolds (p : AdaptiveStatsTable → Prop) (s : MetaState) : Prop := ∀ t, s.stats = some t → p t

/-- Lists of timing contexts, one of which is replaced. -/
theorem hashed_update {s : MetaState} (h : Hashed s) {stats : Option AdaptiveStatsTable} {ctx : Nat} {tctxs : List AdaptiveTimingCtx}
    (htctxs : ∀ tctx ∈ tctxs, metaProfileHash tctx.profile = tctx.profileHash) : Hashed ⟨stats, Function.update s.timings ctx tctxs⟩ := by
  intro c tctx hmem
  by_cases hc : c = ctx
  · subst hc
    simp only [Function.update_self] at hmem
    exact htctxs tctx hmem
  · simp only [Function.update_of_ne hc] at hmem
    exact h c tctx hmem

theorem keyed_init : AdaptiveStatsTable.init.Keyed := ⟨fun _ _ hi => absurd hi (Nat.not_lt_zero _), Nat.zero_le _⟩

theorem match_init : AdaptiveStatsTable.init.ProfilesMatch := fun _ hi => absurd hi (Nat.not_lt_zero _)

/-- The table that is created when there is none. -/
theorem tableHolds_statsInit {p : AdaptiveStatsTable → Prop} (hinit : p .init) {s : MetaState} (h : TableHolds p s) :
    TableHolds p s.statsInit := by
  intro t ht
  obtain rfl : s.stats.getD .init = t := Option.some.inj ht
  cases hs : s.stats with
  | none => exact hinit
  | some u => exact h u hs

/-- The installation of a wrapper leaves the table, and its timing context has the hash of its profile. -/
theorem install_spec {s : MetaState} (h : Hashed s) (settings : MetaSettings) (c : MetaCompile) (b : MetaBackend) (profile : ExprProfile) :
    (s.metaInstallTimingWrapper settings c b (metaProfileHash profile) profile).stats = s.stats ∧
      Hashed (s.metaInstallTimingWrapper settings c b (metaProfileHash profile) profile) := by
  unfold metaInstallTimingWrapper
  split
  · rename_i ctx t _ _
    split
    · exact ⟨rfl, h⟩
    · split
      · exact ⟨rfl, h⟩
      · refine ⟨rfl, hashed_update h fun tctx hmem => ?_⟩
        rcases List.mem_cons.1 hmem with rfl | hmem
        · rfl
        · exact h ctx tctx hmem
  · exact ⟨rfl, h⟩

/-- A compilation leaves the table, or creates it. -/
theorem compile_spec {p : AdaptiveStatsTable → Prop} (hinit : p .init) {s : MetaState} (htable : TableHolds p s) (h : Hashed s)
    (settings : MetaSettings) (c : MetaCompile) :
    TableHolds p (s.metaCompileExpr settings c) ∧ Hashed (s.metaCompileExpr settings c) := by
  have hcreated : TableHolds p (if settings.adaptive then s.statsInit else s) ∧ Hashed (if settings.adaptive then s.statsInit else s) := by
    split
    · exact ⟨tableHolds_statsInit hinit htable, h⟩
    · exact ⟨htable, h⟩
  unfold metaCompileExpr
  split
  · exact ⟨htable, h⟩
  · dsimp only
    generalize (if settings.adaptive then s.statsInit else s) = u at hcreated ⊢
    split
    · obtain ⟨hstats, hhashed⟩ := install_spec hcreated.2 settings c
        (metaAutoSelectBackend settings c.wideNatts c.available u.stats (metaBuildProfile c.steps) c.rand) (metaBuildProfile c.steps)
      refine ⟨fun t ht => hcreated.1 t ?_, hhashed⟩
      rw [← hstats]
      exact ht
    · exact hcreated

/-- A timed execution leaves the table, or records a timing context with its profile. -/
theorem call_spec {p : AdaptiveStatsTable → Prop} {s : MetaState} (htable : TableHolds p s) (h : Hashed s)
    (hrecord : ∀ t, p t → ∀ (profile : ExprProfile) (b : MetaBackend) (compileNs execNs : BitVec 64) (n : Nat),
      p (t.adaptiveStatsRecord (metaProfileHash profile) b compileNs execNs n (some profile)))
    (settings : MetaSettings) (ctx pos : Nat) (elapsed : BitVec 64) :
    TableHolds p (s.metaAdaptiveTimingWrapper settings ctx pos elapsed) ∧
      Hashed (s.metaAdaptiveTimingWrapper settings ctx pos elapsed) := by
  unfold metaAdaptiveTimingWrapper
  split
  · exact ⟨htable, h⟩
  · rename_i tctx htctx
    have hhash : metaProfileHash tctx.profile = tctx.profileHash := h ctx tctx (List.mem_of_getElem? htctx)
    have hset : ∀ new : AdaptiveTimingCtx, metaProfileHash new.profile = new.profileHash →
        ∀ other ∈ (s.timings ctx).set pos new, metaProfileHash other.profile = other.profileHash := by
      intro new hnew other hother
      rcases List.mem_or_eq_of_mem_set hother with hmem | rfl
      · exact h ctx other hmem
      · exact hnew
    split
    · exact ⟨htable, h⟩
    · dsimp only
      split
      · refine ⟨fun t ht => ?_, hashed_update h (hset _ hhash)⟩
        obtain ⟨u, hu, rfl⟩ := Option.map_eq_some_iff.1 ht
        rw [← hhash]
        exact hrecord u (htable u hu) _ _ _ _ _
      · exact ⟨htable, hashed_update h (hset _ hhash)⟩

/-- A release flushes the timing contexts of a context. -/
theorem release_spec {p : AdaptiveStatsTable → Prop} {s : MetaState} (h : Hashed s) (ctx : Nat)
    (hflush : ∀ t, s.stats = some t → p ((s.timings ctx).foldl flushTiming t)) :
    TableHolds p (s.metaReleaseContext ctx) ∧ Hashed (s.metaReleaseContext ctx) := by
  refine ⟨fun t ht => ?_, hashed_update h fun _ hmem => nomatch hmem⟩
  obtain ⟨u, hu, rfl⟩ := Option.map_eq_some_iff.1 ht
  exact hflush u hu

/-- A reset leaves no entry. -/
theorem reset_spec {p : AdaptiveStatsTable → Prop} (hempty : ∀ t : AdaptiveStatsTable, t.numEntries = 0 → p t) {s : MetaState}
    (h : Hashed s) :
    TableHolds p s.adaptiveStatsReset ∧ Hashed s.adaptiveStatsReset := by
  refine ⟨fun t ht => ?_, h⟩
  obtain rfl := Option.some.inj ht
  exact hempty _ rfl

end MetaStatsAux
end PgJitter
