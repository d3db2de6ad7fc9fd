import PgJitter.Lemmas.MetaStats

/-!
# The table of profiles over whole runs

Its hashes are different and its entries fit, whatever happens. The profiles have the hashes of their entries as long as no release makes an
entry, for that entry would get the empty profile.
-/

namespace PgJitter

open MetaStatsAux AdaptiveStatsTable MetaState

namespace MetaStatsAux

/-- Every event keeps the table keyed. -/
theorem keyed_step {s : MetaState} (htable : TableHolds Keyed s) (h : Hashed s) (event : MetaEvent) :
    TableHolds Keyed (s.step event) ∧ Hashed (s.step event) := by
  cases event with
  | compile settings c => exact compile_spec keyed_init htable h settings c
  | call settings ctx pos elapsed =>
    exact call_spec htable h (fun t ht profile b compileNs execNs n => keyed_record ht _ b compileNs execNs n _) settings ctx pos elapsed
  | release ctx => exact release_spec h ctx fun t ht => keyed_flushes (htable t ht) _
  | reset =>
    refine reset_spec (fun t ht => ⟨fun i j hi => ?_, ?_⟩) h
    · rw [ht] at hi
      exact absurd hi (Nat.not_lt_zero i)
    · rw [ht]
      exact Nat.zero_le _

/-- An event that makes no entry on a release keeps the profiles. -/
theorem match_step {s : MetaState} (htable : TableHolds ProfilesMatch s) (h : Hashed s) {event : MetaEvent}
    (hflush : s.ReleaseFlushable event) :
    TableHolds ProfilesMatch (s.step event) := by
  cases event with
  | compile settings c => exact (compile_spec match_init htable h settings c).1
  | call settings ctx pos elapsed =>
    refine (call_spec htable h (fun t ht profile b compileNs execNs n => ?_) settings ctx pos elapsed).1
    rcases record_cases t (metaProfileHash profile) b compileNs execNs n (some profile) with hsame | happ
    · exact hsame.profilesMatch ht
    · exact happ.profilesMatch rfl ht
  | release ctx => exact (release_spec h ctx fun t ht => (sameProfiles_flushes (hflush t ht)).profilesMatch (htable t ht)).1
  | reset =>
    refine (reset_spec (fun t ht i hi => ?_) h).1
    rw [ht] at hi
    exact absurd hi (Nat.not_lt_zero i)

/-- Every run keeps the table keyed. -/
theorem keyed_run {s : MetaState} (htable : TableHolds Keyed s) (h : Hashed s) (events : List MetaEvent) :
    TableHolds Keyed (s.run events) := by
  induction events generalizing s with
  | nil => exact htable
  | cons event events ih =>
    obtain ⟨htable', h'⟩ := keyed_step htable h event
    exact ih htable' h'

/-- A run in which no release makes an entry keeps the profiles. -/
theorem match_run {s : MetaState} (hkeyed : TableHolds Keyed s) (htable : TableHolds ProfilesMatch s) (h : Hashed s)
    {events : List MetaEvent}
    (hflush : s.RunFlushable events) : TableHolds ProfilesMatch (s.run events) := by
  induction events generalizing s with
  | nil => exact htable
  | cons event events ih =>
    obtain ⟨hkeyed', h'⟩ := keyed_step hkeyed h event
    exact ih hkeyed' (match_step htable h hflush.1) h' hflush.2

end MetaStatsAux

/-- In every state of every run the hashes of the entries are different and the entries fit; and in every state of a run in which no release
makes an entry, the profile of every entry has the hash of the entry. -/
theorem adaptive_stats_sound (events : List MetaEvent) :
    (∀ t, (init.run events).stats = some t → t.Keyed) ∧
      (init.RunFlushable events → ∀ t, (init.run events).stats = some t → t.ProfilesMatch) := by
  have hkeyed : TableHolds Keyed init := fun _ ht => nomatch ht
  have hmatch : TableHolds ProfilesMatch init := fun _ ht => nomatch ht
  have hhashed : Hashed init := fun _ _ hmem => nomatch hmem
  exact ⟨keyed_run hkeyed hhashed events, fun hflush => match_run hkeyed hmatch hhashed hflush⟩

namespace MetaStatsWitness

/-- The least number of samples, and no exploration. -/
def autoSettings : MetaSettings := ⟨none, true, 4, fun _ => false, by decide⟩

/-- The steps of a qualification such as `a < 10`, which sljit compiles: `EEOP_SCAN_FETCHSOME`, `EEOP_SCAN_VAR`, `EEOP_FUNCEXPR_STRICT` of
`int4lt`, `EEOP_QUAL` and `EEOP_DONE`. -/
def qualSteps : List ProfiledStep := [.fetchsome 1, .other, .funcexpr, .qual, .other]

/-- The qualification, where only sljit is installed. -/
def qualCompile : MetaCompile :=
  { ctx := some 0, steps := qualSteps, wideNatts := 20, available := fun b => b == .sljit, loads := fun b => b == .sljit, rand := 1,
    ok := true, evalfunc := true, compileNs := 1000 }

/-- It is compiled and called once, and its context is released. -/
def releasedEarly : List MetaEvent := [.compile autoSettings qualCompile, .call autoSettings 0 0 100, .release 0]

/-- The table then has an entry with the empty profile, which does not have the hash of the entry. -/
theorem early_release_loses_profile : ∃ t, (init.run releasedEarly).stats = some t ∧ t.numEntries = 1 ∧ (t.entries 0).profile = .empty ∧
    ¬ t.ProfilesMatch := by
  refine ⟨_, rfl, rfl, rfl, fun hmatch => ?_⟩
  exact absurd (hmatch 0 (by decide)) (by decide +kernel)

/-- It is compiled and called four times, and its context is released. -/
def sampled : List MetaEvent :=
  [.compile autoSettings qualCompile, .call autoSettings 0 0 100, .call autoSettings 0 0 100, .call autoSettings 0 0 100,
    .call autoSettings 0 0 100, .release 0]

/-- The release has nothing to flush. -/
theorem sampled_flushable : init.RunFlushable sampled := by
  refine ⟨trivial, trivial, trivial, trivial, trivial, fun t _ tctx hmem hdone => ?_, trivial⟩
  obtain rfl := List.mem_singleton.1 hmem
  nomatch hdone

/-- The table then has an entry with the profile. -/
theorem sample_keeps_profile : ∃ t, (init.run sampled).stats = some t ∧ t.numEntries = 1 ∧ t.Keyed ∧ t.ProfilesMatch := by
  obtain ⟨hkeyed, hmatch⟩ := adaptive_stats_sound sampled
  exact ⟨_, rfl, rfl, hkeyed _ rfl, hmatch sampled_flushable _ rfl⟩

end MetaStatsWitness

end PgJitter
