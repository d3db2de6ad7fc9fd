import PgJitter.Lemmas.DeformCache

/-!
# The deform that a dispatch runs, over whole runs

As long as no remembered address is given to other columns and no checksum collides, every dispatch runs a function made for its
slot. Neither fast entries nor the shared function compare more than the address and the type when they meet a descriptor again,
so a descriptor created in the place of another one is deformed as that one was.
-/

namespace PgJitter

open DeformCacheAux DeformCacheState

namespace DeformCacheAux

theorem remembers_init : Remembers init :=
  ⟨fun _ h => (nomatch h), fun _ h => (nomatch h), fun _ h => (nomatch h)⟩

/-- A new descriptor that keeps the columns of what is remembered of its address. -/
theorem Remembers.create {s : DeformCacheState} (h : Remembers s) {hash : AttrsHash} {addr : Nat} {d : DescriptorData}
    (hkeeps : KeepsColumns hash s (.create addr d)) :
    Remembers { s with descs := Function.update s.descs addr (some d) } := by
  obtain ⟨hfast, hshared⟩ := hkeeps
  refine ⟨?_, h.cache, ?_⟩
  · intro fe hfe
    obtain ⟨hn, ho, hlayout⟩ := h.fast fe hfe
    refine ⟨hn, ho, ?_⟩
    intro d' hd' htype hmod
    by_cases haddr : fe.desc = addr
    · have hd : Function.update s.descs addr (some d) fe.desc = some d := by rw [haddr, Function.update_self]
      obtain rfl := Option.some.inj (hd'.symm.trans hd)
      exact hfast fe hfe haddr htype hmod
    · exact hlayout d' (by simpa [haddr] using hd') htype hmod
  · intro sh hsh
    have hright := h.shared sh hsh
    refine ⟨hright.natts, hright.kind, hright.valid, hright.validOps, ?_⟩
    intro a d' ha hd' htype
    by_cases haddr : a = addr
    · have hd : Function.update s.descs addr (some d) a = some d := by rw [haddr, Function.update_self]
      obtain rfl := Option.some.inj (hd'.symm.trans hd)
      exact hshared sh hsh (haddr ▸ ha) htype
    · exact hright.validDesc a d' ha (by simpa [haddr] using hd') htype

/-- A descriptor that is gone leaves nothing to be wrong about. -/
theorem Remembers.free {s : DeformCacheState} (h : Remembers s) (addr : Nat) :
    Remembers { s with descs := Function.update s.descs addr none } := by
  have hlive {a : Nat} {d : DescriptorData} (hd : Function.update s.descs addr none a = some d) : s.descs a = some d := by
    by_cases haddr : a = addr
    · subst haddr
      rw [Function.update_self] at hd
      nomatch hd
    · simpa [haddr] using hd
  refine ⟨?_, h.cache, ?_⟩
  · intro fe hfe
    obtain ⟨hn, ho, hlayout⟩ := h.fast fe hfe
    exact ⟨hn, ho, fun d hd => hlayout d (hlive hd)⟩
  · intro sh hsh
    have hright := h.shared sh hsh
    exact ⟨hright.natts, hright.kind, hright.valid, hright.validOps, fun a d ha hd => hright.validDesc a d ha (hlive hd)⟩

/-- Every step that keeps the columns keeps the invariant. -/
theorem remembers_next {limits : DeformLimits} {hash : AttrsHash} {s t : DeformCacheState} {event : DeformEvent}
    (h : Remembers s) (hkeeps : KeepsColumns hash s event) (hnext : s.next limits hash event = some t) : Remembers t := by
  cases event with
  | create addr d =>
    simp only [DeformCacheState.next] at hnext
    split at hnext
    · obtain rfl := Option.some.inj hnext
      exact h.create hkeeps
    · nomatch hnext
  | free addr =>
    obtain ⟨d, -, rfl⟩ := Option.map_eq_some_iff.mp hnext
    exact h.free addr
  | dispatch addr ops natts cacheOn memOk =>
    obtain ⟨d, hd, rfl⟩ := Option.map_eq_some_iff.mp hnext
    exact (dispatch_right h limits hash hd (fun sh hsh => hkeeps d sh hd hsh) cacheOn memOk).1
  | resetFastpath =>
    obtain rfl := Option.some.inj hnext
    exact ⟨fun _ hfe => (nomatch hfe), h.cache, h.shared⟩
  | compileShared addr ops natts ok =>
    obtain ⟨d, hd, rfl⟩ := Option.map_eq_some_iff.mp hnext
    exact h.compileShared hash ops natts hd ok
  | attachShared leader ops natts ok =>
    obtain rfl := Option.some.inj hnext
    exact h.attachShared hash leader ops natts ok
  | resetShared =>
    obtain rfl := Option.some.inj hnext
    exact ⟨h.fast, h.cache, fun _ hsh => (nomatch hsh)⟩

/-- And so does every run of such steps. -/
theorem remembers_reached {limits : DeformLimits} {hash : AttrsHash} {s : DeformCacheState}
    (hs : Reached limits hash (KeepsColumns hash) s) : Remembers s := by
  induction hs with
  | init => exact remembers_init
  | step _ _ hkeeps hnext ih => exact remembers_next ih hkeeps hnext

end DeformCacheAux

/-- In every run whose steps keep the columns of what is remembered, every dispatch runs a function compiled for its number of
columns, its kind of slot and the columns of its descriptor. -/
theorem dispatch_right_of_columns_kept (limits : DeformLimits) (hash : AttrsHash) :
    DispatchesRight limits hash (KeepsColumns hash) := by
  intro s hs addr d ops natts cacheOn memOk fn hkeeps hd hfn
  have hright := dispatch_right (remembers_reached hs) limits hash hd (fun sh hsh => hkeeps d sh hd hsh) cacheOn memOk
  exact hright.2.2 fn hfn

namespace DeformCacheWitness

/-- A column of type `int4`. -/
def int4Column : CompactAttribute := ⟨4, true, 4, true, false, false, typeValid_int4⟩

/-- A column of type `int8`. -/
def int8Column : CompactAttribute := ⟨8, true, 8, true, false, false, typeValid_int8⟩

/-- An anonymous record of one column. -/
def recordOf (att : CompactAttribute) : DescriptorData := ⟨2249, -1, ⟨1, fun _ => att, fun _ => none⟩, fun _ => []⟩

def limits : DeformLimits := ⟨1664, 117⟩

/-- The checksum of the one column, with the bytes of its attribute as they are in memory. -/
def columnHash : AttrsHash := fun _ => 0x6d6f7009#32

/-- A descriptor that lives on is dispatched twice; the second time its fast entry is found. -/
theorem same_descriptor_runs_its_columns : ∃ s fn, Reached limits columnHash (KeepsColumns columnHash) s ∧
    s.fast.map (·.desc) = [0] ∧ (s.dispatch limits columnHash 0 (recordOf int4Column) .minimalTuple 1 true true).2 = some fn ∧
    fn.layout = [int4Column] := by
  have start : Reached limits columnHash (KeepsColumns columnHash) init := .init
  have h₁ := Reached.step (.create 0 (recordOf int4Column)) start ⟨fun _ h => (nomatch h), fun _ h => (nomatch h)⟩ rfl
  have h₂ := Reached.step (.dispatch 0 .minimalTuple 1 true true) h₁ (fun _ _ _ h => (nomatch h)) rfl
  have hright := dispatch_right_of_columns_kept limits columnHash _ h₂ 0 _ .minimalTuple 1 true true _
    (fun _ _ _ h => (nomatch h)) rfl rfl
  exact ⟨_, _, h₂, rfl, rfl, hright.2.2⟩

/-- A descriptor of one `int4` has been dispatched and freed, and its address given to one of one `int8`. -/
theorem reached_reused (hash : AttrsHash) : ∃ s, Reached limits hash (fun _ _ => True) s ∧
    s.descs 0 = some (recordOf int8Column) ∧
    (s.dispatch limits hash 0 (recordOf int8Column) .minimalTuple 1 true true).2.map (·.layout) = some [int4Column] := by
  have start : Reached limits hash (fun _ _ => True) init := .init
  have h₁ := Reached.step (.create 0 (recordOf int4Column)) start trivial rfl
  have h₂ := Reached.step (.dispatch 0 .minimalTuple 1 true true) h₁ trivial rfl
  have h₃ := Reached.step (.free 0) h₂ trivial rfl
  have h₄ := Reached.step (.create 0 (recordOf int8Column)) h₃ trivial rfl
  exact ⟨_, h₄, rfl, rfl⟩

/-- So the function that runs is the old one, whatever the checksum. -/
theorem reused_address_runs_old_columns :
    ¬ ∃ hash : AttrsHash, DispatchesRight limits hash (fun _ _ => True) := by
  rintro ⟨hash, hright⟩
  obtain ⟨s, hs, hd, hran⟩ := reached_reused hash
  obtain ⟨fn, hfn, hlayout⟩ := Option.map_eq_some_iff.mp hran
  have hnew := (hright s hs 0 _ .minimalTuple 1 true true fn trivial hd hfn).2.2
  rw [hlayout] at hnew
  exact absurd hnew (by decide)

end DeformCacheWitness

end PgJitter
