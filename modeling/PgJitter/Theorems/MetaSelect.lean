import PgJitter.Theorems.MetaStats
import PgJitter.Lemmas.MetaSelect

/-!
# What an exploiting selection returns

The measured backend with the smallest total cost over the calls that each was measured with. Where the numbers of calls differ this can
be a backend that takes longer to compile and longer per call than another one.
-/

namespace PgJitter

open MetaStatsAux AdaptiveStatsEntry AdaptiveStatsTable MetaState MetaSelectAux

namespace MetaSelectAux

variable {e : AdaptiveStatsEntry} {samples : Nat}

/-- There are two measured backends when one besides sljit is measured. -/
theorem two_measured_iff (hsljit : e.measured samples .sljit = true) :
    ¬ (MetaBackend.all.filter (e.measured samples)).length < 2 ↔ ∃ b, b ≠ .sljit ∧ e.measured samples b = true := by
  constructor
  · intro htwo
    by_contra hnone
    simp only [not_exists, not_and, Bool.not_eq_true] at hnone
    refine htwo ?_
    simp [MetaBackend.all, hsljit, hnone .asmjit (by decide), hnone .mir (by decide)]
  · rintro ⟨b, hne, hb⟩
    cases b with
    | sljit => exact absurd rfl hne
    | asmjit =>
      cases hmir : e.measured samples .mir <;> simp [MetaBackend.all, hsljit, hb, hmir]
    | mir =>
      cases hasmjit : e.measured samples .asmjit <;> simp [MetaBackend.all, hsljit, hb, hasmjit]

/-- A backend that was never called is not measured. -/
theorem pickBackend_not_measured (hsamples : 0 < samples) {available : MetaBackend → Bool} {n : Nat} {r : MetaBackend}
    (hr : pickBackend (MetaBackend.all.filter fun b => e.callCount b == 0 && available b) n = some r) : e.measured samples r = false := by
  have hmem := (List.mem_filter.1 (List.mem_of_getElem? hr)).2
  have hzero : e.callCount r = 0 := by
    simp only [Bool.and_eq_true, beq_iff_eq] at hmem
    exact hmem.1
  simp [measured, hzero, Nat.ne_of_gt hsamples]

end MetaSelectAux

/-- When no exploration is drawn, no measured backend that is returned is dominated by a measured one exactly when, in the entry of the
profile and where sljit and another backend are measured, every measured backend that is dominated by one with more calls, or with times
that a `double` does not hold, has a measured one that is cheaper. -/
theorem exploit_not_dominated_iff (settings : MetaSettings) (available : MetaBackend → Bool) (stats : Option AdaptiveStatsTable)
    (profileHash rand : BitVec 32) (hdraw : settings.belowEpsilon (rand.toNat % 10000) = false) :
    (∀ e, adaptiveEntry stats profileHash = some e → ∀ r, adaptiveSelect settings available stats profileHash rand = some r →
      e.measured settings.adaptiveSamples r = true → ∀ b, e.measured settings.adaptiveSamples b = true → ¬ e.Dominates b r) ↔
    (∀ e, adaptiveEntry stats profileHash = some e → e.measured settings.adaptiveSamples .sljit = true →
      (∃ b, b ≠ .sljit ∧ e.measured settings.adaptiveSamples b = true) →
      ∀ a b, e.measured settings.adaptiveSamples a = true → e.measured settings.adaptiveSamples b = true →
        (e.callCount a).toNat < (e.callCount b).toNat ∨ 2 ^ 53 ≤ (e.compileNs a).toNat + (e.execNs a).toNat →
        e.Dominates b a → ∃ c, e.measured settings.adaptiveSamples c = true ∧ e.Cheaper c a) := by
  have hpos : 0 < settings.adaptiveSamples := Nat.lt_of_lt_of_le (by decide) settings.samplesRange.1
  refine forall_congr' fun e => forall_congr' fun he => ?_
  obtain ⟨t, rfl, hslot⟩ := Option.bind_eq_some_iff.1 he
  obtain ⟨slot, hlookup, rfl⟩ := Option.map_eq_some_iff.1 hslot
  simp only [adaptiveSelect, hlookup, hdraw, Bool.false_eq_true, if_false]
  generalize t.entries slot = e
  by_cases hshort : e.measured settings.adaptiveSamples .sljit = false ∨
      (MetaBackend.all.filter (e.measured settings.adaptiveSamples)).length < 2
  · -- nothing is exploited: what is returned was never called
    rw [if_pos hshort]
    refine iff_of_true (fun r hr hmr => ?_) fun hsljit hother => ?_
    · split at hr
      · rw [pickBackend_not_measured hpos hr] at hmr
        nomatch hmr
      · nomatch hr
    · rcases hshort with hfalse | hlt
      · rw [hsljit] at hfalse
        nomatch hfalse
      · exact absurd hlt ((two_measured_iff hsljit).2 hother)
  · rw [if_neg hshort]
    simp only [not_or, Bool.not_eq_false] at hshort
    obtain ⟨hsljit, htwo⟩ := hshort
    constructor
    · intro h _ _ a b ha hb _ hdom
      by_contra hnone
      have hbest := (bestLoop_eq_iff hsljit ha).2 fun c hc hcheaper => hnone ⟨c, hc, hcheaper⟩
      exact h a (congrArg some hbest) ha b hb hdom
    · intro h r hr hmr b hb hdom
      have hcheapest := (bestLoop_eq_iff hsljit hmr).1 (Option.some.inj hr)
      by_cases hmore : (e.callCount r).toNat < (e.callCount b).toNat ∨ 2 ^ 53 ≤ (e.compileNs r).toNat + (e.execNs r).toNat
      · obtain ⟨c, hc, hcheaper⟩ := h hsljit ((two_measured_iff hsljit).1 htwo) r b hmr hb hmore hdom
        exact hcheapest c hc hcheaper
      · simp only [not_or, Nat.not_lt, Nat.not_le] at hmore
        have hcalled : 0 < (e.callCount b).toNat := Nat.lt_of_lt_of_le hpos (of_decide_eq_true hb)
        exact hcheapest b hb (cheaper_of_dominates hcalled hmore.1 hmore.2 hdom)

namespace MetaSelectWitness

open MetaStatsWitness

/-- The qualification, where sljit and asmjit are installed; it takes 10 ns to compile. -/
def qual : MetaCompile :=
  { ctx := some 0, steps := qualSteps, wideNatts := 20, available := fun b => b != .mir, loads := fun b => b != .mir, rand := 1,
    ok := true, evalfunc := true, compileNs := 10 }

/-- The same, where an exploration is drawn and it takes 30 ns. -/
def exploredQual : MetaCompile := { qual with rand := 0, compileNs := 30 }

/-- Four calls through a wrapper. -/
def calls (pos : Nat) (elapsed : BitVec 64) : List MetaEvent := List.replicate 4 (.call autoSettings 0 pos elapsed)

/-- Two expressions of one profile are compiled by sljit before either has its samples, and called at 100 ns a call; then a third one is
compiled by asmjit, and called at 150 ns a call. -/
def twoWrappers : List MetaEvent :=
  [.compile autoSettings qual, .compile autoSettings qual] ++ calls 0 100 ++ calls 1 100 ++
    [.compile autoSettings exploredQual] ++ calls 0 150

/-- The same with one expression of sljit. -/
def oneWrapper : List MetaEvent :=
  [.compile autoSettings qual] ++ calls 0 100 ++ [.compile autoSettings exploredQual] ++ calls 0 150

/-- The statistics of a run for the profile of the expression. -/
def statsOf (events : List MetaEvent) : Option AdaptiveStatsTable := (init.run events).stats

/-- The hash of the profile. -/
def qualHash : BitVec 32 := metaProfileHash (metaBuildProfile qual.steps)

/-- The entry of the profile after a run. -/
def entryOf (events : List MetaEvent) : AdaptiveStatsEntry := (adaptiveEntry (statsOf events) qualHash).getD .zero

/-- There is one. -/
theorem adaptiveEntry_eq {events : List MetaEvent} (h : (adaptiveEntry (statsOf events) qualHash).isSome = true) :
    adaptiveEntry (statsOf events) qualHash = some (entryOf events) := by
  obtain ⟨e, he⟩ := Option.isSome_iff_exists.1 h
  rw [entryOf, he, Option.getD_some]

/-- The selection is asmjit, though sljit took 20 ns to compile to its 30, and 100 ns a call to its 150. -/
theorem slower_backend_selected : adaptiveEntry (statsOf twoWrappers) qualHash = some (entryOf twoWrappers) ∧
    adaptiveSelect autoSettings qual.available (statsOf twoWrappers) qualHash 1 = some .asmjit ∧
    (entryOf twoWrappers).measured 4 .asmjit = true ∧ (entryOf twoWrappers).measured 4 .sljit = true ∧
    (entryOf twoWrappers).Dominates .sljit .asmjit := by
  refine ⟨adaptiveEntry_eq (by decide +kernel), by decide +kernel, by decide +kernel, by decide +kernel, by decide +kernel, ?_⟩
  rw [nsPerCall, nsPerCall]
  decide +kernel

/-- With as many calls of the one as of the other the selection is sljit, and asmjit does not dominate it. -/
theorem same_calls_selected : adaptiveEntry (statsOf oneWrapper) qualHash = some (entryOf oneWrapper) ∧
    adaptiveSelect autoSettings qual.available (statsOf oneWrapper) qualHash 1 = some .sljit ∧
    ¬ (entryOf oneWrapper).Dominates .asmjit .sljit := by
  have hentry : adaptiveEntry (statsOf oneWrapper) qualHash = some (entryOf oneWrapper) := adaptiveEntry_eq (by decide +kernel)
  have hselect : adaptiveSelect autoSettings qual.available (statsOf oneWrapper) qualHash 1 = some .sljit := by decide +kernel
  have hcalls : ∀ b, (entryOf oneWrapper).measured 4 b = true → ((entryOf oneWrapper).callCount b).toNat = 4 := by
    intro b
    cases b <;> decide +kernel
  have hsum : ∀ b, ((entryOf oneWrapper).compileNs b).toNat + ((entryOf oneWrapper).execNs b).toNat < 2 ^ 53 := by
    intro b
    cases b <;> decide +kernel
  have hnone := (exploit_not_dominated_iff autoSettings qual.available (statsOf oneWrapper) qualHash 1 rfl).2 ?_
  · exact ⟨hentry, hselect, hnone _ hentry .sljit hselect (by decide +kernel) .asmjit (by decide +kernel)⟩
  · intro e he _ _ a b ha hb hmore
    obtain rfl := Option.some.inj (hentry.symm.trans he)
    rcases hmore with hlt | hge
    · rw [hcalls a ha, hcalls b hb] at hlt
      exact absurd hlt (Nat.lt_irrefl 4)
    · exact absurd (hsum a) (Nat.not_lt.2 hge)

end MetaSelectWitness

end PgJitter
