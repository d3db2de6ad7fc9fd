import PgJitter.CaseDetect

/-!
# Helpers for `CaseDetect.lean`: where a pattern is found

In a step array whose jumps all go forward, both passes go forward from any step, and a pattern that one of them finds begins there,
has a call in its second step, and ends after its third step, which the setup overwrites.
-/

namespace PgJitter
namespace CaseDetectAux

open LeftScan

variable {G : Type} {steps : List (ExprEvalStep G)} {m : EvalState} {fns : CaseFuncs G}

/-! ## Steps -/

/-- A jump is the step that has a target. -/
theorem jumpTarget_eq_some {op : EvalOp G} {t : Nat} (h : op.jumpTarget = some t) : op = .jump t := by
  cases op <;> cases h
  rfl

/-- A conditional jump is the step that has its target. -/
theorem jumpIfNotTrueTarget_eq_some {op : EvalOp G} {t : Nat} (h : op.jumpIfNotTrueTarget = some t) : op = .jumpIfNotTrue t := by
  cases op <;> cases h
  rfl

/-- A call is the step that has a function. -/
theorem strictCall_eq_some {op : EvalOp G} {c : G × Nat} (h : op.strictCall = some c) :
    ∃ nargs, op = .funcExprStrict c.1 c.2 nargs := by
  cases op <;> cases h
  exact ⟨_, rfl⟩

/-- A constant is the step that has a value. -/
theorem constval_eq_some {op : EvalOp G} {c : NullableDatum} (h : op.constval = some c) : op = .const c := by
  cases op <;> cases h
  rfl

/-- A jump goes forward. -/
theorem jump_lt (hforward : ForwardJumps steps) {i t : Nat} (h : opAt steps i = some (.jump t)) : i < t := by
  obtain ⟨step, hstep, hop⟩ := Option.map_eq_some_iff.1 h
  exact hforward i step hstep t (by rw [hop]; exact List.mem_singleton_self t)

/-! ## The first pass -/

/-- The steps of a branch. -/
structure BranchSteps (steps : List (ExprEvalStep G)) (i : Nat) (b : SimpleBranch G) : Prop where
  load : opAt steps i = some b.load
  call : ∃ nargs, opAt steps (i + 1) = some (.funcExprStrict b.fn b.fcinfo nargs)
  next : opAt steps (i + 2) = some (.jumpIfNotTrue b.next)
  result : opAt steps (i + 3) = some (.const b.result)
  done : opAt steps (i + 4) = some (.jump b.done)

/-- What stands at the steps where a branch is read. -/
theorem branchSteps {i : Nat} {b : SimpleBranch G} (h : simpleBranchAt steps i = some b) : BranchSteps steps i b := by
  simp only [simpleBranchAt, Option.bind_eq_bind, Option.bind_eq_some_iff, Option.pure_def, Option.some.injEq] at h
  obtain ⟨load, hload, ⟨fn, fcinfo⟩, ⟨callOp, hcallAt, hcall⟩, next, ⟨nextOp, hnextAt, hnext⟩, result, ⟨resultOp, hresultAt, hresult⟩,
    done, ⟨doneOp, hdoneAt, hdone⟩, rfl⟩ := h
  obtain ⟨nargs, rfl⟩ := strictCall_eq_some hcall
  cases jumpIfNotTrueTarget_eq_some hnext
  cases constval_eq_some hresult
  cases jumpTarget_eq_some hdone
  exact ⟨hload, ⟨nargs, hcallAt⟩, hnextAt, hresultAt, hdoneAt⟩

/-- Where a pattern lies: a call is its second step, and its third step is inside. -/
structure Site (steps : List (ExprEvalStep G)) (p : CasePattern) : Prop where
  call : ∃ fn fcinfo nargs, opAt steps (p.startOpno + 1) = some (.funcExprStrict fn fcinfo nargs)
  long : p.startOpno + 2 < p.elseEndOpno

section Simple

variable {α β : Type} [LinearOrder α] [LinearOrder β] (F : FloatFormats α β) (T : PgText) (fns : CaseFuncs G)
  (steps : List (ExprEvalStep G)) (m : EvalState)

/-- What one turn of the first pass does: it goes on, or finds a pattern whose first branch is there. -/
theorem simpleLook_cases (i : Nat) :
    (∃ next, simpleLook F T fns steps m i = .skip next ∧ i < next) ∨
      ∃ b p, simpleLook F T fns steps m i = .found p b.done ∧ BranchSteps steps i b ∧ p.startOpno = i ∧ p.elseEndOpno = b.done := by
  unfold simpleLook
  split
  · exact .inl ⟨i + 1, rfl, Nat.lt_succ_self i⟩
  · rename_i first ty op hfirst
    obtain ⟨b, hbranch, hchecks⟩ := Option.bind_eq_some_iff.1 hfirst
    obtain ⟨⟨_, _⟩, -, heq⟩ := Option.map_eq_some_iff.1 hchecks
    cases heq
    have hpast : i < i + 5 * (first :: moreBranches fns steps m first steps.length (i + 5)).length := by
      rw [List.length_cons]
      omega
    dsimp only
    split
    · exact .inl ⟨_, rfl, Nat.lt_succ_self i⟩
    · split
      · exact .inl ⟨_, rfl, Nat.lt_succ_self i⟩
      · split
        · exact .inl ⟨_, rfl, hpast⟩
        · split
          · exact .inl ⟨_, rfl, hpast⟩
          · split
            · exact .inl ⟨_, rfl, hpast⟩
            · exact .inr ⟨first, _, rfl, branchSteps hbranch, rfl, rfl⟩

end Simple

/-! ## The second pass -/

/-- A jump that is found stands at or after the step from which it is looked for, and is the first one that counts. -/
theorem findJump_some {counts : Nat → Bool} {left s jump target : Nat} (h : findJump steps counts left s = some (jump, target)) :
    s ≤ jump ∧ opAt steps jump = some (.jump target) ∧ counts target = true ∧
      ∀ n t, s ≤ n → n < jump → opAt steps n = some (.jump t) → counts t = false := by
  induction left generalizing s with
  | zero => cases h
  | succ left ih =>
    rw [findJump] at h
    split at h
    · cases h
    · rename_i op hop
      -- what is found further on, when the step `s` is none that counts
      have hlater : findJump steps counts left (s + 1) = some (jump, target) → (∀ t, op = .jump t → counts t = false) →
          s ≤ jump ∧ opAt steps jump = some (.jump target) ∧ counts target = true ∧
            ∀ n t, s ≤ n → n < jump → opAt steps n = some (.jump t) → counts t = false := by
        intro hfound hhere
        obtain ⟨hle, hat, hcounts, hfirst⟩ := ih hfound
        refine ⟨Nat.le_of_succ_le hle, hat, hcounts, fun n t hn hlt hnt => ?_⟩
        rcases Nat.eq_or_lt_of_le hn with rfl | hn
        · exact hhere t (Option.some.inj (hop.symm.trans hnt))
        · exact hfirst n t hn hlt hnt
      split at h
      · rename_i t ht
        obtain rfl := jumpTarget_eq_some ht
        split at h
        · rename_i hcounts
          cases h
          exact ⟨Nat.le_refl jump, hop, hcounts, fun n t hn hlt => absurd hn (Nat.not_le.2 hlt)⟩
        · rename_i hcounts
          exact hlater h fun t' ht' => by
            obtain rfl := EvalOp.jump.inj ht'
            exact Bool.eq_false_iff.2 hcounts
      · rename_i hnone
        exact hlater h fun t ht => by
          subst ht
          cases hnone

/-- The branches of a range pattern go forward. -/
theorem le_moreRanges (fns : CaseFuncs G) (m : EvalState) (first : RangeWhen G) (done left j : Nat) :
    j ≤ (moreRanges fns steps m first done left j).2 := by
  induction left generalizing j with
  | zero => exact Nat.le_refl j
  | succ left ih =>
    rw [moreRanges]
    split
    · exact Nat.le_refl j
    · split
      · exact Nat.le_refl j
      · split
        · exact Nat.le_refl j
        · rename_i jump _ hjump
          have hle := (findJump_some hjump).1
          have hrest := ih (jump + 1)
          dsimp only
          omega

/-- The steps of a WHEN: two loads, two calls, the end of the first comparison, and the conditional jump. -/
structure WhenSteps (steps : List (ExprEvalStep G)) (i : Nat) (w : RangeWhen G) : Prop where
  load : opAt steps i = some w.load
  call : ∃ nargs, opAt steps (i + 1) = some (.funcExprStrict w.lowFn w.lowFcinfo nargs)
  and : ∃ op, opAt steps (i + 2) = some op ∧ op.isAndStep .first = true
  highLoad : opAt steps (i + 3) = some w.highLoad
  isVar : w.load.isVar = true
  jump : ∃ next, opAt steps (i + 6) = some (.jumpIfNotTrue next)

/-- What stands at the steps where a WHEN is read. -/
theorem whenSteps {i : Nat} {w : RangeWhen G} (h : rangeWhenAt steps i = some w) : WhenSteps steps i w := by
  simp only [rangeWhenAt, Option.bind_eq_bind, Option.bind_eq_some_iff, Option.filter_eq_some_iff, Option.pure_def,
    Option.some.injEq] at h
  obtain ⟨load, ⟨hload, hvar⟩, ⟨fn, fcinfo⟩, ⟨callOp, hcallAt, hcall⟩, andOp, hand, highLoad, ⟨hhighLoad, -⟩, ⟨highFn, highFcinfo⟩, -,
    lastOp, -, next, ⟨jumpOp, hjumpAt, hjump⟩, rfl⟩ := h
  obtain ⟨nargs, rfl⟩ := strictCall_eq_some hcall
  obtain rfl := jumpIfNotTrueTarget_eq_some hjump
  exact ⟨hload, ⟨nargs, hcallAt⟩, ⟨andOp, hand⟩, hhighLoad, hvar, ⟨next, hjumpAt⟩⟩

/-- What one turn of the second pass does: it goes on, or finds a pattern whose first WHEN is there; the end is past the jump, and
the target of one. -/
theorem rangeLook_cases (fns : CaseFuncs G) (m : EvalState) (hforward : ForwardJumps steps) (i : Nat) :
    (∃ next, rangeLook fns steps m i = .skip next ∧ i < next) ∨
      ∃ w p, rangeLook fns steps m i = .found p p.elseEndOpno ∧ WhenSteps steps i w ∧ p.startOpno = i ∧ i + 7 < p.elseEndOpno ∧
        ∃ j, opAt steps j = some (.jump p.elseEndOpno) := by
  unfold rangeLook
  split
  · exact .inl ⟨i + 1, rfl, Nat.lt_succ_self i⟩
  · rename_i first ty inclusive jump done hfirst
    obtain ⟨w, hwhen, hrest⟩ := Option.bind_eq_some_iff.1 hfirst
    obtain ⟨⟨_, _⟩, -, hrest⟩ := Option.bind_eq_some_iff.1 hrest
    obtain ⟨⟨s, t⟩, hjump, heq⟩ := Option.map_eq_some_iff.1 hrest
    cases heq
    obtain ⟨hle, hat, -⟩ := findJump_some hjump
    have hdone := jump_lt hforward hat
    have hmore : jump + 1 ≤ (moreRanges fns steps m first done (maxRangeBranches - 1) (jump + 1)).2 :=
      le_moreRanges fns m first done (maxRangeBranches - 1) (jump + 1)
    have hpast : i < (moreRanges fns steps m first done (maxRangeBranches - 1) (jump + 1)).2 := by omega
    dsimp only
    split
    · exact .inl ⟨_, rfl, hpast⟩
    · split
      · exact .inl ⟨_, rfl, hpast⟩
      · split
        · exact .inl ⟨_, rfl, hpast⟩
        · split
          · exact .inl ⟨_, rfl, hpast⟩
          · split
            · exact .inl ⟨_, rfl, by omega⟩
            · exact .inr ⟨first, _, rfl, whenSteps hwhen, rfl, by dsimp only; omega, jump, hat⟩

/-! ## The patterns -/

section Patterns

variable {α β : Type} [LinearOrder α] [LinearOrder β] {F : FloatFormats α β} {T : PgText}

/-- The first pass goes forward. -/
theorem simple_advances (hforward : ForwardJumps steps) (n : Nat) :
    Advances (simpleLook F T fns steps m) n CasePattern.startOpno CasePattern.elseEndOpno where
  skip i next _ h := by
    rcases simpleLook_cases F T fns steps m i with ⟨k, hk, hlt⟩ | ⟨b, p, hp, -⟩
    · rw [h] at hk
      cases hk
      exact hlt
    · exact nomatch h.symm.trans hp
  found i p next _ h := by
    rcases simpleLook_cases F T fns steps m i with ⟨k, hk, -⟩ | ⟨b, q, hq, hsteps, hstart, hend⟩
    · exact nomatch h.symm.trans hk
    · rw [h] at hq
      cases hq
      have hdone := jump_lt hforward hsteps.done
      exact ⟨hstart, hend, by omega⟩

/-- The second pass goes forward. -/
theorem range_advances (hforward : ForwardJumps steps) (n : Nat) :
    Advances (rangeLook fns steps m) n CasePattern.startOpno CasePattern.elseEndOpno where
  skip i next _ h := by
    rcases rangeLook_cases fns m hforward i with ⟨k, hk, hlt⟩ | ⟨w, p, hp, -⟩
    · rw [h] at hk
      cases hk
      exact hlt
    · exact nomatch h.symm.trans hp
  found i p next _ h := by
    rcases rangeLook_cases fns m hforward i with ⟨k, hk, -⟩ | ⟨w, q, hq, -, hstart, hlong, -⟩
    · exact nomatch h.symm.trans hk
    · rw [h] at hq
      cases hq
      exact ⟨hstart, rfl, by omega⟩

/-- A pattern of the first pass lies where its first branch is, whose conditional jump is the step that the setup overwrites. -/
theorem simple_site (hforward : ForwardJumps steps) {p : CasePattern} (hp : p ∈ simplePatterns F T fns steps m) :
    Site steps p ∧ ∃ t, opAt steps (p.startOpno + 2) = some (.jumpIfNotTrue t) := by
  have hlook := (mem_scan (simple_advances hforward _) hp).2.2
  rcases simpleLook_cases F T fns steps m p.startOpno with
    ⟨k, hk, -⟩ | ⟨b, q, hq, hsteps, -, hend⟩
  · exact nomatch hlook.symm.trans hk
  · obtain ⟨rfl, -⟩ := Look.found.inj (hlook.symm.trans hq)
    obtain ⟨nargs, hcall⟩ := hsteps.call
    have hdone := jump_lt hforward hsteps.done
    exact ⟨⟨⟨b.fn, b.fcinfo, nargs, hcall⟩, by omega⟩, b.next, hsteps.next⟩

/-- A pattern of the second pass lies where its first WHEN is, and the setup overwrites the step between the two comparisons. -/
theorem range_site (hforward : ForwardJumps steps) {p : CasePattern} (hp : p ∈ rangePatterns F T fns steps m) :
    Site steps p ∧ ∃ op, opAt steps (p.startOpno + 2) = some op ∧ op.isAndStep .first = true := by
  have hlook := (mem_scan (range_advances hforward _) hp).2.2
  rcases rangeLook_cases fns m hforward p.startOpno with ⟨k, hk, -⟩ | ⟨w, q, hq, hsteps, -, hlong, -⟩
  · exact nomatch hlook.symm.trans hk
  · rw [hlook] at hq
    cases hq
    obtain ⟨nargs, hcall⟩ := hsteps.call
    exact ⟨⟨⟨w.lowFn, w.lowFcinfo, nargs, hcall⟩, by omega⟩, hsteps.and⟩

/-- Where a pattern lies. -/
theorem pattern_site (hforward : ForwardJumps steps) {p : CasePattern} (hp : p ∈ detectCaseBsearch F T fns steps m) : Site steps p := by
  rcases List.mem_append.1 hp with hp | hp
  · exact (simple_site hforward hp).1
  · exact (range_site hforward hp).1

/-- A pattern ends where a jump goes. -/
theorem pattern_end (hforward : ForwardJumps steps) {p : CasePattern} (hp : p ∈ detectCaseBsearch F T fns steps m) :
    ∃ j, opAt steps j = some (.jump p.elseEndOpno) := by
  rcases List.mem_append.1 hp with hp | hp
  · have hlook := (mem_scan (simple_advances hforward _) hp).2.2
    rcases simpleLook_cases F T fns steps m p.startOpno with ⟨k, hk, -⟩ | ⟨b, q, hq, hsteps, -, hend⟩
    · exact nomatch hlook.symm.trans hk
    · obtain ⟨rfl, hdone⟩ := Look.found.inj (hlook.symm.trans hq)
      exact ⟨_, hdone ▸ hsteps.done⟩
  · have hlook := (mem_scan (range_advances hforward _) hp).2.2
    rcases rangeLook_cases fns m hforward p.startOpno with ⟨k, hk, -⟩ | ⟨w, q, hq, -, -, -, hend⟩
    · exact nomatch hlook.symm.trans hk
    · rw [hlook] at hq
      cases hq
      exact hend

/-- The patterns of the first pass follow one another. -/
theorem simple_chained (hforward : ForwardJumps steps) :
    Chained CasePattern.startOpno CasePattern.elseEndOpno (simplePatterns F T fns steps m) :=
  scan_chained (simple_advances hforward _) _ _ _

/-- The patterns of the second pass follow one another. -/
theorem range_chained (hforward : ForwardJumps steps) :
    Chained CasePattern.startOpno CasePattern.elseEndOpno (rangePatterns F T fns steps m) :=
  scan_chained (range_advances hforward _) _ _ _

/-- No two patterns begin at one step: a third step is not a conditional jump and the end of a comparison. -/
theorem starts_ne (hforward : ForwardJumps steps) :
    (detectCaseBsearch F T fns steps m).Pairwise fun p q => p.startOpno ≠ q.startOpno := by
  have hne : ∀ l : List CasePattern, (∀ p ∈ l, Site steps p) → Chained CasePattern.startOpno CasePattern.elseEndOpno l →
      l.Pairwise fun p q => p.startOpno ≠ q.startOpno := fun l hsite hchained =>
    hchained.imp_of_mem fun hp _ hle => by
      have hlong := (hsite _ hp).long
      omega
  refine List.pairwise_append.2 ⟨?_, ?_, fun p hp q hq heq => ?_⟩
  · exact hne _ (fun p hp => (simple_site hforward hp).1) (simple_chained hforward)
  · exact hne _ (fun p hp => (range_site hforward hp).1) (range_chained hforward)
  · obtain ⟨t, hjump⟩ := (simple_site hforward hp).2
    obtain ⟨op, hop, hand⟩ := (range_site hforward hq).2
    rw [heq, hop] at hjump
    cases hjump
    exact nomatch hand

end Patterns

end CaseDetectAux
end PgJitter
