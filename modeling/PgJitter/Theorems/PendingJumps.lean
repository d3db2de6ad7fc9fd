import PgJitter.Lemmas.PendingJumps
import PgJitter.Theorems.CaseEmit

/-!
# The recorded jumps of an expression

The array has room for four entries a step, but a strict function and a strict aggregate check take one for each argument when they
have more than four, and a constant argument has no step of its own. So the entries fit exactly when the steps that are emitted ask
for no more, and whether they do depends on the numbers of arguments. The jumps that are recorded are all bound.
-/

namespace PgJitter

open LeftScan CaseDetectAux CaseEmitAux PendingJumpsAux

variable {G : Type} {α β : Type} [LinearOrder α] [LinearOrder β] (F : FloatFormats α β) (T : PgText) (fns : CaseFuncs G)
  (others : Nat → OtherOp) (desc : Nat → Datum) (steps : List (ExprEvalStep G)) (m : EvalState)

namespace PendingJumpsAux

variable {F T fns others desc steps m}

/-- The third step of a pattern after the setup. -/
theorem opAt_preScan_third (desc : Nat → Datum) (hforward : ForwardJumps steps) {pk : CasePattern × Nat}
    (hpk : pk ∈ (detectCaseBsearch F T fns steps m).zipIdx) :
    opAt (caseBsearchPreScan F T fns desc steps m) (pk.1.startOpno + 2) =
      (opAt steps (pk.1.startOpno + 2)).map fun op => op.setConstvalValue (desc pk.2) := by
  have hne : ((detectCaseBsearch F T fns steps m).zipIdx.map Prod.fst).Pairwise fun p q => p.startOpno ≠ q.startOpno := by
    rw [List.zipIdx_map_fst]
    exact starts_ne hforward
  rw [List.pairwise_map] at hne
  rw [preScan_eq, setup_eq_stores, opAt, opAt, stores_at hne hpk, Option.map_map, Option.map_map]
  rfl

/-- Any step after the setup: it is as it was, or it is the third step of a pattern. -/
theorem opAt_preScan (F : FloatFormats α β) (T : PgText) (fns : CaseFuncs G) (desc : Nat → Datum) (steps : List (ExprEvalStep G))
    (m : EvalState) (i : Nat) : opAt (caseBsearchPreScan F T fns desc steps m) i = opAt steps i ∨
      ∃ pk ∈ (detectCaseBsearch F T fns steps m).zipIdx, i = pk.1.startOpno + 2 := by
  by_cases hi : ∃ pk ∈ (detectCaseBsearch F T fns steps m).zipIdx, i = pk.1.startOpno + 2
  · exact Or.inr hi
  · refine Or.inl ?_
    rw [preScan_eq, setup_eq_stores, opAt, opAt, stores_other fun pk hpk heq => hi ⟨pk, hpk, heq.symm⟩]

theorem length_preScan : (caseBsearchPreScan F T fns desc steps m).length = steps.length := by
  rw [preScan_eq, setup_eq_stores, length_stores]

/-- A target that is a step. -/
theorem isStep_natCast {stepsLen t : Nat} : isStep stepsLen (t : ℤ) = true ↔ t < stepsLen := by
  simp [isStep]

/-- The targets that an opcode of the array leaves in its entries are steps or marked. -/
theorem opTargets_toStep (hplan : PlanJumps others steps) {i : Nat} {op : EvalOp G} (hop : opAt steps i = some op) :
    ∀ t ∈ opTargets others steps.length op, t = -2 ∨ isStep steps.length t = true := by
  have hstep := hplan.toStep i op hop
  have hnat : ∀ t ∈ (op.targets.map Nat.cast : List ℤ), t = -2 ∨ isStep steps.length t = true := by
    intro t ht
    obtain ⟨k, hk, rfl⟩ := List.mem_map.1 ht
    exact Or.inr (isStep_natCast.2 (hstep k hk))
  cases op with
  | funcExprStrict fn fcinfo nargs => exact fun t ht => Or.inl (List.eq_of_mem_replicate ht)
  | jumpIfNotTrue k =>
    intro t ht
    exact hnat t (by simpa [opTargets, EvalOp.targets] using ht)
  | other n targets =>
    have hothers := hplan.others i n targets hop
    intro t ht
    rw [opTargets] at ht
    cases hn : others n with
    | aggStrictInputCheck nargs jumpnull =>
      rw [hn] at ht hothers
      exact Or.inr (List.eq_of_mem_replicate ht ▸ hothers jumpnull List.mem_cons_self)
    | hashdatumStrict jumpdone =>
      rw [hn] at ht hothers
      rcases List.mem_cons.1 ht with rfl | ht
      · exact Or.inl rfl
      · exact Or.inr (hothers t ht)
    | rowcompareStep fnStrict jumpnull jumpdone =>
      rw [hn] at ht hothers
      refine Or.inr (hothers t ?_)
      cases fnStrict <;> simpa [otherTargets, OtherOp.targets] using ht
    | jsonexprPath jumpEnd jumpEmpty jumpError jumpEvalCoercion =>
      rw [hn] at ht
      exact Or.inr (List.mem_filter.1 ht).2
    | _ =>
      rw [hn] at ht hothers
      exact Or.inr (hothers t ht)
  | _ => exact hnat

/-- The same by the turns of the main loop: the entries that they take, and the overwritten targets that one of them emits. -/
theorem jumpsRight_iff_events (hplan : PlanJumps others steps) :
    JumpsRight steps.length (recordedJumps F T fns others desc steps m) ↔
      ((emitExpr F T fns desc steps m).map (weight (stepEntries others (caseBsearchPreScan F T fns desc steps m)) 2)).sum ≤
          steps.length * 4 ∧
        ∀ pk ∈ (detectCaseBsearch F T fns steps m).zipIdx, ∀ next t,
          Event.plain (pk.1.startOpno + 2) next ∈ emitExpr F T fns desc steps m →
            opAt steps (pk.1.startOpno + 2) = some (.qual t) ∨ opAt steps (pk.1.startOpno + 2) = some (.jumpIfNotTrue t) →
              (low32 (desc pk.2)).toNat < steps.length := by
  have hlen : (caseBsearchPreScan F T fns desc steps m).length = steps.length := length_preScan
  have hothers : ∀ i n targets, opAt (caseBsearchPreScan F T fns desc steps m) i = some (.other n targets) →
      ∀ t ∈ (others n).targets, isStep (caseBsearchPreScan F T fns desc steps m).length t = true := by
    intro i n targets hop
    rw [hlen]
    rcases opAt_preScan F T fns desc steps m i with heq | ⟨pk, hpk, rfl⟩
    · exact hplan.others i n targets (heq ▸ hop)
    · rw [opAt_preScan_third desc hplan.forward hpk, Option.map_eq_some_iff] at hop
      obtain ⟨op, hop, hset⟩ := hop
      cases op with
      | other k ts =>
        cases hset
        exact hplan.others _ n targets hop
      | _ => exact nomatch hset
  have hrec := recorded_init.afterEvents (emitExpr F T fns desc steps m) hothers
  rw [List.nil_append] at hrec
  have hlabels : ∀ k, k < steps.length → ((emitExpr F T fns desc steps m).foldl
      (emitEvent others (caseBsearchPreScan F T fns desc steps m)) .init).stepLabels k ≠ none := by
    intro k hk
    refine foldl_emitEvent_ne_none others _ _ .init (Or.inl ?_) (by rwa [hlen])
    refine replay_covers (lt_emitNext _) (Nat.le_add_left _ 0) (fun p hp => ?_) (Nat.zero_le k) (by rwa [hlen])
    have hlong := (pattern_site hplan.forward hp).long
    omega
  have hcount : ((emitExpr F T fns desc steps m).flatMap
      (eventTargets others (caseBsearchPreScan F T fns desc steps m))).length = ((emitExpr F T fns desc steps m).map
        (weight (stepEntries others (caseBsearchPreScan F T fns desc steps m)) 2)).sum := by
    rw [List.length_flatMap]
    refine congrArg List.sum (List.map_congr_left fun ev _ => length_eventTargets others _ ev)
  rw [recordedJumps, hlen, jumpsRight_fixUp_iff hrec hlabels, hcount]
  refine and_congr_right fun _ => ⟨fun hall pk hpk next t hplain hop => ?_, fun hover t ht => ?_⟩
  · -- the overwritten target is among those of its turn
    have hat := opAt_preScan_third desc hplan.forward hpk
    have hmem : ((low32 (desc pk.2)).toNat : ℤ) ∈
        eventTargets others (caseBsearchPreScan F T fns desc steps m) (.plain (pk.1.startOpno + 2) next) := by
      rcases hop with hop | hop <;>
      · rw [eventTargets, hat, hop]
        exact List.mem_cons_self
    rcases hall _ (List.mem_flatMap.2 ⟨_, hplain, hmem⟩) with hmark | hstep
    · omega
    · exact isStep_natCast.1 hstep
  · obtain ⟨ev, hev, ht⟩ := List.mem_flatMap.1 ht
    cases ev with
    | taken p =>
      obtain ⟨j, hj⟩ := pattern_end hplan.forward (mem_of_taken_mem_replay hev)
      have hend := hplan.toStep j _ hj p.elseEndOpno (List.mem_singleton_self _)
      have heq : t = p.elseEndOpno := by simpa [eventTargets] using ht
      exact Or.inr (heq ▸ isStep_natCast.2 hend)
    | plain i next =>
      rw [eventTargets] at ht
      rcases opAt_preScan F T fns desc steps m i with heq | ⟨pk, hpk, rfl⟩
      · rw [heq, hlen] at ht
        cases hop : opAt steps i with
        | none =>
          rw [hop] at ht
          exact absurd ht List.not_mem_nil
        | some op =>
          rw [hop] at ht
          exact opTargets_toStep hplan hop t ht
      · rw [opAt_preScan_third desc hplan.forward hpk, hlen] at ht
        cases hop : opAt steps (pk.1.startOpno + 2) with
        | none =>
          rw [hop] at ht
          exact absurd ht List.not_mem_nil
        | some op =>
          rw [hop] at ht
          have hover' := hover pk hpk next
          have hsame := opTargets_toStep hplan hop t
          cases op with
          | qual k =>
            have heq : t = (low32 (desc pk.2)).toNat := by
              simpa [opTargets, EvalOp.setConstvalValue, EvalOp.targets] using ht
            exact Or.inr (heq ▸ isStep_natCast.2 (hover' k hev (Or.inl hop)))
          | jumpIfNotTrue k =>
            have heq : t = (low32 (desc pk.2)).toNat := by simpa [opTargets, EvalOp.setConstvalValue] using ht
            exact Or.inr (heq ▸ isStep_natCast.2 (hover' k hev (Or.inr hop)))
          | _ => exact hsame ht

/-- The opcodes of batches are where they were. -/
theorem batchCode_preScan (i : Nat) : (opAt (caseBsearchPreScan F T fns desc steps m) i).bind EvalOp.batchCode =
    (opAt steps i).bind EvalOp.batchCode := by
  rw [preScan_eq, setup_eq_stores]
  exact batchCode_stores desc _ i

/-- The setup leaves the numbers of entries. -/
theorem stepEntries_preScan (hforward : ForwardJumps steps) (k : Nat) :
    stepEntries others (caseBsearchPreScan F T fns desc steps m) k = stepEntries others steps k := by
  unfold stepEntries
  rw [length_preScan]
  rcases opAt_preScan F T fns desc steps m k with heq | ⟨pk, hpk, rfl⟩
  · rw [heq]
  · rw [opAt_preScan_third desc hforward hpk, Option.map_map]
    refine congrArg (fun f => ((opAt steps (pk.1.startOpno + 2)).map f).getD 0) (funext fun op => ?_)
    exact entries_setConstvalValue others steps.length op _

/-- Once the array is allocated, by the steps. -/
theorem recordedJumps_right_iff (hplan : PlanJumps others steps) :
    JumpsRight steps.length (recordedJumps F T fns others desc steps m) ↔
      entriesAsked others steps (detectCaseBsearch F T fns steps m) ≤ steps.length * 4 ∧
        OverwrittenToStep desc steps (detectCaseBsearch F T fns steps m) := by
  have hsite := fun p (hp : p ∈ detectCaseBsearch F T fns steps m) => pattern_site hplan.forward hp
  have hlen : (caseBsearchPreScan F T fns desc steps m).length = steps.length := length_preScan
  have hinside : ∀ p ∈ detectCaseBsearch F T fns steps m, p.startOpno + 1 < p.elseEndOpno ∧
      p.startOpno + 1 < (caseBsearchPreScan F T fns desc steps m).length := by
    intro p hp
    rw [hlen]
    exact site_inside (hsite p hp)
  have hstops : ∀ p ∈ detectCaseBsearch F T fns steps m, ∀ k, k < p.startOpno + 1 →
      emitNext (isJumpTarget steps) (caseBsearchPreScan F T fns desc steps m) k ≤ p.startOpno + 1 :=
    fun p hp k hk => site_stops _ batchCode_preScan (hsite p hp) hk
  rw [jumpsRight_iff_events hplan]
  refine and_congr ?_ (forall₂_congr fun pk hpk => ?_)
  · have hmerged : ∀ k j, k < j → j < emitNext (isJumpTarget steps) (caseBsearchPreScan F T fns desc steps m) k →
        stepEntries others (caseBsearchPreScan F T fns desc steps m) j = 0 := by
      intro k j hk hj
      refine stepEntries_of_batchCode others fun hnone => ?_
      have := emitNext_le (isJumpTarget steps) hk hnone
      omega
    have hsum := sum_replay (lt_emitNext (isJumpTarget steps)) hmerged 2 (Nat.le_add_left _ 0) hinside hstops
    have hasked : ((emitExpr F T fns desc steps m).map
        (weight (stepEntries others (caseBsearchPreScan F T fns desc steps m)) 2)).sum =
          entriesAsked others steps (detectCaseBsearch F T fns steps m) := by
      refine hsum.trans ?_
      rw [hlen, ← Finset.range_eq_Ico]
      refine congrArg (· + _) (Finset.sum_congr rfl fun k _ => ?_)
      rw [stepEntries_preScan hplan.forward]
      rfl
    rw [hasked]
  · -- the third step of a pattern is in no batch, when it is a conditional jump
    have hplain : ∀ t, opAt steps (pk.1.startOpno + 2) = some (.qual t) ∨ opAt steps (pk.1.startOpno + 2) = some (.jumpIfNotTrue t) →
        ((∃ next, Event.plain (pk.1.startOpno + 2) next ∈ emitExpr F T fns desc steps m) ↔
          inPattern (replacedPatterns (detectCaseBsearch F T fns steps m)) (pk.1.startOpno + 2) = false) := by
      intro t hop
      have hcode : (opAt (caseBsearchPreScan F T fns desc steps m) (pk.1.startOpno + 2)).bind EvalOp.batchCode = none := by
        rw [batchCode_preScan]
        rcases hop with hop | hop <;>
        · rw [hop]
          rfl
      have hlt : pk.1.startOpno + 2 < (caseBsearchPreScan F T fns desc steps m).length := by
        rw [hlen]
        rcases hop with hop | hop <;>
        · obtain ⟨step, hstep, -⟩ := Option.map_eq_some_iff.1 hop
          exact (List.getElem?_eq_some_iff.1 hstep).1
      exact plain_mem_replay_iff (lt_emitNext _) (Nat.le_add_left _ 0) hinside hstops (fun k hk => emitNext_le _ hk hcode)
        (Nat.zero_le _) hlt
    constructor
    · intro h hout t hop
      obtain ⟨next, hmem⟩ := (hplain t hop).2 hout
      exact h next t hmem hop
    · intro h next t hmem hop
      exact h ((hplain t hop).1 ⟨next, hmem⟩) t hop

/-- The exits before the allocation. -/
theorem pendingJumps_eq (c : CompileChecks G) : pendingJumps F T fns others c desc steps m =
    if c.allocates steps then some (recordedJumps F T fns others desc steps m) else none := by
  unfold pendingJumps CompileChecks.allocates
  cases c.declines steps <;> cases c.reusesSharedCode <;> cases c.createCompiler <;> rfl

end PendingJumpsAux

/-- For the step arrays of the executor, the entries fit in `pending_jumps` and every recorded jump is bound to exactly one label
exactly when the array is not allocated, or the steps ask for no more entries than four a step, and no overwritten target that is
emitted leads out of the array. -/
theorem pending_jumps_right_iff (c : CompileChecks G) (hplan : PlanJumps others steps) :
    (∀ e, pendingJumps F T fns others c desc steps m = some e → JumpsRight steps.length e) ↔
      (c.allocates steps = true → entriesAsked others steps (detectCaseBsearch F T fns steps m) ≤ steps.length * 4 ∧
        OverwrittenToStep desc steps (detectCaseBsearch F T fns steps m)) := by
  rw [pendingJumps_eq, ← recordedJumps_right_iff hplan]
  split
  · rename_i hallocates
    rw [forall_prop_of_true hallocates]
    exact ⟨fun h => h _ rfl, fun h e he => Option.some.inj he ▸ h⟩
  · rename_i hdeclines
    exact ⟨fun _ hallocates => absurd hallocates hdeclines, fun _ e he => nomatch he⟩

namespace PendingJumpsWitness

open CaseBsearchWitness CaseEmitWitness

/-- A strict function of constants, and a column of the table behind it: the constants have no steps, and the fetch of the column is
what makes the expression worth compiling. -/
def strictOfConstants (nargs : Nat) : List (ExprEvalStep Fn) :=
  [⟨.other 0 [], .state⟩, ⟨.funcExprStrict .lt 0 nargs, .state⟩, ⟨.assignTmp 0, .state⟩, ⟨.assignVar .scan 0 1, .state⟩, ⟨.done, .state⟩]

/-- No opcode but those of `EvalOp` and `EEOP_SCAN_FETCHSOME`. -/
def noOthers : Nat → OtherOp := fun _ => .rest

/-- `EEOP_SCAN_FETCHSOME` is inlineable. -/
def isFetchsome : EvalOp Fn → Bool
  | .other _ _ => true
  | _ => false

/-- A compilation with the default of `pg_jitter.min_expr_steps`. -/
def checks : CompileChecks Fn := { compiles true with inlineable := isFetchsome }

/-- The expression is not declined. -/
theorem strictOfConstants_allocates (nargs : Nat) : checks.allocates (strictOfConstants nargs) = true := rfl

/-- There is no jump in it. -/
theorem strictOfConstants_plan (nargs : Nat) : PlanJumps noOthers (strictOfConstants nargs) := by
  have hat : ∀ i op, opAt (strictOfConstants nargs) i = some op → op.targets = [] := by
    intro i op hop
    match i with
    | 0 | 1 | 2 | 3 | 4 =>
      cases hop
      rfl
    | i + 5 => exact nomatch hop
  refine ⟨fun i step hstep t ht => ?_, fun i op hop t ht => ?_, fun i n targets hop t ht => absurd ht List.not_mem_nil⟩
  · rw [hat i step.op (by rw [opAt, hstep]; rfl)] at ht
    exact absurd ht List.not_mem_nil
  · rw [hat i op hop] at ht
    exact absurd ht List.not_mem_nil

/-- Twenty arguments fill the array of five steps. -/
theorem twenty_constants_fit : PlanJumps noOthers (strictOfConstants 20) ∧ checks.allocates (strictOfConstants 20) = true ∧
    ∀ e, pendingJumps signedFloats wordTexts int4Funcs noOthers checks descAt (strictOfConstants 20) constArgs = some e →
      JumpsRight (strictOfConstants 20).length e := by
  refine ⟨strictOfConstants_plan 20, strictOfConstants_allocates 20, (pending_jumps_right_iff signedFloats wordTexts int4Funcs noOthers
    descAt (strictOfConstants 20) constArgs checks (strictOfConstants_plan 20)).2 fun _ => ⟨by decide, fun pk hpk => ?_⟩⟩
  have hnone : (detectCaseBsearch signedFloats wordTexts int4Funcs (strictOfConstants 20) constArgs).length = 0 := by decide
  rw [List.length_eq_zero_iff.1 hnone] at hpk
  exact absurd hpk List.not_mem_nil

/-- The twenty-first is written beyond it. -/
theorem twenty_one_constants_overflow :
    ∃ (others : Nat → OtherOp) (c : CompileChecks Fn) (steps : List (ExprEvalStep Fn)), PlanJumps others steps ∧
      c.minExprSteps = 4 ∧ c.allocates steps = true ∧
        ¬ ∀ e, pendingJumps signedFloats wordTexts int4Funcs others c descAt steps constArgs = some e → JumpsRight steps.length e := by
  refine ⟨noOthers, checks, strictOfConstants 21, strictOfConstants_plan 21, rfl, strictOfConstants_allocates 21, fun h => ?_⟩
  have hcount : (recordedJumps signedFloats wordTexts int4Funcs noOthers descAt (strictOfConstants 21) constArgs).pending.length = 21 := by
    decide
  have hroom := (h _ rfl).room
  rw [hcount] at hroom
  exact absurd hroom (by decide)

end PendingJumpsWitness

end PgJitter
