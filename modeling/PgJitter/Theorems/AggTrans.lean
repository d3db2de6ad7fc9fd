import PgJitter.Lemmas.AggTrans
import PgJitter.Theorems.NumericAgg

/-!
# Folding inlined transitions

Over any inputs the emitted code gives what PostgreSQL's transition functions give (`agg_group_agrees`), but for two things: the
code for `numeric_avg_accum` adds what a null argument has left in its slot, and the code for `int8_avg_accum` takes a null argument
for a transition that succeeded, before there is a state. The numeric fast path has two defects of its own (`NumericStepOk`).
-/

namespace PgJitter

open AggTransAux

/-- All steps of a run over numerics are as `NumericStepOk` asks. -/
def NumericRunOk {ops : NumericAccumOps} : AggStatePerGroup (Option NumericTransState) → List (NumericArg ops) → Prop
  | _, [] => True
  | pergroup, arg :: args => NumericStepOk pergroup arg ∧ NumericRunOk (inlineNumericAvgAccum pergroup arg) args

/-- The transition values of two groups: the flags are the same, and so are the values, a state by its totals. -/
structure SameTransition (ops : SumAccumOps) (pergroup pergroup' : AggStatePerGroup (Option NumericTransState)) : Prop where
  null : pergroup.transValueIsNull = pergroup'.transValueIsNull
  value : Option.Rel (SameTotals ops) pergroup.transValue pergroup'.transValue

/-- The transitions of the emitted code and of PostgreSQL, from the initial state on, give the same. -/
def AggGroup.Agrees {ops : NumericAccumOps} : AggGroup ops → Prop
  | .numericAvgAccum inputs => SameTransition ops.toSumAccumOps (inputs.foldl inlineNumericAvgAccum (initializeAggregate none))
      (inputs.foldl pgNumericAvgAccumStep (initializeAggregate none))
  | .int8AvgAccum inputs =>
    inputs.foldl inlineInt8AvgAccum (initializeAggregate none) = inputs.foldl pgInt8AvgAccumStep (initializeAggregate none)
  | .int4Sum inputs => inputs.foldl inlineInt4Sum (initializeAggregate 0) = inputs.foldl (pgIntSumStep 32) (initializeAggregate 0)
  | .int2Sum inputs => inputs.foldl inlineInt2Sum (initializeAggregate 0) = inputs.foldl (pgIntSumStep 16) (initializeAggregate 0)
  | .int8inc op start inputs => inputs.foldlM (inlineInt8inc op) start = inputs.foldlM (pgInt8incStep op) start

/-- What it takes for that: of numerics, that every step is in order; of bigints, that they are not all null. -/
def AggGroup.Ok {ops : NumericAccumOps} : AggGroup ops → Prop
  | .numericAvgAccum inputs => NumericRunOk (initializeAggregate none) inputs
  | .int8AvgAccum inputs => inputs = [] ∨ ∃ i ∈ inputs, i.isnull = false
  | .int4Sum _ => True
  | .int2Sum _ => True
  | .int8inc _ _ _ => True

/-- Groups that agree have counted the same number of inputs. -/
theorem SameTransition.count {ops : SumAccumOps} {pergroup pergroup' : AggStatePerGroup (Option NumericTransState)}
    (h : SameTransition ops pergroup pergroup') :
    pergroup.transValue.map (·.sum.N) = pergroup'.transValue.map (·.sum.N) := by
  have hvalue := h.value
  generalize pergroup.transValue = a at hvalue ⊢
  generalize pergroup'.transValue = b at hvalue ⊢
  cases hvalue with
  | none => rfl
  | some h => exact congrArg some h.count

/-- Groups that agree give the final function the same sums. -/
theorem SameTransition.sum {ops : SumAccumOps} {pergroup pergroup' : AggStatePerGroup (Option NumericTransState)}
    (h : SameTransition ops pergroup pergroup') :
    (pergroup.transValue.map fun s => ops.accumSumCarry s.sum.sumX).map NumericSumAccum.value =
      (pergroup'.transValue.map fun s => ops.accumSumCarry s.sum.sumX).map NumericSumAccum.value := by
  have hvalue := h.value
  generalize pergroup.transValue = a at hvalue ⊢
  generalize pergroup'.transValue = b at hvalue ⊢
  cases hvalue with
  | none => rfl
  | some h => exact congrArg some h.value

/-- Two groups that are in step stay in step. -/
theorem simGroup_run {ops : NumericAccumOps} (inputs : List (NumericArg ops))
    {pergroup pergroup' : AggStatePerGroup (Option NumericTransState)} (h : SimGroup pergroup pergroup')
    (hok : NumericRunOk pergroup inputs) :
    SimGroup (inputs.foldl inlineNumericAvgAccum pergroup) (inputs.foldl pgNumericAvgAccumStep pergroup') := by
  induction inputs generalizing pergroup pergroup' with
  | nil => exact h
  | cons arg args ih => exact ih (simGroup_step h hok.1) hok.2

theorem sameTransition_of_sim (ops : SumAccumOps) {pergroup pergroup' : AggStatePerGroup (Option NumericTransState)}
    (h : SimGroup pergroup pergroup') : SameTransition ops pergroup pergroup' := by
  cases h with
  | initial => exact ⟨rfl, .none⟩
  | states h _ => exact ⟨rfl, .some (h.sameTotals ops)⟩

/-- The sums of bigints agree exactly when there is an input that is not null, or none at all. -/
theorem int8Avg_agrees_iff (inputs : List NullableDatum) :
    inputs.foldl inlineInt8AvgAccum (initializeAggregate none) = inputs.foldl pgInt8AvgAccumStep (initializeAggregate none) ↔
      inputs = [] ∨ ∃ i ∈ inputs, i.isnull = false := by
  constructor
  · intro heq
    by_contra hno
    rw [not_or] at hno
    obtain ⟨hne, hnull⟩ := hno
    have hall : ∀ i ∈ inputs, i.isnull = true := by
      intro i hi
      by_contra hi'
      exact hnull ⟨i, hi, Bool.eq_false_iff.2 hi'⟩
    obtain ⟨hinline, hpg⟩ := int8Avg_run_nulls hall true true
    have hvalue := congrArg AggStatePerGroup.transValue ((hinline.symm.trans heq).trans (hpg hne))
    exact nomatch hvalue
  · rintro (rfl | ⟨i, hi, hnull⟩)
    · rfl
    · -- up to the first value there are nulls alone
      obtain ⟨before, v, after, rfl, hbefore, hv⟩ : ∃ before v after, inputs = before ++ v :: after ∧
          (∀ j ∈ before, j.isnull = true) ∧ v.isnull = false := by
        induction inputs with
        | nil => exact nomatch hi
        | cons j js ih =>
          cases hj : j.isnull with
          | false => exact ⟨[], j, js, rfl, fun _ h => (nomatch h), hj⟩
          | true =>
            have hmem : i ∈ js := by
              rcases List.mem_cons.1 hi with rfl | hmem
              · exact nomatch hnull.symm.trans hj
              · exact hmem
            obtain ⟨before, v, after, rfl, hbefore, hv⟩ := ih hmem
            refine ⟨j :: before, v, after, rfl, fun k hk => ?_, hv⟩
            rcases List.mem_cons.1 hk with rfl | hk
            · exact hj
            · exact hbefore k hk
      obtain ⟨hinline, hpg⟩ := int8Avg_run_nulls hbefore true true
      rw [List.foldl_append, List.foldl_append, List.foldl_cons, List.foldl_cons]
      have hfirst : inlineInt8AvgAccum (before.foldl inlineInt8AvgAccum (initializeAggregate none)) v =
          ⟨some (Int128AggState.init.accum v.value), false, true⟩ := by
        rw [show (initializeAggregate none : AggStatePerGroup (Option Int128AggState)) = ⟨none, true, true⟩ from rfl, hinline,
          inlineInt8AvgAccum_value hv fun _ => rfl]
        unfold pgInt8AvgAccumStep pgInt8AvgAccum execAggPlainTransByVal
        rw [hv]
        cases before <;> rfl
      have hfirst' : pgInt8AvgAccumStep (before.foldl pgInt8AvgAccumStep (initializeAggregate none)) v =
          ⟨some (Int128AggState.init.accum v.value), false, true⟩ := by
        cases before with
        | nil =>
          unfold pgInt8AvgAccumStep pgInt8AvgAccum execAggPlainTransByVal
          rw [hv]
          rfl
        | cons j js =>
          rw [show (initializeAggregate none : AggStatePerGroup (Option Int128AggState)) = ⟨none, true, true⟩ from rfl,
            hpg (List.cons_ne_nil _ _)]
          unfold pgInt8AvgAccumStep pgInt8AvgAccum execAggPlainTransByVal
          rw [hv]
          rfl
      rw [hfirst, hfirst', int8Avg_run_state]

/-- In every group whose inputs are in order, whatever nulls stand between its values, the emitted code gives the transition value
and the null flag that PostgreSQL's functions give. -/
theorem agg_group_agrees {ops : NumericAccumOps} (g : AggGroup ops) (h : g.Ok) : g.Agrees := by
  cases g with
  | numericAvgAccum inputs => exact sameTransition_of_sim ops.toSumAccumOps (simGroup_run inputs .initial h)
  | int8AvgAccum inputs => exact (int8Avg_agrees_iff inputs).2 h
  | int4Sum inputs => exact intSum_run 32 inputs fun _ => rfl
  | int2Sum inputs => exact intSum_run 16 inputs fun _ => rfl
  | int8inc op start inputs =>
    have hstep : inlineInt8inc op = pgInt8incStep op := funext fun pergroup => funext fun args => inlineInt8inc_eq op pergroup args
    show inputs.foldlM (inlineInt8inc op) start = inputs.foldlM (pgInt8incStep op) start
    rw [hstep]

namespace AggTransWitness

/-- The routines of PostgreSQL, for groups of short numerics only. -/
def shortOps : NumericAccumOps :=
  { NumericC.ops with
    Long := Empty
    longDatum := nofun
    longValue := nofun
    longDscale := nofun
    accumSumAddLong := fun _ => nofun
    long_format := nofun
    sumOk_long := fun _ => nofun
    value_long := fun _ => nofun
    dscale_long := fun _ => nofun }

/-- The digit 1 has a place in a numeric. -/
theorem one_fits : ((-64 : ℤ) ≤ 0 ∧ (0 : ℤ) ≤ 63) ∧ 0 < 64 ∧ (0 : ℤ) < 1 ∧ (1 : ℤ) < nbase := by decide

/-- The number 1, in place. -/
def one : AggInput := ⟨.single 0 0 1 one_fits, .plain⟩

/-- A null before and behind a number, with zero Datums: the two agree. -/
theorem nulls_around_number :
    AggGroup.Agrees (.numericAvgAccum [.null none, .short one, .null none] : AggGroup shortOps) := by
  refine agg_group_agrees _ ⟨fun _ _ h => (nomatch h), ?_, fun _ _ _ h => (nomatch h), trivial⟩
  rintro _ ⟨⟩
  exact ⟨by decide, by decide⟩

/-- The digit 9999 has a place in a numeric. -/
theorem nines_fit : ((-64 : ℤ) ≤ 1 ∧ (1 : ℤ) ≤ 63) ∧ 0 < 64 ∧ (0 : ℤ) < 9999 ∧ (9999 : ℤ) < nbase := by decide

/-- The number 99990000, in place. -/
def allNines : AggInput := ⟨.single 1 0 9999 nines_fit, .plain⟩

/-- The number 1 and two times 99990000. -/
def carryInputs : List (NumericArg shortOps) := [.short one, .short allNines, .short allNines]

/-- After these PostgreSQL's sum is 199980001, and that of the emitted code has lost its carry. -/
theorem carry_lost : ¬ AggGroup.Agrees (.numericAvgAccum carryInputs) := by
  intro h
  have hsum := SameTransition.sum h
  have hinline : ((carryInputs.foldl inlineNumericAvgAccum (initializeAggregate none)).transValue.map fun s =>
      shortOps.accumSumCarry s.sum.sumX) = some ⟨2, 1, 0, 0, false, [9998, 1], [0, 0]⟩ := by decide
  have hpg : ((carryInputs.foldl pgNumericAvgAccumStep (initializeAggregate none)).transValue.map fun s =>
      shortOps.accumSumCarry s.sum.sumX) = some ⟨3, 2, 0, 0, false, [1, 9998, 1], [0, 0, 0]⟩ := by decide
  rw [hinline, hpg] at hsum
  norm_num [NumericSumAccum.value, nbase] at hsum

/-- After the number 1, a null whose slot still holds the Datum of 1 is counted and added; a null in the first row of bigints leaves no
state behind a flag that says that there is one; and a carry is lost. -/
theorem nulls_counted :
    ¬ AggGroup.Agrees (.numericAvgAccum [.short one, .null (some one.datum)] : AggGroup shortOps) ∧
      ¬ AggGroup.Agrees (.int8AvgAccum [⟨0, true⟩] : AggGroup shortOps) ∧ ¬ AggGroup.Agrees (.numericAvgAccum carryInputs) := by
  refine ⟨fun h => ?_, fun h => ?_, carry_lost⟩
  · exact absurd (SameTransition.count h) (by decide)
  · have heq : [(⟨0, true⟩ : NullableDatum)].foldl inlineInt8AvgAccum (initializeAggregate none) =
      [⟨0, true⟩].foldl pgInt8AvgAccumStep (initializeAggregate none) := h
    exact absurd heq (by decide)

end AggTransWitness

end PgJitter
