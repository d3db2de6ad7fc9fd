import PgJitter.AggTrans

/-!
# Helpers: the two ways of a transition

What one step of the emitted code gives against one step of PostgreSQL. For the sums of numeric the two accumulators need not be
the same, but they stay in order and stand for the same sum (`Sim`), so that they give the same totals once carried (`SameTotals`).
-/

namespace PgJitter

/-- The fast path would add a Datum to a state: it is in the short format, in place, and is zero or fits the accumulator. -/
def FastTakes (s : NumericAggState) (datum : NumericDatum) : Prop :=
  match numericParseDatum datum with
  | none => False
  | some (hdr, digits) =>
    digits = [] ∨
      (s.sumX.numUncarried < nbase - 1 ∧ s.sumX.ndigits ≠ 0 ∧ numericHdrWeight hdr ≤ s.sumX.weight ∧
        (s.sumX.weight - numericHdrWeight hdr).toNat + digits.length ≤ s.sumX.ndigits)

/-- What the step asks of an input: a null does not come with a stale Datum that the fast path would add, and a number is neither
added into the digit reserved for a carry nor a zero with a new display scale. -/
def NumericStepOk {ops : NumericAccumOps} (pergroup : AggStatePerGroup (Option NumericTransState)) : NumericArg ops → Prop
  | .null stale => ∀ s datum, pergroup.transValue = some s → stale = some datum → ¬ FastTakes s.sum datum
  | .short i => ∀ s, pergroup.transValue = some s → ¬ TakesReservedDigit s.sum i ∧ ¬ HidesScale s.sum i
  | .long _ => True
  | .special _ => True

namespace AggTransAux

/-! ## Integers -/

/-- The overflow flag of the addition says what the addition of PostgreSQL says. -/
theorem pgInt8inc_eq (v : Datum) : pgInt8inc v = if BitVec.saddOverflow v 1 then none else some (v + 1) := by
  have hflag : BitVec.saddOverflow v 1 = true ↔ v.toInt + 1 < -2 ^ 63 ∨ 2 ^ 63 ≤ v.toInt + 1 := by
    have hone : (1 : Datum).toInt = 1 := by decide
    simp only [BitVec.saddOverflow, Bool.or_eq_true, decide_eq_true_eq, hone]
    omega
  unfold pgInt8inc
  by_cases h : BitVec.saddOverflow v 1 = true
  · rw [if_pos h]
    exact if_pos (hflag.1 h)
  · rw [if_neg h]
    refine (if_neg fun hr => h (hflag.2 hr)).trans (congrArg some ?_)
    rw [BitVec.ofInt_add, BitVec.ofInt_toInt]
    rfl

/-- The inlined increment is the step of the interpreter. -/
theorem inlineInt8inc_eq (op : AggTransOp) (pergroup : AggStatePerGroup Datum) (args : List NullableDatum) :
    inlineInt8inc op pergroup args = pgInt8incStep op pergroup args := by
  unfold inlineInt8inc pgInt8incStep
  have htrans : (if BitVec.saddOverflow pergroup.transValue 1 then none
        else some { pergroup with transValue := pergroup.transValue + 1, transValueIsNull := false }) =
      (pgInt8inc pergroup.transValue).map fun newVal => execAggPlainTransByVal pergroup newVal false := by
    rw [pgInt8inc_eq]
    split <;> rfl
  dsimp only
  rw [htrans]
  split
  · rfl
  · cases op with
    | initStrict =>
      cases pergroup.noTransValue with
      | true => rfl
      | false => cases pergroup.transValueIsNull <;> simp
    | strict => cases pergroup.transValueIsNull <;> simp
    | plain => simp

/-- A group whose value is null has the value zero. -/
def NullIsZero (pergroup : AggStatePerGroup Datum) : Prop := pergroup.transValueIsNull = true → pergroup.transValue = 0

theorem inlineIntSum_eq (width : Nat) {pergroup : AggStatePerGroup Datum} (h : NullIsZero pergroup) (arg1 : NullableDatum) :
    inlineIntSum width pergroup arg1 = pgIntSumStep width pergroup arg1 := by
  obtain ⟨transValue, transValueIsNull, noTransValue⟩ := pergroup
  unfold inlineIntSum pgIntSumStep pgIntSum execAggPlainTransByVal
  cases transValueIsNull with
  | true =>
    obtain rfl : transValue = 0 := h rfl
    cases arg1.isnull <;> rfl
  | false => cases arg1.isnull <;> rfl

theorem nullIsZero_step (width : Nat) {pergroup : AggStatePerGroup Datum} (h : NullIsZero pergroup) (arg1 : NullableDatum) :
    NullIsZero (inlineIntSum width pergroup arg1) := by
  unfold inlineIntSum
  split
  · exact h
  · dsimp only
    split
    · exact nofun
    · next hnull => exact fun h' => absurd h' hnull

/-- Both sums run the same way from a null. -/
theorem intSum_run (width : Nat) (inputs : List NullableDatum) {pergroup : AggStatePerGroup Datum} (h : NullIsZero pergroup) :
    inputs.foldl (inlineIntSum width) pergroup = inputs.foldl (pgIntSumStep width) pergroup := by
  induction inputs generalizing pergroup with
  | nil => rfl
  | cons i is ih => rw [List.foldl_cons, List.foldl_cons, ← inlineIntSum_eq width h, ih (nullIsZero_step width h i)]

/-! ## Bigint -/

/-- A step with an argument that is not null is PostgreSQL's, if the transition value is null or says that it is not. -/
theorem inlineInt8AvgAccum_value {pergroup : AggStatePerGroup (Option Int128AggState)} {arg1 : NullableDatum}
    (harg : arg1.isnull = false) (h : pergroup.transValueIsNull = true → pergroup.transValue = none) :
    inlineInt8AvgAccum pergroup arg1 = pgInt8AvgAccumStep pergroup arg1 := by
  obtain ⟨transValue, transValueIsNull, noTransValue⟩ := pergroup
  cases transValue with
  | none =>
    unfold inlineInt8AvgAccum
    rw [harg]
    rfl
  | some s =>
    cases transValueIsNull with
    | true => exact nomatch h rfl
    | false =>
      unfold inlineInt8AvgAccum pgInt8AvgAccumStep pgInt8AvgAccum execAggPlainTransByVal
      rw [harg]
      rfl

/-- With a state, every step is PostgreSQL's, and leaves a state. -/
theorem inlineInt8AvgAccum_state (s : Int128AggState) (noTrans : Bool) (arg1 : NullableDatum) :
    ∃ s', inlineInt8AvgAccum ⟨some s, false, noTrans⟩ arg1 = ⟨some s', false, noTrans⟩ ∧
      pgInt8AvgAccumStep ⟨some s, false, noTrans⟩ arg1 = ⟨some s', false, noTrans⟩ := by
  unfold inlineInt8AvgAccum pgInt8AvgAccumStep pgInt8AvgAccum execAggPlainTransByVal
  cases arg1.isnull with
  | true => exact ⟨s, rfl, rfl⟩
  | false => exact ⟨s.accum arg1.value, rfl, rfl⟩

theorem int8Avg_run_state (inputs : List NullableDatum) (s : Int128AggState) (noTrans : Bool) :
    inputs.foldl inlineInt8AvgAccum ⟨some s, false, noTrans⟩ = inputs.foldl pgInt8AvgAccumStep ⟨some s, false, noTrans⟩ := by
  induction inputs generalizing s with
  | nil => rfl
  | cons i is ih =>
    obtain ⟨s', hinline, hpg⟩ := inlineInt8AvgAccum_state s noTrans i
    rw [List.foldl_cons, List.foldl_cons, hinline, hpg, ih]

/-- Nulls alone: PostgreSQL has an empty state, and the emitted code none, though its flag says that there is one. -/
theorem int8Avg_run_nulls {inputs : List NullableDatum} (h : ∀ i ∈ inputs, i.isnull = true) (null noTrans : Bool) :
    inputs.foldl inlineInt8AvgAccum ⟨none, null, noTrans⟩ = ⟨none, null && inputs.isEmpty, noTrans⟩ ∧
      (inputs ≠ [] → inputs.foldl pgInt8AvgAccumStep ⟨none, null, noTrans⟩ = ⟨some .init, false, noTrans⟩) := by
  have hinit : ∀ is : List NullableDatum, (∀ i ∈ is, i.isnull = true) →
      is.foldl pgInt8AvgAccumStep ⟨some .init, false, noTrans⟩ = ⟨some .init, false, noTrans⟩ := by
    intro is his
    induction is with
    | nil => rfl
    | cons i is ih =>
      have hi := his i List.mem_cons_self
      rw [List.foldl_cons]
      have hstep : pgInt8AvgAccumStep ⟨some .init, false, noTrans⟩ i = ⟨some .init, false, noTrans⟩ := by
        unfold pgInt8AvgAccumStep pgInt8AvgAccum execAggPlainTransByVal
        rw [hi]
        rfl
      rw [hstep]
      exact ih fun j hj => his j (List.mem_cons_of_mem _ hj)
  induction inputs generalizing null with
  | nil => exact ⟨by simp, fun h => absurd rfl h⟩
  | cons i is ih =>
    have hi := h i List.mem_cons_self
    have his : ∀ j ∈ is, j.isnull = true := fun j hj => h j (List.mem_cons_of_mem _ hj)
    have hinline : inlineInt8AvgAccum ⟨none, null, noTrans⟩ i = ⟨none, false, noTrans⟩ := by
      unfold inlineInt8AvgAccum
      rw [hi]
      rfl
    have hpg : pgInt8AvgAccumStep ⟨none, null, noTrans⟩ i = ⟨some .init, false, noTrans⟩ := by
      unfold pgInt8AvgAccumStep pgInt8AvgAccum execAggPlainTransByVal
      rw [hi]
      cases null <;> rfl
    refine ⟨?_, fun _ => ?_⟩
    · rw [List.foldl_cons, hinline, (ih his false).1]
      simp
    · rw [List.foldl_cons, hpg, hinit is his]

/-! ## Numeric -/

/-- An input that the fast path does not take leaves the state as it is. -/
theorem jitNumericAggTransFast_of_not_takes {s : NumericAggState} {datum : NumericDatum} (h : ¬ FastTakes s datum) :
    jitNumericAggTransFast (some s) (some datum) = (0, some s) := by
  unfold FastTakes at h
  unfold jitNumericAggTransFast
  dsimp only
  split
  · rfl
  · next hdr digits hparse =>
    rw [hparse] at h
    simp only [not_or, not_and] at h
    obtain ⟨hne, h⟩ := h
    rw [if_neg fun hlen => hne (List.length_eq_zero_iff.1 hlen)]
    split
    · rfl
    · split
      · rfl
      · split
        · rfl
        · exact absurd (h (by omega) (by omega) (by omega)) (by omega)

@[simp] theorem noteScale_with (s : NumericAggState) (N : Nat) (sumX : NumericSumAccum) (dscale : Nat) :
    ({ s with N, sumX }.noteScale dscale).maxScale = (s.noteScale dscale).maxScale ∧
      ({ s with N, sumX }.noteScale dscale).maxScaleCount = (s.noteScale dscale).maxScaleCount := by
  unfold NumericAggState.noteScale
  dsimp only
  split
  · exact ⟨rfl, rfl⟩
  · split <;> exact ⟨rfl, rfl⟩

/-- When the fast path adds, it notes the scale as PostgreSQL does. -/
theorem jitNumericAggTransFast_scales {s s' : NumericAggState} (x : ShortNumeric)
    (h : jitNumericAggTransFast (some s) (some x.datum) = (1, some s')) :
    s'.maxScale = (s.noteScale x.dscale).maxScale ∧ s'.maxScaleCount = (s.noteScale x.dscale).maxScaleCount := by
  unfold jitNumericAggTransFast at h
  simp only [numericParseDatum_datum, numericHdrDscale_header] at h
  split at h
  · cases h
    exact noteScale_with s _ s.sumX _
  · split at h
    · cases h
    · split at h
      · cases h
      · split at h
        · cases h
        · cases h
          exact noteScale_with s _ _ _

theorem noteScale_congr {s s' : NumericAggState} (hm : s.maxScale = s'.maxScale) (hc : s.maxScaleCount = s'.maxScaleCount)
    (dscale : Nat) : (s.noteScale dscale).maxScale = (s'.noteScale dscale).maxScale ∧
      (s.noteScale dscale).maxScaleCount = (s'.noteScale dscale).maxScaleCount := by
  unfold NumericAggState.noteScale
  rw [hm]
  split
  · exact ⟨rfl, rfl⟩
  · split
    · exact ⟨rfl, congrArg (· + 1) hc⟩
    · exact ⟨hm, hc⟩

end AggTransAux

/-- Two states that stand for the same inputs: the sums that the final function reads, which carries the accumulator first, have the
same value and display scale, and all counts agree. -/
structure SameTotals (ops : SumAccumOps) (s s' : NumericTransState) : Prop where
  value : (ops.accumSumCarry s.sum.sumX).value = (ops.accumSumCarry s'.sum.sumX).value
  dscale : (ops.accumSumCarry s.sum.sumX).dscale = (ops.accumSumCarry s'.sum.sumX).dscale
  count : s.sum.N = s'.sum.N
  maxScale : s.sum.maxScale = s'.sum.maxScale
  maxScaleCount : s.sum.maxScaleCount = s'.sum.maxScaleCount
  nanCount : s.nanCount = s'.nanCount
  pInfCount : s.pInfCount = s'.pInfCount
  nInfCount : s.nInfCount = s'.nInfCount

namespace AggTransAux

/-- Two states in step: the accumulators are in order, and stand for the same sum before they are carried. -/
structure Sim (s s' : NumericTransState) : Prop where
  value : s.sum.sumX.value = s'.sum.sumX.value
  dscale : s.sum.sumX.dscale = s'.sum.sumX.dscale
  count : s.sum.N = s'.sum.N
  maxScale : s.sum.maxScale = s'.sum.maxScale
  maxScaleCount : s.sum.maxScaleCount = s'.sum.maxScaleCount
  nanCount : s.nanCount = s'.nanCount
  pInfCount : s.pInfCount = s'.pInfCount
  nInfCount : s.nInfCount = s'.nInfCount
  ok : SumOk s.sum.sumX
  ok' : SumOk s'.sum.sumX

theorem sim_init : Sim .init .init := ⟨rfl, rfl, rfl, rfl, rfl, rfl, rfl, rfl, sumOk_init, sumOk_init⟩

/-- An accumulator in order loses nothing when it is carried. -/
theorem Sim.sameTotals {s s' : NumericTransState} (h : Sim s s') (ops : SumAccumOps) : SameTotals ops s s' := by
  have hcarry := ops.carriesTo _ h.ok.toReserved
  have hcarry' := ops.carriesTo _ h.ok'.toReserved
  refine ⟨?_, ?_, h.count, h.maxScale, h.maxScaleCount, h.nanCount, h.pInfCount, h.nInfCount⟩
  · rw [hcarry.value, hcarry'.value, h.value]
  · rw [hcarry.dscale, hcarry'.dscale, h.dscale]

section Numeric

variable {ops : NumericAccumOps} {s s' : NumericTransState}

/-- The same number added to both, in whatever way. -/
theorem Sim.adds (h : Sim s s') (x : ShortNumeric) {t t' : NumericAggState} (ht : StepsTo s.sum x t) (ht' : StepsTo s'.sum x t')
    (hscale : t.maxScale = (s.sum.noteScale x.dscale).maxScale ∧ t.maxScaleCount = (s.sum.noteScale x.dscale).maxScaleCount)
    (hscale' : t'.maxScale = (s'.sum.noteScale x.dscale).maxScale ∧ t'.maxScaleCount = (s'.sum.noteScale x.dscale).maxScaleCount) :
    Sim { s with sum := t } { s' with sum := t' } := by
  have hcongr := noteScale_congr h.maxScale h.maxScaleCount x.dscale
  refine ⟨?_, ?_, ?_, ?_, ?_, h.nanCount, h.pInfCount, h.nInfCount, ht.sum.ok, ht'.sum.ok⟩
  · show t.sumX.value = t'.sumX.value
    rw [ht.sum.value, ht'.sum.value, h.value]
  · show t.sumX.dscale = t'.sumX.dscale
    rw [ht.sum.dscale, ht'.sum.dscale, h.dscale]
  · show t.N = t'.N
    rw [ht.count, ht'.count, h.count]
  · exact hscale.1.trans (hcongr.1.trans hscale'.1.symm)
  · exact hscale.2.trans (hcongr.2.trans hscale'.2.symm)

/-- PostgreSQL's accumulation of the same input in both. -/
theorem Sim.accum (h : Sim s s') (arg : NumericArg ops) : Sim (doNumericAccum s arg) (doNumericAccum s' arg) := by
  cases arg with
  | null stale => exact h
  | short i =>
    exact h.adds i.num (numericAvgAccum_stepsTo _ _ h.ok) (numericAvgAccum_stepsTo _ _ h.ok') ⟨rfl, rfl⟩ ⟨rfl, rfl⟩
  | long x =>
    have hcongr := noteScale_congr h.maxScale h.maxScaleCount (ops.longDscale x)
    refine ⟨?_, ?_, ?_, hcongr.1, hcongr.2, h.nanCount, h.pInfCount, h.nInfCount, ?_, ?_⟩
    · simp only [doNumericAccum, noteScale_sumX]
      rw [ops.value_long _ _ h.ok, ops.value_long _ _ h.ok', h.value]
    · simp only [doNumericAccum, noteScale_sumX]
      rw [ops.dscale_long _ _ h.ok, ops.dscale_long _ _ h.ok', h.dscale]
    · simp only [doNumericAccum, noteScale_N]
      rw [h.count]
    · simp only [doNumericAccum, noteScale_sumX]
      exact ops.sumOk_long _ _ h.ok
    · simp only [doNumericAccum, noteScale_sumX]
      exact ops.sumOk_long _ _ h.ok'
  | special k =>
    cases k with
    | nan => exact { h with nanCount := congrArg (· + 1) h.nanCount }
    | pInf => exact { h with pInfCount := congrArg (· + 1) h.pInfCount }
    | nInf => exact { h with nInfCount := congrArg (· + 1) h.nInfCount }

/-- The two groups: neither has a state yet, or both have one. -/
inductive SimGroup : AggStatePerGroup (Option NumericTransState) → AggStatePerGroup (Option NumericTransState) → Prop where
  | initial : SimGroup (initializeAggregate none) (initializeAggregate none)
  | states {s s' : NumericTransState} (h : Sim s s') (noTrans : Bool) : SimGroup ⟨some s, false, noTrans⟩ ⟨some s', false, noTrans⟩

/-- Where the fast path returns 0, PostgreSQL's own function is called. -/
theorem inlineNumericAvgAccum_slow {noTrans : Bool} (arg : NumericArg ops)
    (h : jitNumericAggTransFast (some s.sum) arg.value = (0, some s.sum)) :
    inlineNumericAvgAccum ⟨some s, false, noTrans⟩ arg = ⟨some (doNumericAccum s arg), false, noTrans⟩ := by
  unfold inlineNumericAvgAccum
  simp only [Option.map_some, h]
  rfl

/-- Where it returns 1, its state is the group's. -/
theorem inlineNumericAvgAccum_fast {noTrans : Bool} (arg : NumericArg ops) {t : NumericAggState}
    (h : jitNumericAggTransFast (some s.sum) arg.value = (1, some t)) :
    inlineNumericAvgAccum ⟨some s, false, noTrans⟩ arg = ⟨some { s with sum := t }, false, noTrans⟩ := by
  unfold inlineNumericAvgAccum
  simp only [Option.map_some, h]
  rfl

theorem not_takes_of_parse {t : NumericAggState} {datum : NumericDatum} (h : numericParseDatum datum = none) : ¬ FastTakes t datum := by
  unfold FastTakes
  rw [h]
  exact id

/-- A step of the inlined accumulation follows a step of the interpreter. -/
theorem simGroup_step {pergroup pergroup' : AggStatePerGroup (Option NumericTransState)} (h : SimGroup pergroup pergroup')
    {arg : NumericArg ops} (hok : NumericStepOk pergroup arg) :
    SimGroup (inlineNumericAvgAccum pergroup arg) (pgNumericAvgAccumStep pergroup' arg) := by
  cases h with
  | initial =>
    have hslow : inlineNumericAvgAccum (initializeAggregate none) arg = pgNumericAvgAccumStep (initializeAggregate none) arg := by
      unfold inlineNumericAvgAccum jitNumericAggTransFast
      rfl
    rw [hslow]
    exact .states (sim_init.accum arg) true
  | @states s s' hsim noTrans =>
    have hpg : pgNumericAvgAccumStep ⟨some s', false, noTrans⟩ arg = ⟨some (doNumericAccum s' arg), false, noTrans⟩ := rfl
    rw [hpg]
    -- the fast path leaves the input to PostgreSQL
    have hslow : (∀ datum, arg.value = some datum → ¬ FastTakes s.sum datum) →
        SimGroup (inlineNumericAvgAccum ⟨some s, false, noTrans⟩ arg) ⟨some (doNumericAccum s' arg), false, noTrans⟩ := by
      intro hno
      have hret : jitNumericAggTransFast (some s.sum) arg.value = (0, some s.sum) := by
        cases hv : arg.value with
        | none => rfl
        | some datum => exact jitNumericAggTransFast_of_not_takes (hno datum hv)
      rw [inlineNumericAvgAccum_slow arg hret]
      exact .states (hsim.accum arg) noTrans
    cases arg with
    | null stale => exact hslow fun datum hstale => hok s datum rfl hstale
    | short i =>
      obtain ⟨hres, hscale⟩ := hok s rfl
      obtain ⟨x, storage⟩ := i
      cases storage with
      | plain =>
        rcases jitNumericAggTransFast_cases x hsim.ok hres hscale with hfast | ⟨t, hfast, hstep⟩
        · rw [inlineNumericAvgAccum_slow (.short ⟨x, .plain⟩) hfast]
          exact .states (hsim.accum _) noTrans
        · rw [inlineNumericAvgAccum_fast (.short ⟨x, .plain⟩) hfast]
          exact .states (hsim.adds x hstep (numericAvgAccum_stepsTo _ _ hsim.ok') (jitNumericAggTransFast_scales x hfast)
            ⟨rfl, rfl⟩) noTrans
      | external => exact hslow fun datum hd => not_takes_of_parse (by cases hd; rfl)
      | compressed => exact hslow fun datum hd => not_takes_of_parse (by cases hd; rfl)
    | long x => exact hslow fun datum hd => not_takes_of_parse (by cases hd; exact ops.long_format x)
    | special k => exact hslow fun datum hd => not_takes_of_parse (by cases hd; cases k <;> rfl)

end Numeric

end AggTransAux

end PgJitter
