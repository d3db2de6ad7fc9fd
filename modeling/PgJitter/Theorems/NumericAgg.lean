import PgJitter.Lemmas.NumericAgg

/-!
# Numeric sums on the fast path

A run of transitions sums its inputs exactly as long as no transition takes the digit reserved for a carry and no zero hides a
display scale (`numeric_agg_run_exact`). The fast path checks `weight > accum->weight` where the reserved digit asks for
`weight >= accum->weight`, so a number of the accumulator's own weight is added into the reserved digit and a later carry is
lost; and a zero is counted without looking at the accumulator's display scale.
-/

namespace PgJitter

open Positional

/-- No transition of the run, from state `s` on, takes the reserved digit or hides a display scale. -/
def SafeRun (ops : SumAccumOps) : NumericAggState → List AggInput → Prop
  | _, [] => True
  | s, i :: is => (¬TakesReservedDigit s i ∧ ¬HidesScale s i) ∧ SafeRun ops (aggStep ops s i) is

/-- What the aggregate owes a sequence of inputs: the carried accumulator is their exact sum and has their largest display scale,
`N` is their number, and a call of the fast path that returns 0 leaves its state unchanged. -/
structure SumsExactly (ops : SumAccumOps) (inputs : List AggInput) : Prop where
  value : (ops.accumSumCarry (aggRun ops .init inputs).sumX).value = (inputs.map (fun i => i.num.value)).sum
  dscale : (ops.accumSumCarry (aggRun ops .init inputs).sumX).dscale = (inputs.map (fun i => i.num.dscale)).foldl max 0
  count : (aggRun ops .init inputs).N = inputs.length
  unchanged : ∀ state datum, (jitNumericAggTransFast state datum).1 = 0 → (jitNumericAggTransFast state datum).2 = state

/-- A safe run from any state whose accumulator is in order adds up its inputs. -/
theorem aggRun_of_safeRun (ops : SumAccumOps) {s : NumericAggState} {inputs : List AggInput} (hok : SumOk s.sumX)
    (h : SafeRun ops s inputs) :
    SumOk (aggRun ops s inputs).sumX ∧
      (aggRun ops s inputs).sumX.value = s.sumX.value + (inputs.map (fun i => i.num.value)).sum ∧
        (aggRun ops s inputs).sumX.dscale = (inputs.map (fun i => i.num.dscale)).foldl max s.sumX.dscale ∧
          (aggRun ops s inputs).N = s.N + inputs.length := by
  induction inputs generalizing s with
  | nil => exact ⟨hok, by simp [aggRun], rfl, rfl⟩
  | cons i is ih =>
    obtain ⟨⟨hres, hscale⟩, hrest⟩ := h
    have hstep := aggStep_stepsTo ops i hok hres hscale
    obtain ⟨hok', hvalue, hdscale, hcount⟩ := ih hstep.sum.ok hrest
    rw [aggRun, List.foldl_cons, ← aggRun]
    refine ⟨hok', ?_, ?_, ?_⟩
    · rw [hvalue, hstep.sum.value, List.map_cons, List.sum_cons, add_assoc]
    · rw [hdscale, hstep.sum.dscale, List.map_cons, List.foldl_cons]
    · rw [hcount, hstep.count, List.length_cons]
      omega

/-- In every run from the fresh state in which no transition takes the reserved digit or hides a display scale, the carried
accumulator is the exact sum of the inputs, with their largest display scale and their number. -/
theorem numeric_agg_run_exact (ops : SumAccumOps) (inputs : List AggInput) (h : SafeRun ops .init inputs) :
    SumsExactly ops inputs := by
  obtain ⟨hok, hvalue, hdscale, hcount⟩ := aggRun_of_safeRun ops sumOk_init h
  have hcarry := ops.carriesTo _ hok.toReserved
  have hzero : NumericAggState.init.sumX.value = 0 := by simp [NumericSumAccum.value, NumericAggState.init]
  refine ⟨?_, ?_, ?_, jitNumericAggTransFast_unchanged⟩
  · rw [hcarry.value, hvalue, hzero, zero_add]
  · rw [hcarry.dscale, hdscale]
    rfl
  · rw [hcount]
    simp [NumericAggState.init]

/-! ## The routines of PostgreSQL -/

namespace NumericC

/-- `accum_sum_carry`: one pass of carry propagation over either array, when inputs were added since the last one. -/
def accumSumCarry (a : NumericSumAccum) : NumericSumAccum :=
  if a.numUncarried = 0 then a
  else
    let pos := (carry nbase a.posDigits).1
    let neg := (carry nbase a.negDigits).1
    { a with
      posDigits := pos
      negDigits := neg
      numUncarried := 0
      haveCarrySpace := a.haveCarrySpace && pos[0]?.getD 0 = 0 && neg[0]?.getD 0 = 0 }

/-- `accum_sum_rescale`: zeros in front when the number's weight is not below the accumulator's or the reserved digits are used
up, zeros behind when the number reaches further down. -/
def accumSumRescale (a : NumericSumAccum) (x : ShortNumeric) : NumericSumAccum :=
  let front := if x.weight ≥ a.weight then (x.weight + 1 - a.weight).toNat else if a.haveCarrySpace then 0 else 1
  let behind := (a.weight + front - x.weight + x.digits.length - (a.ndigits + front)).toNat
  { a with
    ndigits := a.ndigits + front + behind
    weight := a.weight + front
    dscale := max a.dscale x.dscale
    haveCarrySpace := true
    posDigits := List.replicate front 0 ++ a.posDigits ++ List.replicate behind 0
    negDigits := List.replicate front 0 ++ a.negDigits ++ List.replicate behind 0 }

/-- Nothing is carried out of an array whose first digit is reserved. -/
theorem value_carry_reserved (w : ℤ) {ds : List ℤ} (hhead : ds[0]?.getD 0 = 0)
    (hds : ∀ d ∈ ds, 0 ≤ d ∧ d ≤ ((nbase : ℤ) - 1) * nbase) :
    value (nbase : ℚ) w (carry nbase ds).1 = value (nbase : ℚ) w ds := by
  have hb : (0 : ℤ) < nbase := by decide
  have hvalue := value_carry (K := ℚ) (nbase : ℤ) (by norm_num [nbase]) w ds
  have hout : (carry nbase ds).2 = 0 := by
    cases ds with
    | nil => rfl
    | cons d ds =>
      obtain rfl : d = 0 := by simpa using hhead
      obtain ⟨h₀, h₁⟩ := carry_out_lt hb (fun e he => hds e (List.mem_cons_of_mem _ he))
      rw [carry, zero_add]
      exact Int.ediv_eq_zero_of_lt h₀ h₁
  rw [hout] at hvalue
  simpa using hvalue

/-- Carrying brings the digits back into range and keeps the value of the accumulator. -/
theorem carriesTo (a : NumericSumAccum) (h : a.Reserved) : CarriesTo a (accumSumCarry a) := by
  have hb : (0 : ℤ) < nbase := by decide
  by_cases hz : a.numUncarried = 0
  · rw [accumSumCarry, if_pos hz]
    exact ⟨h.toShaped, rfl, rfl, rfl, hz, rfl, by simpa [hz] using h.digits, fun _ => h.heads⟩
  · have hle : ∀ d ∈ a.posDigits ++ a.negDigits, 0 ≤ d ∧ d ≤ ((nbase : ℤ) - 1) * nbase := fun d hd => by
      obtain ⟨h₀, h₁⟩ := h.digits d hd
      refine ⟨h₀, h₁.trans ?_⟩
      have hu := h.uncarried
      have hcast : ((a.numUncarried : ℤ) + 1) ≤ nbase := by
        have : 1 ≤ nbase := by decide
        omega
      exact mul_le_mul_of_nonneg_left hcast (by decide)
    have hpos := value_carry_reserved a.weight h.heads.1 (fun d hd => hle d (List.mem_append_left _ hd))
    have hneg := value_carry_reserved a.weight h.heads.2 (fun d hd => hle d (List.mem_append_right _ hd))
    rw [accumSumCarry, if_neg hz]
    refine ⟨⟨?_, ?_⟩, rfl, rfl, rfl, rfl, ?_, ?_, ?_⟩
    · simpa using h.pos_length
    · simpa using h.neg_length
    · simp only [NumericSumAccum.value, hpos, hneg]
    · intro d hd
      have : 0 ≤ d ∧ d < nbase := by
        rcases List.mem_append.mp hd with hd | hd
        · exact carry_digits hb _ d hd
        · exact carry_digits hb _ d hd
      omega
    · intro hspace
      simp only [Bool.and_eq_true, decide_eq_true_eq] at hspace
      exact ⟨hspace.1.2, hspace.2⟩

/-- Rescaling makes room for the digits of the input and keeps the value of the accumulator. -/
theorem rescalesTo (a : NumericSumAccum) (x : ShortNumeric) (hshaped : a.Shaped)
    (hspace : a.haveCarrySpace = true → a.HeadsZero) : RescalesTo a x (accumSumRescale a x) := by
  obtain ⟨front, hfront⟩ : ∃ n, n = if x.weight ≥ a.weight then (x.weight + 1 - a.weight).toNat
    else if a.haveCarrySpace then 0 else 1 := ⟨_, rfl⟩
  have hlow : x.weight < a.weight + front ∧ (front = 0 → a.haveCarrySpace = true) := by
    subst hfront
    split
    · omega
    · cases a.haveCarrySpace <;> simp <;> omega
  have hheads : ∀ (ds : List ℤ) (n : Nat), (front = 0 → ds[0]?.getD 0 = 0) →
      (List.replicate front 0 ++ ds ++ List.replicate n 0)[0]?.getD 0 = 0 := by
    intro ds n h
    cases hf : front with
    | zero =>
      have := h hf
      cases ds with
      | nil => cases n <;> simp [List.replicate_succ]
      | cons d ds => simpa using this
    | succ k => simp [List.replicate_succ]
  have hmem : ∀ (ds : List ℤ) (n : Nat) (d : ℤ), d ∈ List.replicate front 0 ++ ds ++ List.replicate n 0 → d = 0 ∨ d ∈ ds := by
    intro ds n d hd
    simp only [List.mem_append, List.mem_replicate] at hd
    tauto
  simp only [accumSumRescale, ← hfront]
  refine ⟨⟨?_, ?_⟩, rfl, rfl, ?_, ?_, hlow.1, ?_, rfl, ?_, ?_⟩
  · simp only [List.length_append, List.length_replicate, hshaped.pos_length]
    omega
  · simp only [List.length_append, List.length_replicate, hshaped.neg_length]
    omega
  · simp only [NumericSumAccum.value, value_pad]
  · intro bound hb hdigits d hd
    rcases List.mem_append.mp hd with hd | hd
    · rcases hmem _ _ _ hd with rfl | hd
      · exact ⟨le_refl _, hb⟩
      · exact hdigits d (List.mem_append_left _ hd)
    · rcases hmem _ _ _ hd with rfl | hd
      · exact ⟨le_refl _, hb⟩
      · exact hdigits d (List.mem_append_right _ hd)
  · push_cast
    omega
  · exact hheads _ _ (fun h0 => (hspace (hlow.2 h0)).1)
  · exact hheads _ _ (fun h0 => (hspace (hlow.2 h0)).2)

/-- PostgreSQL's routines do what the fast path relies on. -/
def ops : SumAccumOps := ⟨accumSumCarry, accumSumRescale, carriesTo, rescalesTo⟩

end NumericC

/-- A run over 1, 1, a zero and a half is safe, and sums to five halves: the second 1 is added in place. -/
theorem numeric_agg_run_exact_five_halves :
    SumsExactly NumericC.ops
      [⟨.single 0 0 1 (by decide), .plain⟩, ⟨.single 0 0 1 (by decide), .plain⟩, ⟨.zero 0 (by decide), .plain⟩,
        ⟨.single (-1) 1 5000 (by decide), .plain⟩] :=
  numeric_agg_run_exact NumericC.ops _
    ⟨by decide, ⟨by decide, ⟨by decide, ⟨by decide, trivial⟩⟩⟩⟩

namespace NumericAggWitness

/-- The inputs 1, 99990000 and 99990000. -/
def inputs : List AggInput :=
  [⟨.single 0 0 1 (by decide), .plain⟩, ⟨.single 1 0 9999 (by decide), .plain⟩, ⟨.single 1 0 9999 (by decide), .plain⟩]

/-- With PostgreSQL's routines, 1 + 99990000 + 99990000 loses its carry and becomes 99980001: after 1 the accumulator has weight
1, and the two numbers of weight 1 are added into its first digit. -/
theorem sum_loses_carry : ¬∀ (ops : SumAccumOps) (inputs : List AggInput), SumsExactly ops inputs := by
  intro h
  have hvalue := (h NumericC.ops inputs).value
  have hrun : (NumericC.ops.accumSumCarry (aggRun NumericC.ops .init inputs).sumX) =
      ⟨2, 1, 0, 0, false, [9998, 1], [0, 0]⟩ := by decide
  rw [hrun] at hvalue
  norm_num [NumericSumAccum.value, inputs, ShortNumeric.value, ShortNumeric.single, nbase] at hvalue

end NumericAggWitness

end PgJitter
