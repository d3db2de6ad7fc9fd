import PgJitter.NumericAgg

/-!
# Helpers: adding digits to an accumulator

One transition, by the fast path or by PostgreSQL, adds the number's value to the accumulator and keeps its first digits reserved
(`AddsTo`), as long as the number's digits land below them.
-/

namespace PgJitter

open Positional

/-! ## The digit loop -/

@[simp] theorem length_addDigits (accumDigits : List ℤ) (idx : Nat) (ds : List ℤ) :
    (addDigits accumDigits idx ds).length = accumDigits.length := by
  induction ds generalizing accumDigits idx with
  | nil => rfl
  | cons d ds ih => rw [addDigits, ih, List.length_modify]

/-- The digit loop adds the value of the digits, counted from the place it starts at. -/
theorem value_addDigits (w : ℤ) (accumDigits : List ℤ) (idx : Nat) (ds : List ℤ)
    (hroom : idx + ds.length ≤ accumDigits.length) :
    value (nbase : ℚ) w (addDigits accumDigits idx ds) = value (nbase : ℚ) w accumDigits + value (nbase : ℚ) (w - idx) ds := by
  induction ds generalizing accumDigits idx with
  | nil => simp [addDigits]
  | cons d ds ih =>
    rw [List.length_cons] at hroom
    rw [addDigits, ih _ _ (by rw [List.length_modify]; omega), value_modify_add _ _ _ _ _ (by omega), value_cons]
    rw [show w - ((idx + 1 : ℕ) : ℤ) = w - idx - 1 by push_cast; ring]
    ring

/-- Each place of the array gets at most one digit, and the places before the start none. -/
theorem getElem?_addDigits {accumDigits ds : List ℤ} {idx i : Nat} {e : ℤ} (hds : ∀ d ∈ ds, 0 ≤ d ∧ d < nbase)
    (h : (addDigits accumDigits idx ds)[i]? = some e) :
    ∃ a, accumDigits[i]? = some a ∧ a ≤ e ∧ e ≤ a + (nbase - 1) ∧ (i < idx → e = a) := by
  induction ds generalizing accumDigits idx with
  | nil =>
    refine ⟨e, h, le_refl e, ?_, fun _ => rfl⟩
    simp [nbase]
  | cons d ds ih =>
    obtain ⟨hd₀, hd₁⟩ := hds d List.mem_cons_self
    obtain ⟨a', ha', hle, hub, hlt⟩ := ih (fun x hx => hds x (List.mem_cons_of_mem _ hx)) h
    rw [List.getElem?_modify] at ha'
    cases ha : accumDigits[i]? with
    | none => simp [ha] at ha'
    | some a =>
      simp only [ha, Option.map_eq_map, Option.map_some, Option.some.injEq] at ha'
      refine ⟨a, rfl, ?_⟩
      by_cases hi : idx = i
      · rw [if_pos hi] at ha'
        have := hlt (by omega)
        exact ⟨by omega, by omega, fun h' => by omega⟩
      · rw [if_neg hi] at ha'
        subst ha'
        exact ⟨hle, hub, fun h' => hlt (by omega)⟩

/-! ## Adding a number to an accumulator -/

/-- The digits of a number, added from a place after the first where its weight belongs, add its value, stay below the reserved
first digit and grow every sum by one digit at most. -/
theorem addSigned_spec {a : NumericSumAccum} (x : ShortNumeric) {idx : Nat} {bound : ℤ} (hshaped : a.Shaped)
    (hheads : a.HeadsZero) (hdigits : a.DigitsLe bound) (hidx : 1 ≤ idx) (hweight : (idx : ℤ) = a.weight - x.weight)
    (hroom : idx + x.digits.length ≤ a.ndigits) :
    (a.addSigned x.neg idx x.digits).Shaped ∧ (a.addSigned x.neg idx x.digits).HeadsZero ∧
      (a.addSigned x.neg idx x.digits).DigitsLe (bound + (nbase - 1)) ∧
        (a.addSigned x.neg idx x.digits).value = a.value + x.value := by
  have hbounds : ∀ d ∈ x.digits, 0 ≤ d ∧ d < nbase := fun d hd => ⟨x.digit_nonneg d hd, x.digit_lt d hd⟩
  have hw : a.weight - idx = x.weight := by omega
  have hnb : (0 : ℤ) ≤ nbase - 1 := by simp [nbase]
  -- what the loop makes of one of the two arrays
  have hkey : ∀ ds : List ℤ, ds.length = a.ndigits → ds[0]?.getD 0 = 0 → (∀ d ∈ ds, 0 ≤ d ∧ d ≤ bound) →
      (addDigits ds idx x.digits)[0]?.getD 0 = 0 ∧
        (∀ d ∈ addDigits ds idx x.digits, 0 ≤ d ∧ d ≤ bound + (nbase - 1)) ∧
          Positional.value (nbase : ℚ) a.weight (addDigits ds idx x.digits) =
            Positional.value (nbase : ℚ) a.weight ds + Positional.value (nbase : ℚ) x.weight x.digits := by
    intro ds hlen hhead hle
    refine ⟨?_, fun d hd => ?_, ?_⟩
    · cases h : (addDigits ds idx x.digits)[0]? with
      | none => rfl
      | some e =>
        obtain ⟨e', he', -, -, heq⟩ := getElem?_addDigits hbounds h
        rw [he'] at hhead
        rw [heq (by omega)]
        exact hhead
    · obtain ⟨i, hi⟩ := List.mem_iff_getElem?.mp hd
      obtain ⟨e', he', hge, hub, -⟩ := getElem?_addDigits hbounds hi
      have := hle e' (List.mem_of_getElem? he')
      omega
    · rw [value_addDigits _ _ _ _ (by omega), hw]
  have hpos := hkey a.posDigits hshaped.pos_length hheads.1 (fun d hd => hdigits d (List.mem_append_left _ hd))
  have hneg := hkey a.negDigits hshaped.neg_length hheads.2 (fun d hd => hdigits d (List.mem_append_right _ hd))
  have hwiden : ∀ d ∈ a.posDigits ++ a.negDigits, 0 ≤ d ∧ d ≤ bound + (nbase - 1) := fun d hd => by
    have := hdigits d hd
    omega
  cases hsign : x.neg with
  | false =>
    refine ⟨⟨by simp [NumericSumAccum.addSigned, hshaped.pos_length], by simp [NumericSumAccum.addSigned, hshaped.neg_length]⟩,
      ⟨hpos.1, hheads.2⟩, fun d hd => ?_, ?_⟩
    · rcases List.mem_append.mp hd with hd | hd
      · exact hpos.2.1 d hd
      · exact hwiden d (List.mem_append_right _ hd)
    · simp only [NumericSumAccum.value, NumericSumAccum.addSigned, Bool.false_eq_true, if_false, hpos.2.2, ShortNumeric.value,
        hsign]
      ring
  | true =>
    refine ⟨⟨by simp [NumericSumAccum.addSigned, hshaped.pos_length], by simp [NumericSumAccum.addSigned, hshaped.neg_length]⟩,
      ⟨hheads.1, hneg.1⟩, fun d hd => ?_, ?_⟩
    · rcases List.mem_append.mp hd with hd | hd
      · exact hwiden d (List.mem_append_left _ hd)
      · exact hneg.2.1 d hd
    · simp only [NumericSumAccum.value, NumericSumAccum.addSigned, if_true, hneg.2.2, ShortNumeric.value, hsign]
      ring

@[simp] theorem addSigned_weight (a : NumericSumAccum) (neg : Bool) (idx : Nat) (ds : List ℤ) :
    (a.addSigned neg idx ds).weight = a.weight := by cases neg <;> rfl

@[simp] theorem addSigned_ndigits (a : NumericSumAccum) (neg : Bool) (idx : Nat) (ds : List ℤ) :
    (a.addSigned neg idx ds).ndigits = a.ndigits := by cases neg <;> rfl

@[simp] theorem addSigned_dscale (a : NumericSumAccum) (neg : Bool) (idx : Nat) (ds : List ℤ) :
    (a.addSigned neg idx ds).dscale = a.dscale := by cases neg <;> rfl

@[simp] theorem addSigned_numUncarried (a : NumericSumAccum) (neg : Bool) (idx : Nat) (ds : List ℤ) :
    (a.addSigned neg idx ds).numUncarried = a.numUncarried := by cases neg <;> rfl

@[simp] theorem addSigned_haveCarrySpace (a : NumericSumAccum) (neg : Bool) (idx : Nat) (ds : List ℤ) :
    (a.addSigned neg idx ds).haveCarrySpace = a.haveCarrySpace := by cases neg <;> rfl

/-- The accumulator between transitions: reserved first digits, and `have_carry_space` set as soon as there are digits. -/
structure SumOk (a : NumericSumAccum) : Prop extends a.Reserved where
  space : a.ndigits ≠ 0 → a.haveCarrySpace = true

/-- The accumulator after a transition by `x`. -/
structure AddsTo (a : NumericSumAccum) (x : ShortNumeric) (a' : NumericSumAccum) : Prop where
  ok : SumOk a'
  value : a'.value = a.value + x.value
  dscale : a'.dscale = max a.dscale x.dscale

/-- The fresh accumulator. -/
theorem sumOk_init : SumOk NumericAggState.init.sumX where
  pos_length := rfl
  neg_length := rfl
  heads := ⟨rfl, rfl⟩
  digits := by simp [NumericSumAccum.DigitsLe, NumericAggState.init]
  uncarried := Nat.zero_le _
  space := by simp [NumericAggState.init]

/-- Adding the digits of `x` below reserved first digits is a transition by `x`, whatever the display scale was. -/
theorem addsTo_of_addSigned {a b : NumericSumAccum} (x : ShortNumeric) (idx dscale : Nat) (hshaped : b.Shaped) (hheads : b.HeadsZero)
    (hdigits : b.DigitsLe ((nbase - 1) * (b.numUncarried + 1))) (hidx : 1 ≤ idx) (hweight : (idx : ℤ) = b.weight - x.weight)
    (hroom : idx + x.digits.length ≤ b.ndigits) (hun : b.numUncarried < nbase - 1) (hspace : b.haveCarrySpace = true)
    (hvalue : b.value = a.value) (hdscale : dscale = max a.dscale x.dscale) :
    AddsTo a x { b.addSigned x.neg idx x.digits with numUncarried := b.numUncarried + 1, dscale := dscale } := by
  obtain ⟨h₁, h₂, h₃, h₄⟩ := addSigned_spec x hshaped hheads hdigits hidx hweight hroom
  refine ⟨⟨⟨⟨h₁.1, h₁.2⟩, h₂, ?_, ?_⟩, fun _ => ?_⟩, ?_, hdscale⟩
  · intro d hd
    have := h₃ d hd
    push_cast
    constructor <;> linarith
  · exact hun
  · simpa using hspace
  · rw [← hvalue]
    exact h₄

/-- PostgreSQL's own addition is a transition. -/
theorem accumSumAdd_addsTo (ops : SumAccumOps) {a : NumericSumAccum} (x : ShortNumeric) (h : SumOk a) :
    AddsTo a x (ops.accumSumAdd a x) := by
  -- the accumulator after the carry, if one was due
  obtain ⟨b, hb, hshaped, hspace, hdigits, hun, hvalue, hdscale⟩ : ∃ b,
      (if a.numUncarried = nbase - 1 then ops.accumSumCarry a else a) = b ∧ b.Shaped ∧
        (b.haveCarrySpace = true → b.HeadsZero) ∧ b.DigitsLe ((nbase - 1) * (b.numUncarried + 1)) ∧
          b.numUncarried < nbase - 1 ∧ b.value = a.value ∧ b.dscale = a.dscale := by
    by_cases hdue : a.numUncarried = nbase - 1
    · have hc := ops.carriesTo a h.toReserved
      refine ⟨ops.accumSumCarry a, if_pos hdue, hc.toShaped, hc.space, ?_, ?_, hc.value, hc.dscale⟩
      · rw [hc.numUncarried]
        simpa using hc.digits
      · rw [hc.numUncarried]
        decide
    · have := h.uncarried
      exact ⟨a, if_neg hdue, h.toShaped, fun _ => h.heads, h.digits, by omega, rfl, rfl⟩
  have hr := ops.rescalesTo b x hshaped hspace
  have hw := hr.weight
  have hroom := hr.room
  have hbound : (0 : ℤ) ≤ (nbase - 1) * (b.numUncarried + 1) := mul_nonneg (by simp [nbase]) (by positivity)
  have hadd := addsTo_of_addSigned (a := a) x ((ops.accumSumRescale b x).weight - x.weight).toNat
    (ops.accumSumRescale b x).dscale hr.toShaped hr.heads (by rw [hr.numUncarried]; exact hr.digits _ hbound hdigits)
    (by omega) (by omega) (by omega) (by rw [hr.numUncarried]; exact hun) hr.space (hr.value.trans hvalue)
    (by rw [hr.dscale, hdscale])
  rw [SumAccumOps.accumSumAdd, hb]
  simpa using hadd

/-! ## One transition of the aggregate -/

@[simp] theorem noteScale_sumX (s : NumericAggState) (dscale : Nat) : (s.noteScale dscale).sumX = s.sumX := by
  unfold NumericAggState.noteScale
  split
  · rfl
  · split <;> rfl

@[simp] theorem noteScale_N (s : NumericAggState) (dscale : Nat) : (s.noteScale dscale).N = s.N := by
  unfold NumericAggState.noteScale
  split
  · rfl
  · split <;> rfl

/-- When the fast path returns 0, the state is as it was. -/
theorem jitNumericAggTransFast_unchanged (state : Option NumericAggState) (datum : Option NumericDatum)
    (h : (jitNumericAggTransFast state datum).1 = 0) : (jitNumericAggTransFast state datum).2 = state := by
  unfold jitNumericAggTransFast at h ⊢
  split
  · rename_i s d
    simp only at h ⊢
    split
    · rfl
    · rename_i hdr digits hparse
      simp only [hparse] at h ⊢
      split
      · rename_i hz
        rw [if_pos hz] at h
        simp at h
      · rename_i hz
        rw [if_neg hz] at h
        split
        · rfl
        · rename_i hu
          rw [if_neg hu] at h
          split
          · rfl
          · rename_i hw
            rw [if_neg hw] at h
            split
            · rfl
            · rename_i hroom
              rw [if_neg hroom] at h
              simp at h
  · rfl

/-- The input would be added by the fast path at the weight of the accumulator, into the digit reserved for the carry. -/
def TakesReservedDigit (s : NumericAggState) (i : AggInput) : Prop :=
  i.storage = .plain ∧ i.num.digits ≠ [] ∧ i.num.weight = s.sumX.weight ∧ s.sumX.numUncarried < nbase - 1 ∧
    i.num.digits.length ≤ s.sumX.ndigits

/-- The input is a zero in place whose display scale the accumulator has not seen. -/
def HidesScale (s : NumericAggState) (i : AggInput) : Prop :=
  i.storage = .plain ∧ i.num.digits = [] ∧ i.num.dscale > s.sumX.dscale

instance (s : NumericAggState) (i : AggInput) : Decidable (TakesReservedDigit s i) :=
  inferInstanceAs (Decidable (_ ∧ _ ∧ _ ∧ _ ∧ _))

instance (s : NumericAggState) (i : AggInput) : Decidable (HidesScale s i) :=
  inferInstanceAs (Decidable (_ ∧ _ ∧ _))

/-- What one transition does to the state: the accumulator has the number added, and `N` counts it. -/
structure StepsTo (s : NumericAggState) (x : ShortNumeric) (s' : NumericAggState) : Prop where
  sum : AddsTo s.sumX x s'.sumX
  count : s'.N = s.N + 1

theorem numericAvgAccum_stepsTo (ops : SumAccumOps) {s : NumericAggState} (x : ShortNumeric) (h : SumOk s.sumX) :
    StepsTo s x (ops.numericAvgAccum s x) :=
  ⟨accumSumAdd_addsTo ops x h, rfl⟩

/-- The fast path on a number in place: either it leaves the state to PostgreSQL, or it takes a step of its own. -/
theorem jitNumericAggTransFast_cases {s : NumericAggState} (x : ShortNumeric) (h : SumOk s.sumX)
    (hres : ¬TakesReservedDigit s ⟨x, .plain⟩) (hscale : ¬HidesScale s ⟨x, .plain⟩) :
    jitNumericAggTransFast (some s) (some x.datum) = (0, some s) ∨
      ∃ s', jitNumericAggTransFast (some s) (some x.datum) = (1, some s') ∧ StepsTo s x s' := by
  simp only [jitNumericAggTransFast, numericParseDatum_datum, numericHdrDscale_header, numericHdrNeg_header,
    numericHdrWeight_header]
  by_cases hz : x.digits = []
  · -- a zero: only the counters move
    right
    have hle : x.dscale ≤ s.sumX.dscale := by
      by_contra hgt
      exact hscale ⟨rfl, hz, Nat.lt_of_not_le hgt⟩
    refine ⟨_, by rw [if_pos (by simp [hz])], ⟨by simpa using h, ?_, ?_⟩, by simp⟩
    · simp [ShortNumeric.value, hz]
    · simp [hle]
  · have hlen : x.digits.length ≠ 0 := fun h0 => hz (List.length_eq_zero_iff.mp h0)
    rw [if_neg hlen]
    by_cases hun : s.sumX.numUncarried ≥ nbase - 1
    · exact Or.inl (if_pos hun)
    · rw [if_neg hun]
      by_cases hw : s.sumX.ndigits = 0 ∨ x.weight > s.sumX.weight
      · exact Or.inl (if_pos hw)
      · rw [if_neg hw]
        obtain ⟨hnd, hwle⟩ : s.sumX.ndigits ≠ 0 ∧ x.weight ≤ s.sumX.weight := by omega
        by_cases hroom : (s.sumX.weight - x.weight).toNat + x.digits.length > s.sumX.ndigits
        · exact Or.inl (if_pos hroom)
        · rw [if_neg hroom]
          right
          -- the weight is below the accumulator's, so the reserved digit is not touched
          have hfits : x.digits.length ≤ s.sumX.ndigits := by omega
          have hwlt : x.weight ≠ s.sumX.weight := fun heq => hres ⟨rfl, hz, heq, by omega, hfits⟩
          refine ⟨_, rfl, ?_, by simp⟩
          have hadd := addsTo_of_addSigned (a := s.sumX) x (s.sumX.weight - x.weight).toNat (max s.sumX.dscale x.dscale)
            h.toShaped h.heads h.digits (by omega) (by omega) (by omega) (by omega) (h.space hnd) rfl rfl
          by_cases hds : x.dscale > s.sumX.dscale
          · simp only [addSigned_dscale, addSigned_numUncarried, if_pos hds, noteScale_sumX]
            rwa [Nat.max_eq_right (by omega)] at hadd
          · simp only [addSigned_dscale, addSigned_numUncarried, if_neg hds, noteScale_sumX]
            rw [Nat.max_eq_left (by omega)] at hadd
            simpa using hadd

/-- Every transition that neither takes the reserved digit nor hides a scale adds its number. -/
theorem aggStep_stepsTo (ops : SumAccumOps) {s : NumericAggState} (i : AggInput) (h : SumOk s.sumX)
    (hres : ¬TakesReservedDigit s i) (hscale : ¬HidesScale s i) : StepsTo s i.num (aggStep ops s i) := by
  obtain ⟨x, storage⟩ := i
  cases storage with
  | plain =>
    rcases jitNumericAggTransFast_cases x h hres hscale with hfast | ⟨s', hfast, hstep⟩
    · simp only [aggStep, AggInput.datum, hfast]
      exact numericAvgAccum_stepsTo ops x h
    · simp only [aggStep, AggInput.datum, hfast]
      exact hstep
  | external => exact numericAvgAccum_stepsTo ops x h
  | compressed => exact numericAvgAccum_stepsTo ops x h

end PgJitter
