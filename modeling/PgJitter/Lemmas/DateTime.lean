import PgJitter.DateTime
import PgJitter.Lib.Wrapping

/-!
# Arithmetic on dates and timestamps

The words that the native functions compute, as reductions of the exact numbers.
-/

namespace PgJitter

namespace DateTimeAux

open Wrapping

/-! ## What is computed -/

/-- The length of a day as a word. -/
theorem toInt_usecsPerDay : (BitVec.ofInt 64 usecsPerDay).toInt = usecsPerDay := by decide

/-- A date as a number of microseconds. -/
theorem toInt_jitDateToTimestamp (d : BitVec 32) : (jitDateToTimestamp d).toInt = (d.toInt * usecsPerDay).bmod (2 ^ 64) := by
  rw [jitDateToTimestamp, BitVec.toInt_mul, BitVec.toInt_signExtend_of_le (by decide), toInt_usecsPerDay]

/-- The two unchecked additions. -/
theorem toInt_pl (ts : BitVec 64) (span : Interval) :
    (ts + span.day.signExtend 64 * BitVec.ofInt 64 usecsPerDay + span.time).toInt =
      (ts.toInt + span.usecs).bmod (2 ^ 64) := by
  have hday := toInt_jitDateToTimestamp span.day
  rw [jitDateToTimestamp] at hday
  rw [BitVec.toInt_add, BitVec.toInt_add, hday, Interval.usecs, Int.bmod_add_bmod, ← Int.add_assoc, Int.add_assoc ts.toInt,
    Int.add_comm (Int.bmod _ _), ← Int.add_assoc ts.toInt, Int.add_bmod_bmod]
  congr 1
  omega

/-- The two unchecked subtractions. -/
theorem toInt_mi (ts : BitVec 64) (span : Interval) :
    (ts - span.day.signExtend 64 * BitVec.ofInt 64 usecsPerDay - span.time).toInt =
      (ts.toInt - span.usecs).bmod (2 ^ 64) := by
  have hday := toInt_jitDateToTimestamp span.day
  rw [jitDateToTimestamp] at hday
  rw [BitVec.toInt_sub, BitVec.toInt_sub, hday, Interval.usecs, Int.bmod_sub_bmod]
  rw [show ∀ a b c : Int, a - b - c = a - c - b from fun a b c => by omega, Int.sub_bmod_bmod]
  congr 1
  omega

/-! ## The checks -/

/-- The check on the reduced sum is exact when no other residue of the sum is a valid timestamp. -/
theorem timestampExact_iff {v : BitVec 64} {n : Int} (hv : v.toInt = n.bmod (2 ^ 64)) :
    TimestampExact (if IsValidTimestamp v.toInt then .ok v else .error .timestampOutOfRange) n ↔
      NoAlias (2 ^ 64) minTimestamp endTimestamp n := by
  have hlo : -((2 ^ 64 : Nat) / 2 : Int) ≤ minTimestamp := by decide
  have hhi : endTimestamp ≤ (((2 ^ 64 : Nat) : Int) + 1) / 2 := by decide
  rw [← check_exact_iff (by decide) hlo hhi, ← hv]
  constructor
  · intro h hw
    by_cases hn : IsValidTimestamp n
    · obtain ⟨u, hu, hun⟩ := h.1 hn
      rw [if_pos hw] at hu
      cases hu
      exact hun
    · have := h.2 hn
      rw [if_pos hw] at this
      nomatch this
  · intro h
    refine ⟨fun hn => ?_, fun hn => ?_⟩
    · have he : v.toInt = n := hv.trans (bmod_eq_of_within (by decide) hlo hhi hn)
      exact ⟨v, by rw [if_pos (by rw [he]; exact hn)], he⟩
    · rw [if_neg]
      intro hw
      rw [h hw] at hw
      exact hn hw

/-! ## Dates against timestamps -/

/-- The words that the source writes are the infinities. -/
theorem dateNotFinite_iff {d : BitVec 32} : d = 0x7FFFFFFF#32 ∨ d = 0x80000000#32 ↔ DateNotFinite d := Iff.rfl

/-- On a finite date the fast path compares the reduced product. -/
theorem jitDateCmpTs_of_finite {d : BitVec 32} (hd : ¬ DateNotFinite d) (ts : BitVec 64) :
    jitDateCmpTs d ts = orderingToInt (cmp ((d.toInt * usecsPerDay).bmod (2 ^ 64)) ts.toInt) := by
  unfold jitDateCmpTs
  rw [if_neg (dateNotFinite_iff.not.2 hd), orderingToInt_cmp]
  simp only [BitVec.slt, decide_eq_true_eq, toInt_jitDateToTimestamp]

theorem jitDateCmpTs_ne {d : BitVec 32} (hd : ¬ DateNotFinite d) (ts : BitVec 64) : jitDateCmpTs d ts ≠ -2 := by
  rw [jitDateCmpTs_of_finite hd]
  cases cmp ((d.toInt * usecsPerDay).bmod (2 ^ 64)) ts.toInt <;> decide

/-- Every entry of the table is the macro at its comparison. -/
theorem dateTimestampFn_eq (op : CmpOp) : dateTimestampFn op = defDateCmpTs op := by cases op <;> rfl

theorem timestampDateFn_eq (op : CmpOp) : timestampDateFn op = defTsCmpDate op := by cases op <;> rfl

/-- On a finite date all fourteen functions are right when the fast path's comparison is. -/
theorem dateCmpRight_iff_of_finite (pg : PgDateTimestamp) {d : BitVec 32} (hd : ¬ DateNotFinite d) (ts : BitVec 64) :
    DateCmpRight pg d ts ↔ jitDateCmpTs d ts = orderingToInt (cmp (dateInstant d) (timestampInstant ts)) := by
  have hne := jitDateCmpTs_ne hd ts
  constructor
  · intro h
    have := h.dateCmp
    rwa [jitDateCmpTimestamp, if_pos hne] at this
  · intro h
    have hswap := orderingToInt_cmp_swap (dateInstant d) (timestampInstant ts)
    refine ⟨fun op => ?_, ?_, fun op => ?_, ?_, ?_⟩
    · rw [dateTimestampFn_eq, defDateCmpTs, ← h]
      simp only [ne_eq, hne, not_false_eq_true, if_true, boolToInt]
    · rw [jitDateCmpTimestamp, ← h]
      simp only [ne_eq, hne, not_false_eq_true, if_true]
    · rw [timestampDateFn_eq, defTsCmpDate, hswap, ← h]
      simp only [ne_eq, hne, not_false_eq_true, if_true, boolToInt]
    · rw [jitTimestampCmpDate, hswap, ← h]
      simp only [ne_eq, hne, not_false_eq_true, if_true]
    · rw [jitTimestampCmpDate, jitDateCmpTimestamp]
      simp only [ne_eq, hne, not_false_eq_true, if_true]

/-- Small results survive the cast of the fallback. -/
theorem datumToInt32_boolGetDatum (b : Bool) : datumToInt32 (boolGetDatum b) = boolToInt b := by cases b <;> decide

theorem datumToInt32_orderingToInt (o : Ordering) : datumToInt32 (BitVec.ofInt 64 (orderingToInt o)) = orderingToInt o := by
  cases o <;> decide

/-- On an infinite date all fourteen functions are PostgreSQL's. -/
theorem dateCmpRight_of_notFinite {pg : PgDateTimestamp} (hpg : pg.Lawful) {d : BitVec 32} (hd : DateNotFinite d)
    (ts : BitVec 64) : DateCmpRight pg d ts := by
  have hr : jitDateCmpTs d ts = -2 := if_pos (dateNotFinite_iff.2 hd)
  have hdate : jitDateCmpTimestamp pg d ts = orderingToInt (cmp (dateInstant d) (timestampInstant ts)) := by
    rw [jitDateCmpTimestamp, hr, hpg.dateCmp d ts hd]
    exact datumToInt32_orderingToInt _
  have htimestamp : jitTimestampCmpDate pg ts d = orderingToInt (cmp (timestampInstant ts) (dateInstant d)) := by
    rw [jitTimestampCmpDate, hr, hpg.timestampCmp ts d hd]
    exact datumToInt32_orderingToInt _
  refine ⟨fun op => ?_, hdate, fun op => ?_, htimestamp, ?_⟩
  · rw [dateTimestampFn_eq, defDateCmpTs, hr, hpg.dateOp op d ts hd]
    exact datumToInt32_boolGetDatum _
  · rw [timestampDateFn_eq, defTsCmpDate, hr, hpg.timestampOp op ts d hd]
    exact datumToInt32_boolGetDatum _
  · rw [hdate, htimestamp, orderingToInt_cmp_swap]

/-- A finite date is a number of microseconds. -/
theorem dateInstant_of_finite {d : BitVec 32} (hd : ¬ DateNotFinite d) :
    dateInstant d = (((d.toInt * usecsPerDay : Int) : WithTop Int) : WithBot (WithTop Int)) := by
  rw [DateNotFinite, not_or] at hd
  rw [dateInstant, if_neg hd.2, if_neg hd.1]

/-- The order of finite points of time is that of the numbers. -/
theorem cmp_coe (a b : Int) :
    cmp (((a : WithTop Int)) : WithBot (WithTop Int)) (((b : WithTop Int)) : WithBot (WithTop Int)) = cmp a b := by
  unfold cmp cmpUsing
  simp only [WithBot.coe_lt_coe, WithTop.coe_lt_coe]

/-- The reduced product is even, so it is never the greatest word. -/
theorem bmod_product_ne_max (n : Int) : (n * usecsPerDay).bmod (2 ^ 64) ≠ 2 ^ 63 - 1 := by
  intro h
  obtain ⟨k, hk⟩ := exists_bmod_eq (2 ^ 64) (n * usecsPerDay)
  rw [h, usecsPerDay] at hk
  omega

/-- The fast path compares rightly a valid date when its product is a word, when the timestamp is infinitely late, or when the
reduced product still lies above the timestamp. -/
theorem jitDateCmpTs_right_iff {d : BitVec 32} (hd : ¬ DateNotFinite d) (hv : IsValidDate d.toInt) (ts : BitVec 64) :
    jitDateCmpTs d ts = orderingToInt (cmp (dateInstant d) (timestampInstant ts)) ↔
      d.toInt * usecsPerDay < 2 ^ 63 ∨ ts = BitVec.intMax 64 ∨ ts.toInt < (d.toInt * usecsPerDay).bmod (2 ^ 64) := by
  have hmax := bmod_product_ne_max d.toInt
  have hlo : -(2 ^ 63) < d.toInt * usecsPerDay := by
    have h1 := hv.1
    rw [usecsPerDay]
    omega
  have hself : d.toInt * usecsPerDay < 2 ^ 63 → (d.toInt * usecsPerDay).bmod (2 ^ 64) = d.toInt * usecsPerDay := by
    intro h
    exact bmod_eq_self_of_within (by decide) ⟨by omega, by omega⟩
  have hle : (d.toInt * usecsPerDay).bmod (2 ^ 64) < 2 ^ 63 := Int.bmod_lt (by decide)
  rw [jitDateCmpTs_of_finite hd, dateInstant_of_finite hd]
  generalize (d.toInt * usecsPerDay).bmod (2 ^ 64) = w at hmax hself hle ⊢
  generalize d.toInt * usecsPerDay = n at hlo hself ⊢
  unfold timestampInstant
  by_cases hmin : ts = BitVec.intMin 64
  · -- every finite date is after the infinitely early timestamp
    subst hmin
    have hts : (BitVec.intMin 64).toInt = -(2 ^ 63) := by decide
    have hne : BitVec.intMin 64 ≠ BitVec.intMax 64 := by decide
    rw [if_pos rfl, hts, orderingToInt_cmp, orderingToInt_cmp]
    simp only [not_lt_bot, WithBot.bot_lt_coe, if_true, if_false, hne, false_or]
    grind
  · rw [if_neg hmin]
    by_cases hend : ts = BitVec.intMax 64
    · subst hend
      have hts : (BitVec.intMax 64).toInt = 2 ^ 63 - 1 := by decide
      rw [if_pos rfl, hts, orderingToInt_cmp, orderingToInt_cmp]
      simp only [WithBot.coe_lt_coe, WithTop.coe_lt_top, if_true, true_or, or_true, iff_true]
      rw [if_pos (by omega)]
    · have hlt : ts.toInt < 2 ^ 63 := BitVec.toInt_lt
      rw [if_neg hend, cmp_coe, orderingToInt_cmp, orderingToInt_cmp]
      grind

/-- The cast is right when the product is a valid timestamp. -/
theorem dateCastRight_iff {pg : PgDateTimestamp} (hpg : pg.Lawful) {d : BitVec 32} (hv : IsValidDate d.toInt ∨ DateNotFinite d) :
    DateCastRight pg d ↔ DateNotFinite d ∨ d.toInt * usecsPerDay < endTimestamp := by
  unfold DateCastRight jitDateTimestamp
  by_cases hd : DateNotFinite d
  · rw [if_pos hd, if_pos (dateNotFinite_iff.2 hd), hpg.cast d hd]
    refine iff_of_true ⟨_, rfl, ?_⟩ (Or.inl hd)
    rcases hd with rfl | rfl <;> decide
  · have hv : IsValidDate d.toInt := hv.resolve_right hd
    have hlo : minTimestamp ≤ d.toInt * usecsPerDay := by
      have h1 := hv.1
      rw [minTimestamp, usecsPerDay]
      omega
    rw [if_neg hd, if_neg (dateNotFinite_iff.not.2 hd), or_iff_right hd]
    constructor
    · intro h
      by_contra hend
      obtain ⟨e, he⟩ := h.2 fun h => hend h.2
      nomatch he
    · intro hend
      refine ⟨fun hw => ⟨_, rfl, ?_⟩, fun hw => absurd ⟨hlo, hend⟩ hw⟩
      rw [toInt_jitDateToTimestamp]
      exact bmod_eq_of_within (by decide) (by decide) (by decide) hw

/-! ## Checked and unchecked words -/

/-- A reduced number is the number exactly when it fits. -/
theorem bmod_eq_self_iff {n : Int} (w : Nat) (hw : 0 < w) : n.bmod (2 ^ w) = n ↔ FitsInt w n := by
  obtain ⟨w, rfl⟩ : ∃ v, w = v + 1 := ⟨w - 1, by omega⟩
  have hp : ((2 ^ (w + 1) : Nat) : Int) = 2 * 2 ^ w := by push_cast; ring
  rw [Int.bmod_eq_iff (by positivity), hp, FitsInt, Nat.add_sub_cancel]
  have h0 : (0 : Int) < 2 ^ w := by positivity
  generalize (2 : Int) ^ w = p at h0 ⊢
  simp only [Int.sub_self, Int.dvd_zero, and_true]
  omega

/-- The overflow check of an addition is exact. -/
theorem saddOverflow_iff {w : Nat} (a b : BitVec w) : BitVec.saddOverflow a b = true ↔ ¬ FitsInt w (a.toInt + b.toInt) := by
  simp only [BitVec.saddOverflow, Bool.or_eq_true, decide_eq_true_eq]
  omega

/-- The overflow check of a subtraction is exact. -/
theorem ssubOverflow_iff {w : Nat} (a b : BitVec w) : BitVec.ssubOverflow a b = true ↔ ¬ FitsInt w (a.toInt - b.toInt) := by
  simp only [BitVec.ssubOverflow, Bool.or_eq_true, decide_eq_true_eq]
  omega

/-- A checked result in the range of a date or of the word. -/
theorem exactOrError_checked_iff {w : Nat} (hw : 0 < w) {valid : Prop} {n : Int} (hvalid : valid → FitsInt w n) {v : BitVec w}
    (hv : v.toInt = n.bmod (2 ^ w)) {c : Prop} [Decidable c] (hc : c ↔ ¬ FitsInt w n) (err : PgError) :
    ExactOrError (if c then .error err else .ok v) valid n ↔ valid ∨ ¬ FitsInt w n := by
  by_cases hfit : FitsInt w n
  · rw [if_neg (fun h => hc.1 h hfit)]
    refine ⟨fun h => ?_, fun h => ⟨fun _ => ⟨v, rfl, hv.trans ((bmod_eq_self_iff w hw).2 hfit)⟩, fun hn => ?_⟩⟩
    · by_contra hn
      obtain ⟨e, he⟩ := h.2 fun hvl => hn (Or.inl hvl)
      nomatch he
    · exact absurd (h.resolve_right fun h => h hfit) hn
  · rw [if_pos (hc.2 hfit)]
    exact ⟨fun _ => Or.inr hfit, fun _ => ⟨fun h => absurd (hvalid h) hfit, fun _ => ⟨err, rfl⟩⟩⟩

/-- An unchecked result is right exactly when it fits. -/
theorem cashRight_iff {v : BitVec 64} {n : Int} (hv : v.toInt = n.bmod (2 ^ 64)) : CashRight (.ok v) n ↔ FitsInt 64 n := by
  constructor
  · intro h
    by_contra hn
    obtain ⟨e, he⟩ := h.2 hn
    nomatch he
  · intro h
    exact ⟨fun _ => ⟨v, rfl, hv.trans ((bmod_eq_self_iff 64 (by decide)).2 h)⟩, fun hn => absurd h hn⟩

/-- A valid date is a word. -/
theorem fitsInt_of_isValidDate {n : Int} (h : IsValidDate n) : FitsInt 32 n := by
  rw [FitsInt]
  omega

/-- A date moved without a look at the infinities: it is right when the exact date is valid or no word; an infinite date stays only
when it does not move. -/
theorem dateMovedRight_iff {d v : BitVec 32} {n : Int} (hv : v.toInt = (d.toInt + n).bmod (2 ^ 32)) {c : Prop} [Decidable c]
    (hc : c ↔ ¬ FitsInt 32 (d.toInt + n)) :
    DateMovedRight (if c then .error .integerOutOfRange else .ok v) d n ↔
      (DateNotFinite d ∧ n = 0) ∨ (¬ DateNotFinite d ∧ (IsValidDate (d.toInt + n) ∨ ¬ FitsInt 32 (d.toInt + n))) := by
  have hdfit : FitsInt 32 d.toInt := ⟨BitVec.le_toInt d, BitVec.toInt_lt⟩
  unfold DateMovedRight
  by_cases hd : DateNotFinite d
  · simp only [hd, if_true, true_and, not_true_eq_false, false_and, or_false]
    constructor
    · intro h
      split at h
      · nomatch h
      · rename_i hfit
        have hfit : FitsInt 32 (d.toInt + n) := not_not.1 fun hf => hfit (hc.2 hf)
        have hvd : v = d := Except.ok.inj h
        rw [(bmod_eq_self_iff 32 (by decide)).2 hfit, hvd] at hv
        omega
    · rintro rfl
      rw [Int.add_zero] at hv hc
      rw [if_neg (fun h => hc.1 h hdfit)]
      congr 1
      apply BitVec.eq_of_toInt_eq
      rw [hv, (bmod_eq_self_iff 32 (by decide)).2 hdfit]
  · simp only [hd, if_false, false_and, not_false_eq_true, true_and, false_or]
    exact exactOrError_checked_iff (by decide) fitsInt_of_isValidDate hv hc _

/-- A difference of dates without a look at the infinities. -/
theorem dateMiRight_iff (a b : BitVec 32) :
    DateMiRight (jitDateMi a b) a b ↔ ¬ (DateNotFinite a ∨ DateNotFinite b) ∨ ¬ FitsInt 32 (a.toInt - b.toInt) := by
  have hov := ssubOverflow_iff a b
  unfold DateMiRight jitDateMi
  by_cases hinf : DateNotFinite a ∨ DateNotFinite b
  · rw [if_pos hinf, or_iff_right (not_not.2 hinf), ← hov]
    constructor
    · rintro ⟨e, he⟩
      by_contra hn
      rw [if_neg hn] at he
      nomatch he
    · intro h
      exact ⟨_, if_pos h⟩
  · rw [if_neg hinf]
    refine iff_of_true ?_ (Or.inl hinf)
    refine (exactOrError_checked_iff (by decide) (fun h => h) ?_ hov _).2 (Classical.em _)
    rw [BitVec.toInt_sub]

/-- A truncated division, with a rest on the side of the number. -/
theorem tdiv_usecsPerDay (a : Int) :
    ∃ r, a = a.tdiv usecsPerDay * usecsPerDay + r ∧ (0 ≤ a → 0 ≤ r ∧ r < usecsPerDay) ∧ (a ≤ 0 → -usecsPerDay < r ∧ r ≤ 0) := by
  have hpos : 0 < usecsPerDay := by decide
  refine ⟨a.tmod usecsPerDay, (Int.tdiv_mul_add_tmod a usecsPerDay).symm, fun h => ?_, fun h => ?_⟩
  · exact ⟨Int.tmod_nonneg _ h, Int.tmod_lt_of_pos a hpos⟩
  · have hneg : 0 ≤ (-a).tmod usecsPerDay := Int.tmod_nonneg _ (by omega)
    rw [Int.neg_tmod] at hneg
    exact ⟨Int.lt_tmod_of_pos a hpos, by omega⟩

/-- The low half of a word that is small. -/
theorem toInt_setWidth_of_fits {q : BitVec 64} (h : FitsInt 32 q.toInt) : (q.setWidth 32).toInt = q.toInt := by
  have hdvd : q.toInt.bmod (2 ^ 32) = (q.toNat : Int).bmod (2 ^ 32) := by
    rw [BitVec.toInt_eq_toNat_bmod, Int.bmod_bmod_of_dvd (by decide)]
  rw [BitVec.toInt_setWidth, ← hdvd]
  exact (bmod_eq_self_iff 32 (by decide)).2 h

/-- The days of a difference are a word. -/
theorem toInt_days (diff : BitVec 64) :
    ((diff.sdiv (BitVec.ofInt 64 usecsPerDay)).setWidth 32).toInt = diff.toInt.tdiv usecsPerDay := by
  have hlo : -(2 ^ 63) ≤ diff.toInt := BitVec.le_toInt diff
  have hhi : diff.toInt < 2 ^ 63 := BitVec.toInt_lt
  obtain ⟨r, hr, hnonneg, hneg⟩ := tdiv_usecsPerDay diff.toInt
  have hq : FitsInt 32 (diff.toInt.tdiv usecsPerDay) := by
    rw [FitsInt]
    rw [usecsPerDay] at hr hnonneg hneg ⊢
    omega
  have hsdiv : (diff.sdiv (BitVec.ofInt 64 usecsPerDay)).toInt = diff.toInt.tdiv usecsPerDay := by
    rw [BitVec.toInt_sdiv, toInt_usecsPerDay]
    refine (bmod_eq_self_iff 64 (by decide)).2 ?_
    rw [FitsInt] at hq ⊢
    omega
  rw [toInt_setWidth_of_fits (hsdiv ▸ hq), hsdiv]

/-- The interval holds the difference as it was computed. -/
theorem jitTimestampMi_eq (ts1 ts2 : BitVec 64) :
    ∃ span, jitTimestampMi ts1 ts2 = .ok span ∧ span.month = 0 ∧ span.usecs = (ts1 - ts2).toInt ∧
      span.day.toInt = (ts1 - ts2).toInt.tdiv usecsPerDay := by
  refine ⟨_, rfl, rfl, ?_, toInt_days (ts1 - ts2)⟩
  have hday := toInt_days (ts1 - ts2)
  rw [Interval.usecs]
  dsimp only
  generalize ts1 - ts2 = word at hday ⊢
  rw [BitVec.toInt_sub, BitVec.toInt_mul, BitVec.toInt_signExtend_of_le (by decide), hday, toInt_usecsPerDay]
  have hlo : -(2 ^ 63) ≤ word.toInt := BitVec.le_toInt word
  have hhi : word.toInt < 2 ^ 63 := BitVec.toInt_lt
  generalize word.toInt = diff at hlo hhi ⊢
  obtain ⟨r, hr, hnonneg, hneg⟩ := tdiv_usecsPerDay diff
  have hpos : usecsPerDay = 86400000000 := rfl
  have hmul : FitsInt 64 (diff.tdiv usecsPerDay * usecsPerDay) := by
    rw [FitsInt]
    omega
  have hrest : FitsInt 64 (diff - diff.tdiv usecsPerDay * usecsPerDay) := by
    rw [FitsInt]
    omega
  rw [(bmod_eq_self_iff 64 (by decide)).2 hmul, (bmod_eq_self_iff 64 (by decide)).2 hrest]
  omega

/-- An interval without months is finite. -/
theorem not_notFinite_of_month {span : Interval} (h : span.month = 0) : ¬ span.NotFinite := by
  rintro (rfl | rfl) <;> exact absurd h (by decide)

/-- The interval between two timestamps is right for finite timestamps whose difference is a word. -/
theorem timestampMiRight_iff (a b : BitVec 64) :
    TimestampMiRight (jitTimestampMi a b) a b ↔
      ¬ (TimestampNotFinite a ∨ TimestampNotFinite b) ∧ FitsInt 64 (a.toInt - b.toInt) := by
  obtain ⟨span, hr, hmonth, husecs, hday⟩ := jitTimestampMi_eq a b
  rw [TimestampMiRight, hr]
  by_cases hinf : TimestampNotFinite a ∨ TimestampNotFinite b
  · rw [if_pos hinf]
    exact iff_of_false (fun h => not_notFinite_of_month hmonth (h span rfl)) fun h => h.1 hinf
  · rw [if_neg hinf]
    constructor
    · intro h
      refine ⟨hinf, ?_⟩
      by_contra hn
      obtain ⟨e, he⟩ := h.2 hn
      nomatch he
    · rintro ⟨-, hfit⟩
      have hsub : (a - b).toInt = a.toInt - b.toInt := by
        rw [BitVec.toInt_sub]
        exact (bmod_eq_self_iff 64 (by decide)).2 hfit
      refine ⟨fun _ => ⟨span, rfl, hmonth, ?_, ?_⟩, fun hn => absurd hfit hn⟩
      · rw [husecs, hsub]
      · rw [hday, hsub]

end DateTimeAux

end PgJitter
