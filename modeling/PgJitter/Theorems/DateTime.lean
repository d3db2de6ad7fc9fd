import PgJitter.Lemmas.DateTime

/-!
# The date and time functions against exact arithmetic

Each of the native functions computes modulo the word and checks, if at all, afterwards. The results say for which operands that is
the exact result.
-/

namespace PgJitter

open Wrapping DateTimeAux

/-! ## Timestamps plus and minus intervals -/

/-- On its fast path, `jit_timestamp_pl_interval` returns the exact sum, or raises when that is no valid timestamp, if and only if
no number that differs from the sum by a multiple of `2 ^ 64` is a valid timestamp; and so does `jit_timestamp_mi_interval` with the
difference. -/
theorem timestamp_interval_right_iff (pgPl pgMi : BitVec 64 → Interval → Except PgError (BitVec 64)) (ts : BitVec 64)
    (span : Interval) (hts : ¬ TimestampNotFinite ts) (hmonth : span.month = 0)
    (htime : span.time ≠ BitVec.intMin 64 ∧ span.time ≠ BitVec.intMax 64) :
    (TimestampExact (jitTimestampPlInterval pgPl ts span) (ts.toInt + span.usecs) ↔
      NoAlias (2 ^ 64) minTimestamp endTimestamp (ts.toInt + span.usecs)) ∧
    (TimestampExact (jitTimestampMiInterval pgMi ts span) (ts.toInt - span.usecs) ↔
      NoAlias (2 ^ 64) minTimestamp endTimestamp (ts.toInt - span.usecs)) := by
  have hfast : span.month = 0 ∧ ¬ TimestampNotFinite ts ∧ span.time ≠ BitVec.intMin 64 ∧ span.time ≠ BitVec.intMax 64 :=
    ⟨hmonth, hts, htime⟩
  unfold jitTimestampPlInterval jitTimestampMiInterval
  rw [if_pos hfast, if_pos hfast]
  exact ⟨timestampExact_iff (toInt_pl ts span), timestampExact_iff (toInt_mi ts span)⟩

/-! ## Dates against timestamps -/

/-- For a valid or infinite date, the comparisons with a timestamp are right if and only if the date is infinite, its product with
the length of a day is a 64-bit number, the timestamp is infinitely late, or the product modulo `2 ^ 64` still lies above the
timestamp; and the cast is right if and only if the date is infinite or lies before the end of the timestamps. -/
theorem date_timestamp_right_iff (pg : PgDateTimestamp) (hpg : pg.Lawful) (d : BitVec 32)
    (hd : IsValidDate d.toInt ∨ DateNotFinite d) (ts : BitVec 64) :
    (DateCmpRight pg d ts ↔
      DateNotFinite d ∨ d.toInt * usecsPerDay < 2 ^ 63 ∨ ts = BitVec.intMax 64 ∨
        ts.toInt < (d.toInt * usecsPerDay).bmod (2 ^ 64)) ∧
    (DateCastRight pg d ↔ DateNotFinite d ∨ d.toInt * usecsPerDay < endTimestamp) := by
  refine ⟨?_, dateCastRight_iff hpg hd⟩
  by_cases hinf : DateNotFinite d
  · exact iff_of_true (dateCmpRight_of_notFinite hpg hinf ts) (Or.inl hinf)
  · rw [dateCmpRight_iff_of_finite pg hinf, or_iff_right hinf]
    exact jitDateCmpTs_right_iff hinf (hd.resolve_right hinf) ts

/-! ## Dates, timestamps and money among themselves -/

/-- When each of the six functions is exact. Moving a date by days is, for a finite date, unless the exact date is a word and not a
valid date; an infinite date may not move. A difference of dates is, unless an infinite date is in it and the difference is a word. A
difference of timestamps is when both are finite and it is a 64-bit number, and a sum or difference of money when it is one. -/
theorem checked_arithmetic_right_iff (d days d' : BitVec 32) (t u m n : BitVec 64) :
    (DateMovedRight (jitDatePli d days) d days.toInt ↔
      (DateNotFinite d ∧ days.toInt = 0) ∨
        (¬ DateNotFinite d ∧ (IsValidDate (d.toInt + days.toInt) ∨ ¬ FitsInt 32 (d.toInt + days.toInt)))) ∧
    (DateMovedRight (jitDateMii d days) d (-days.toInt) ↔
      (DateNotFinite d ∧ -days.toInt = 0) ∨
        (¬ DateNotFinite d ∧ (IsValidDate (d.toInt + -days.toInt) ∨ ¬ FitsInt 32 (d.toInt + -days.toInt)))) ∧
    (DateMiRight (jitDateMi d d') d d' ↔
      ¬ (DateNotFinite d ∨ DateNotFinite d') ∨ ¬ FitsInt 32 (d.toInt - d'.toInt)) ∧
    (TimestampMiRight (jitTimestampMi t u) t u ↔
      ¬ (TimestampNotFinite t ∨ TimestampNotFinite u) ∧ FitsInt 64 (t.toInt - u.toInt)) ∧
    (CashRight (jitCashPl m n) (m.toInt + n.toInt) ↔ FitsInt 64 (m.toInt + n.toInt)) ∧
    (CashRight (jitCashMi m n) (m.toInt - n.toInt) ↔ FitsInt 64 (m.toInt - n.toInt)) := by
  refine ⟨?_, ?_, dateMiRight_iff d d', timestampMiRight_iff t u, ?_, ?_⟩
  · exact dateMovedRight_iff (BitVec.toInt_add d days) (saddOverflow_iff d days)
  · have hneg : d.toInt + -days.toInt = d.toInt - days.toInt := (Int.sub_eq_add_neg).symm
    refine dateMovedRight_iff ?_ ?_
    · rw [hneg, BitVec.toInt_sub]
    · rw [hneg, ssubOverflow_iff]
  · exact cashRight_iff (BitVec.toInt_add m n)
  · exact cashRight_iff BitVec.toInt_sub

namespace DateTimeWitness

/-- PostgreSQL's functions on a timestamp and an interval, where they are not reached. -/
def unreached : BitVec 64 → Interval → Except PgError (BitVec 64) := fun _ _ => .error (.other 0)

/-- A signed word has no alias among the timestamps. -/
theorem noAlias_of_fits {n : Int} (h : FitsInt 64 n) : NoAlias (2 ^ 64) minTimestamp endTimestamp n := by
  intro k hk hwithin
  obtain ⟨hlo, hhi⟩ : minTimestamp ≤ n + k * 2 ^ 64 ∧ n + k * 2 ^ 64 < endTimestamp := hwithin
  simp only [minTimestamp, endTimestamp, FitsInt] at h hlo hhi
  omega

/-- A day and a microsecond after and before the epoch are exact, being near enough to it. -/
theorem day_from_epoch :
    TimestampExact (jitTimestampPlInterval unreached 0#64 ⟨1, 1, 0⟩) 86400000001 ∧
    TimestampExact (jitTimestampMiInterval unreached 0#64 ⟨1, 1, 0⟩) (-86400000001) := by
  have h := timestamp_interval_right_iff unreached unreached 0#64 ⟨1, 1, 0⟩ (by decide) rfl (by decide)
  exact ⟨h.1.2 (noAlias_of_fits (by decide)), h.2.2 (noAlias_of_fits (by decide))⟩

/-- The epoch plus 213503983 days is a few hours of the epoch. -/
theorem days_wrap : ¬ TimestampExact (jitTimestampPlInterval unreached 0#64 ⟨0, 213503983, 0⟩)
    ((0#64).toInt + Interval.usecs ⟨0, 213503983, 0⟩) := by
  intro h
  exact absurd (h.2 (by decide)) (by decide)

/-- Functions that compare and cast as PostgreSQL's do. -/
def pgFns : PgDateTimestamp where
  dateOpTimestamp op d ts := boolGetDatum (op.cond (orderingToInt (cmp (dateInstant d) (timestampInstant ts))))
  dateCmpTimestamp d ts := BitVec.ofInt 64 (orderingToInt (cmp (dateInstant d) (timestampInstant ts)))
  timestampOpDate op ts d := boolGetDatum (op.cond (orderingToInt (cmp (timestampInstant ts) (dateInstant d))))
  timestampCmpDate ts d := BitVec.ofInt 64 (orderingToInt (cmp (timestampInstant ts) (dateInstant d)))
  dateTimestamp d :=
    if DateNotFinite d then .ok (if d = BitVec.intMin 32 then BitVec.intMin 64 else BitVec.intMax 64)
    else if IsValidTimestamp (d.toInt * usecsPerDay) then .ok (jitDateToTimestamp d)
    else .error (.other 0)

theorem pgFns_lawful : pgFns.Lawful where
  dateOp := fun _ _ _ _ => rfl
  dateCmp := fun _ _ _ => rfl
  timestampOp := fun _ _ _ _ => rfl
  timestampCmp := fun _ _ _ => rfl
  cast := fun _ hd => if_pos hd

/-- The day after the epoch against the epoch: it is compared and cast right, and lies after it. -/
theorem next_day_after_epoch :
    DateCmpRight pgFns 1#32 0#64 ∧ DateCastRight pgFns 1#32 ∧ jitDateCmpTimestamp pgFns 1#32 0#64 = 1 := by
  have h := date_timestamp_right_iff pgFns pgFns_lawful 1#32 (by decide) 0#64
  have hcmp : DateCmpRight pgFns 1#32 0#64 := h.1.2 (Or.inr (Or.inl (by decide)))
  refine ⟨hcmp, h.2.2 (Or.inr (by decide)), ?_⟩
  calc jitDateCmpTimestamp pgFns 1#32 0#64 = orderingToInt (cmp (dateInstant 1#32) (timestampInstant 0#64)) := hcmp.dateCmp
    _ = 1 := by decide

/-- A date some 580000 years after the epoch, before a timestamp of the epoch's second week, and cast to the epoch's first day. -/
theorem late_date_wraps : ¬ DateCmpRight pgFns 213503983#32 1000000000000#64 ∧ ¬ DateCastRight pgFns 213503983#32 := by
  constructor
  · intro h
    exact absurd h.dateCmp (by decide)
  · intro h
    rw [DateCastRight, if_neg (by decide)] at h
    obtain ⟨e, he⟩ := h.2 (by decide)
    nomatch he

/-- Infinity minus a day is a finite date, a finite date moves to infinity, an infinite date has a finite distance, and the
differences of far timestamps and the sums of large amounts wrap. -/
theorem unchecked :
    ¬ DateMovedRight (jitDatePli (BitVec.intMax 32) (-1#32)) (BitVec.intMax 32) (-1#32).toInt ∧
    ¬ DateMovedRight (jitDatePli 2145031948#32 2451699#32) 2145031948#32 (2451699#32).toInt ∧
    ¬ DateMiRight (jitDateMi (BitVec.intMax 32) 0#32) (BitVec.intMax 32) 0#32 ∧
    ¬ TimestampMiRight (jitTimestampMi (BitVec.intMax 64) 0#64) (BitVec.intMax 64) 0#64 ∧
    ¬ TimestampMiRight (jitTimestampMi (BitVec.ofInt 64 (endTimestamp - 1)) (BitVec.ofInt 64 minTimestamp))
      (BitVec.ofInt 64 (endTimestamp - 1)) (BitVec.ofInt 64 minTimestamp) ∧
    ¬ CashRight (jitCashPl (BitVec.intMax 64) 1#64) ((BitVec.intMax 64).toInt + (1#64).toInt) := by
  refine ⟨?_, ?_, ?_, ?_, ?_, ?_⟩
  · exact (dateMovedRight_iff (BitVec.toInt_add _ _) (saddOverflow_iff _ _)).not.2 (by decide)
  · exact (dateMovedRight_iff (BitVec.toInt_add _ _) (saddOverflow_iff _ _)).not.2 (by decide)
  · exact (dateMiRight_iff _ _).not.2 (by decide)
  · exact (timestampMiRight_iff _ _).not.2 (by decide)
  · exact (timestampMiRight_iff _ _).not.2 (by decide)
  · exact (cashRight_iff (BitVec.toInt_add _ _)).not.2 (by decide)

end DateTimeWitness

end PgJitter
