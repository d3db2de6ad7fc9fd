import PgJitter.CmpOp
import PgJitter.Expr
import Mathlib.Order.WithBot
import Mathlib.Algebra.Ring.Int.Defs

/-!
# Dates, timestamps and money

The native functions for dates, timestamps, intervals and money that `jit_direct_fns` puts in the place of PostgreSQL's
(`src/pg_jit_funcs.c`), with 64-bit arithmetic taken modulo `2 ^ 64`. A date counts days and a timestamp microseconds, both from
2000-01-01; the least and the greatest value of either type are its infinities. A pointer to an interval is the interval. What is
left to PostgreSQL's own function is a parameter.
-/

namespace PgJitter

/-- The errors, by their `errmsg`. -/
inductive PgError where
  /-- `integer out of range`, from `jit_error_int4_overflow`. -/
  | integerOutOfRange
  /-- `timestamp out of range`. -/
  | timestampOutOfRange
  /-- An error of PostgreSQL's own function. -/
  | other (n : Nat)
  deriving DecidableEq, Repr

/-! ## The ranges of the types -/

/-- `USECS_PER_DAY`. -/
def usecsPerDay : Int := 86400000000

/-- `MIN_TIMESTAMP`. -/
def minTimestamp : Int := -211813488000000000

/-- `END_TIMESTAMP`. -/
def endTimestamp : Int := 9223371331200000000

/-- `IS_VALID_TIMESTAMP`. -/
abbrev IsValidTimestamp (t : Int) : Prop := minTimestamp ≤ t ∧ t < endTimestamp

/-- `TIMESTAMP_NOT_FINITE`. -/
abbrev TimestampNotFinite (t : BitVec 64) : Prop := t = BitVec.intMin 64 ∨ t = BitVec.intMax 64

/-- `IS_VALID_DATE`. -/
abbrev IsValidDate (d : Int) : Prop := -2451545 ≤ d ∧ d < 2145031949

/-- `DATE_NOT_FINITE`. -/
abbrev DateNotFinite (d : BitVec 32) : Prop := d = BitVec.intMax 32 ∨ d = BitVec.intMin 32

/-- `Interval`. -/
structure Interval where
  time : BitVec 64
  day : BitVec 32
  month : BitVec 32
  deriving DecidableEq, Repr

/-- `INTERVAL_NOT_FINITE`: every field has its least value, or every field its greatest. -/
def Interval.NotFinite (span : Interval) : Prop :=
  span = ⟨BitVec.intMin 64, BitVec.intMin 32, BitVec.intMin 32⟩ ∨ span = ⟨BitVec.intMax 64, BitVec.intMax 32, BitVec.intMax 32⟩

/-! ## Timestamps and intervals -/

/-- `jit_timestamp_pl_interval`. -/
def jitTimestampPlInterval (pg : BitVec 64 → Interval → Except PgError (BitVec 64)) (ts : BitVec 64) (span : Interval) :
    Except PgError (BitVec 64) :=
  if span.month = 0 ∧ ¬ TimestampNotFinite ts ∧ span.time ≠ BitVec.intMin 64 ∧ span.time ≠ BitVec.intMax 64 then
    let result := ts
    let result := result + span.day.signExtend 64 * BitVec.ofInt 64 usecsPerDay
    let result := result + span.time
    if IsValidTimestamp result.toInt then .ok result else .error .timestampOutOfRange
  else pg ts span

/-- `jit_timestamp_mi_interval`. -/
def jitTimestampMiInterval (pg : BitVec 64 → Interval → Except PgError (BitVec 64)) (ts : BitVec 64) (span : Interval) :
    Except PgError (BitVec 64) :=
  if span.month = 0 ∧ ¬ TimestampNotFinite ts ∧ span.time ≠ BitVec.intMin 64 ∧ span.time ≠ BitVec.intMax 64 then
    let result := ts
    let result := result - span.day.signExtend 64 * BitVec.ofInt 64 usecsPerDay
    let result := result - span.time
    if IsValidTimestamp result.toInt then .ok result else .error .timestampOutOfRange
  else pg ts span

/-- `jit_timestamp_mi`: the difference as whole days and what is left of it. The division truncates. -/
def jitTimestampMi (ts1 ts2 : BitVec 64) : Except PgError Interval :=
  let diff := ts1 - ts2
  let day := (diff.sdiv (BitVec.ofInt 64 usecsPerDay)).setWidth 32
  .ok { month := 0, day := day, time := diff - day.signExtend 64 * BitVec.ofInt 64 usecsPerDay }

/-! ## Dates -/

/-- `jit_date_pli`. -/
def jitDatePli (date days : BitVec 32) : Except PgError (BitVec 32) :=
  if BitVec.saddOverflow date days then .error .integerOutOfRange else .ok (date + days)

/-- `jit_date_mii`. -/
def jitDateMii (date days : BitVec 32) : Except PgError (BitVec 32) :=
  if BitVec.ssubOverflow date days then .error .integerOutOfRange else .ok (date - days)

/-- `jit_date_mi`. -/
def jitDateMi (a b : BitVec 32) : Except PgError (BitVec 32) :=
  if BitVec.ssubOverflow a b then .error .integerOutOfRange else .ok (a - b)

/-! ## Dates against timestamps -/

/-- PostgreSQL's own functions on a date and a timestamp. -/
structure PgDateTimestamp where
  dateOpTimestamp : CmpOp → BitVec 32 → BitVec 64 → Datum
  dateCmpTimestamp : BitVec 32 → BitVec 64 → Datum
  timestampOpDate : CmpOp → BitVec 64 → BitVec 32 → Datum
  timestampCmpDate : BitVec 64 → BitVec 32 → Datum
  dateTimestamp : BitVec 32 → Except PgError (BitVec 64)

/-- The cast of a Datum to `int32`. -/
def datumToInt32 (d : Datum) : Int := (d.setWidth 32).toInt

/-- `jit_date_to_timestamp`. -/
def jitDateToTimestamp (dateVal : BitVec 32) : BitVec 64 := dateVal.signExtend 64 * BitVec.ofInt 64 usecsPerDay

/-- `jit_date_cmp_ts`. -/
def jitDateCmpTs (dateVal : BitVec 32) (ts : BitVec 64) : Int :=
  if dateVal = 0x7FFFFFFF#32 ∨ dateVal = 0x80000000#32 then -2
  else
    let dt := jitDateToTimestamp dateVal
    if dt.slt ts then -1 else if ts.slt dt then 1 else 0

/-- `DEF_DATE_CMP_TS`. -/
def defDateCmpTs (op : CmpOp) (pg : PgDateTimestamp) (a : BitVec 32) (b : BitVec 64) : Int :=
  let r := jitDateCmpTs a b
  if r ≠ -2 then if op.cond r then 1 else 0 else datumToInt32 (pg.dateOpTimestamp op a b)

/-- `jit_date_eq_timestamp`. -/
def jitDateEqTimestamp := defDateCmpTs .eq

/-- `jit_date_ne_timestamp`. -/
def jitDateNeTimestamp := defDateCmpTs .ne

/-- `jit_date_lt_timestamp`. -/
def jitDateLtTimestamp := defDateCmpTs .lt

/-- `jit_date_le_timestamp`. -/
def jitDateLeTimestamp := defDateCmpTs .le

/-- `jit_date_gt_timestamp`. -/
def jitDateGtTimestamp := defDateCmpTs .gt

/-- `jit_date_ge_timestamp`. -/
def jitDateGeTimestamp := defDateCmpTs .ge

/-- `jit_date_cmp_timestamp`. -/
def jitDateCmpTimestamp (pg : PgDateTimestamp) (a : BitVec 32) (b : BitVec 64) : Int :=
  let r := jitDateCmpTs a b
  if r ≠ -2 then r else datumToInt32 (pg.dateCmpTimestamp a b)

/-- `DEF_TS_CMP_DATE`. -/
def defTsCmpDate (op : CmpOp) (pg : PgDateTimestamp) (a : BitVec 64) (b : BitVec 32) : Int :=
  let r := jitDateCmpTs b a
  if r ≠ -2 then
    let r := -r
    if op.cond r then 1 else 0
  else datumToInt32 (pg.timestampOpDate op a b)

/-- `jit_timestamp_eq_date`. -/
def jitTimestampEqDate := defTsCmpDate .eq

/-- `jit_timestamp_ne_date`. -/
def jitTimestampNeDate := defTsCmpDate .ne

/-- `jit_timestamp_lt_date`. -/
def jitTimestampLtDate := defTsCmpDate .lt

/-- `jit_timestamp_le_date`. -/
def jitTimestampLeDate := defTsCmpDate .le

/-- `jit_timestamp_gt_date`. -/
def jitTimestampGtDate := defTsCmpDate .gt

/-- `jit_timestamp_ge_date`. -/
def jitTimestampGeDate := defTsCmpDate .ge

/-- `jit_timestamp_cmp_date`. -/
def jitTimestampCmpDate (pg : PgDateTimestamp) (a : BitVec 64) (b : BitVec 32) : Int :=
  let r := jitDateCmpTs b a
  if r ≠ -2 then -r else datumToInt32 (pg.timestampCmpDate a b)

/-- The entries of `jit_direct_fns` for `date_eq_timestamp` and its kin. -/
def dateTimestampFn : CmpOp → PgDateTimestamp → BitVec 32 → BitVec 64 → Int
  | .eq => jitDateEqTimestamp
  | .ne => jitDateNeTimestamp
  | .lt => jitDateLtTimestamp
  | .le => jitDateLeTimestamp
  | .gt => jitDateGtTimestamp
  | .ge => jitDateGeTimestamp

/-- The entries for `timestamp_eq_date` and its kin. -/
def timestampDateFn : CmpOp → PgDateTimestamp → BitVec 64 → BitVec 32 → Int
  | .eq => jitTimestampEqDate
  | .ne => jitTimestampNeDate
  | .lt => jitTimestampLtDate
  | .le => jitTimestampLeDate
  | .gt => jitTimestampGtDate
  | .ge => jitTimestampGeDate

/-- `jit_date_timestamp`. -/
def jitDateTimestamp (pg : PgDateTimestamp) (dateVal : BitVec 32) : Except PgError (BitVec 64) :=
  if dateVal = 0x7FFFFFFF#32 ∨ dateVal = 0x80000000#32 then pg.dateTimestamp dateVal
  else .ok (jitDateToTimestamp dateVal)

/-! ## Money -/

/-- `jit_cash_pl`. -/
def jitCashPl (a b : BitVec 64) : Except PgError (BitVec 64) := .ok (a + b)

/-- `jit_cash_mi`. -/
def jitCashMi (a b : BitVec 64) : Except PgError (BitVec 64) := .ok (a - b)

/-! ## What the functions are for -/

/-- A result is exact: the number, when it is in the valid range of its type, and else an error. -/
def ExactOrError {w : Nat} (r : Except PgError (BitVec w)) (valid : Prop) (n : Int) : Prop :=
  (valid → ∃ v, r = .ok v ∧ v.toInt = n) ∧ (¬ valid → ∃ e, r = .error e)

/-- A timestamp result is exact: the number, when it is a valid timestamp, and else `timestamp out of range`. -/
def TimestampExact (r : Except PgError (BitVec 64)) (n : Int) : Prop :=
  (IsValidTimestamp n → ∃ v, r = .ok v ∧ v.toInt = n) ∧ (¬ IsValidTimestamp n → r = .error .timestampOutOfRange)

/-- A number has a two's complement word of `w` bits. -/
abbrev FitsInt (w : Nat) (n : Int) : Prop := -2 ^ (w - 1) ≤ n ∧ n < 2 ^ (w - 1)

/-- A date moved by `n` days: an infinite date stays, and else the exact date, when it is valid, or an error. -/
def DateMovedRight (r : Except PgError (BitVec 32)) (d : BitVec 32) (n : Int) : Prop :=
  if DateNotFinite d then r = .ok d else ExactOrError r (IsValidDate (d.toInt + n)) (d.toInt + n)

/-- The days between two dates: exact for finite dates, and an error for infinite ones. -/
def DateMiRight (r : Except PgError (BitVec 32)) (a b : BitVec 32) : Prop :=
  if DateNotFinite a ∨ DateNotFinite b then ∃ e, r = .error e
  else ExactOrError r (FitsInt 32 (a.toInt - b.toInt)) (a.toInt - b.toInt)

/-- A sum or difference of money: exact or an error. -/
def CashRight (r : Except PgError (BitVec 64)) (n : Int) : Prop := ExactOrError r (FitsInt 64 n) n

/-- The microseconds of an interval without months. -/
def Interval.usecs (span : Interval) : Int := span.day.toInt * usecsPerDay + span.time.toInt

/-- The interval between two timestamps: for finite timestamps, the exact difference in whole days and the rest, when it is a 64-bit
number, and else an error; for infinite ones, no finite interval. -/
def TimestampMiRight (r : Except PgError Interval) (a b : BitVec 64) : Prop :=
  if TimestampNotFinite a ∨ TimestampNotFinite b then ∀ span, r = .ok span → span.NotFinite
  else (FitsInt 64 (a.toInt - b.toInt) → ∃ span, r = .ok span ∧ span.month = 0 ∧ span.usecs = a.toInt - b.toInt ∧
      span.day.toInt = (a.toInt - b.toInt).tdiv usecsPerDay) ∧
    (¬ FitsInt 64 (a.toInt - b.toInt) → ∃ e, r = .error e)

/-- The order of the points of time: that of the integers, with something below and something above them. -/
instance instantLT : LT (WithBot (WithTop Int)) := @WithBot.instLT _ (@WithTop.instLT _ Int.instLTInt)

instance instantDecidableLT : DecidableLT (WithBot (WithTop Int)) :=
  @WithBot.decidableLT _ (@WithTop.instLT _ Int.instLTInt) (@WithTop.decidableLT _ Int.instLTInt Int.decLt)

/-- A date as a point of time: the infinities below and above everything. -/
def dateInstant (d : BitVec 32) : WithBot (WithTop Int) :=
  if d = BitVec.intMin 32 then ⊥ else if d = BitVec.intMax 32 then ((⊤ : WithTop Int) : WithBot (WithTop Int))
  else (((d.toInt * usecsPerDay : Int) : WithTop Int) : WithBot (WithTop Int))

/-- A timestamp as a point of time. -/
def timestampInstant (t : BitVec 64) : WithBot (WithTop Int) :=
  if t = BitVec.intMin 64 then ⊥ else if t = BitVec.intMax 64 then ((⊤ : WithTop Int) : WithBot (WithTop Int))
  else (((t.toInt : Int) : WithTop Int) : WithBot (WithTop Int))

/-- What PostgreSQL's own functions do on an infinite date: they order it below or above every finite timestamp, and turn it into
the infinite timestamp. -/
structure PgDateTimestamp.Lawful (pg : PgDateTimestamp) : Prop where
  dateOp : ∀ op d ts, DateNotFinite d →
    pg.dateOpTimestamp op d ts = boolGetDatum (op.cond (orderingToInt (cmp (dateInstant d) (timestampInstant ts))))
  dateCmp : ∀ d ts, DateNotFinite d →
    pg.dateCmpTimestamp d ts = BitVec.ofInt 64 (orderingToInt (cmp (dateInstant d) (timestampInstant ts)))
  timestampOp : ∀ op ts d, DateNotFinite d →
    pg.timestampOpDate op ts d = boolGetDatum (op.cond (orderingToInt (cmp (timestampInstant ts) (dateInstant d))))
  timestampCmp : ∀ ts d, DateNotFinite d →
    pg.timestampCmpDate ts d = BitVec.ofInt 64 (orderingToInt (cmp (timestampInstant ts) (dateInstant d)))
  cast : ∀ d, DateNotFinite d →
    pg.dateTimestamp d = .ok (if d = BitVec.intMin 32 then BitVec.intMin 64 else BitVec.intMax 64)

/-- The twelve comparisons and the two three-way forms follow the order of the points of time, and the two argument orders mirror
each other. -/
structure DateCmpRight (pg : PgDateTimestamp) (d : BitVec 32) (ts : BitVec 64) : Prop where
  dateOp : ∀ op, dateTimestampFn op pg d ts =
    boolToInt (op.cond (orderingToInt (cmp (dateInstant d) (timestampInstant ts))))
  dateCmp : jitDateCmpTimestamp pg d ts = orderingToInt (cmp (dateInstant d) (timestampInstant ts))
  timestampOp : ∀ op, timestampDateFn op pg ts d =
    boolToInt (op.cond (orderingToInt (cmp (timestampInstant ts) (dateInstant d))))
  timestampCmp : jitTimestampCmpDate pg ts d = orderingToInt (cmp (timestampInstant ts) (dateInstant d))
  mirror : jitTimestampCmpDate pg ts d = -jitDateCmpTimestamp pg d ts

/-- The cast keeps the infinities, and gives the exact product or an error. -/
def DateCastRight (pg : PgDateTimestamp) (d : BitVec 32) : Prop :=
  if DateNotFinite d then ∃ ts, jitDateTimestamp pg d = .ok ts ∧ timestampInstant ts = dateInstant d
  else ExactOrError (jitDateTimestamp pg d) (IsValidTimestamp (d.toInt * usecsPerDay)) (d.toInt * usecsPerDay)

end PgJitter
