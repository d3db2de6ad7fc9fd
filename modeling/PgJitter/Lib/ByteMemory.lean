import Mathlib.Data.BitVec
import Mathlib.Data.List.Basic
import Mathlib.Tactic.Ring

/-!
# Memory as a function

A memory gives a value for every address. A list is read from and written to consecutive addresses, and a write is a frame: what
does not meet it stays. Numbers are written as their bytes, the lowest first.
-/

namespace ByteMemory

variable {α : Type}

/-- The values at `n` addresses from `off` on. -/
def read (m : Nat → α) (off n : Nat) : List α := (List.range n).map fun i => m (off + i)

/-- The memory with a list written from `off` on. -/
def write (m : Nat → α) (off : Nat) (bs : List α) : Nat → α := fun a => if off ≤ a then (bs[a - off]?).getD (m a) else m a

@[simp] theorem length_read (m : Nat → α) (off n : Nat) : (read m off n).length = n := by simp [read]

theorem getElem?_read (m : Nat → α) (off n : Nat) {i : Nat} (hi : i < n) : (read m off n)[i]? = some (m (off + i)) := by
  simp [read, hi]

/-- Two reads that see the same values are equal. -/
theorem read_congr {m m' : Nat → α} {off n : Nat} (h : ∀ a, off ≤ a → a < off + n → m' a = m a) :
    read m' off n = read m off n := by
  unfold read
  refine List.map_congr_left fun i hi => ?_
  have hi := List.mem_range.mp hi
  exact h (off + i) (Nat.le_add_right off i) (Nat.add_lt_add_left hi off)

/-- A read of two ranges side by side. -/
theorem read_add (m : Nat → α) (off n k : Nat) : read m off (n + k) = read m off n ++ read m (off + n) k := by
  unfold read
  rw [List.range_add, List.map_append, List.map_map]
  refine congrArg _ (List.map_congr_left fun i _ => ?_)
  rw [Function.comp_apply, Nat.add_assoc]

/-- A part of what a read gave is a read of its own. -/
theorem read_part {m : Nat → α} {off n : Nat} (xs ys zs : List α) (h : read m off n = xs ++ ys ++ zs) :
    read m (off + xs.length) ys.length = ys := by
  have hn : n = xs.length + ys.length + zs.length := by
    have hlen := congrArg List.length h
    simpa [Nat.add_assoc] using hlen
  rw [hn, read_add, read_add] at h
  have hfirst := (List.append_inj h (by simp)).1
  exact (List.append_inj hfirst (by simp)).2

/-! ## Writes -/

theorem write_of_lt (m : Nat → α) {off a : Nat} (bs : List α) (h : a < off) : write m off bs a = m a :=
  if_neg (Nat.not_le_of_lt h)

theorem write_of_ge (m : Nat → α) {off a : Nat} (bs : List α) (h : off + bs.length ≤ a) : write m off bs a = m a := by
  have hend : bs[a - off]? = none := List.getElem?_eq_none (by omega)
  rw [write, if_pos (by omega), hend]
  rfl

/-- A write is read back. -/
theorem read_write (m : Nat → α) (off : Nat) (bs : List α) : read (write m off bs) off bs.length = bs := by
  refine List.ext_getElem? fun i => ?_
  rcases Nat.lt_or_ge i bs.length with hi | hi
  · rw [getElem?_read _ _ _ hi, write, if_pos (Nat.le_add_right off i), Nat.add_sub_cancel_left,
      List.getElem?_eq_getElem hi]
    rfl
  · rw [List.getElem?_eq_none hi, List.getElem?_eq_none (by simpa using hi)]

/-- A read beside a write sees the old memory. -/
theorem read_write_of_disjoint (m : Nat → α) {off off' n : Nat} (bs : List α)
    (h : off' + n ≤ off ∨ off + bs.length ≤ off') : read (write m off bs) off' n = read m off' n := by
  refine read_congr fun a hle hlt => ?_
  rcases h with h | h
  · exact write_of_lt m bs (Nat.lt_of_lt_of_le hlt h)
  · exact write_of_ge m bs (h.trans hle)

/-! ## Numbers -/

/-- The `w` low bytes of a number. -/
def leBytes : Nat → Nat → List (BitVec 8)
  | 0, _ => []
  | w + 1, v => BitVec.ofNat 8 v :: leBytes w (v / 256)

/-- The number that bytes stand for. -/
def leNat : List (BitVec 8) → Nat
  | [] => 0
  | b :: bs => b.toNat + 256 * leNat bs

@[simp] theorem length_leBytes (w v : Nat) : (leBytes w v).length = w := by
  induction w generalizing v with
  | zero => rfl
  | succ w ih => rw [leBytes, List.length_cons, ih]

/-- A number that fits is read back. -/
theorem leNat_leBytes {w v : Nat} (h : v < 256 ^ w) : leNat (leBytes w v) = v := by
  induction w generalizing v with
  | zero =>
    rw [Nat.pow_zero, Nat.lt_one_iff] at h
    rw [h]
    rfl
  | succ w ih =>
    have hdiv : v / 256 < 256 ^ w := by
      rw [Nat.pow_succ] at h
      exact Nat.div_lt_of_lt_mul (by rwa [Nat.mul_comm] at h)
    rw [leBytes, leNat, ih hdiv, BitVec.toNat_ofNat]
    exact Nat.mod_add_div v 256

theorem leNat_lt (bs : List (BitVec 8)) : leNat bs < 256 ^ bs.length := by
  induction bs with
  | nil => exact Nat.one_pos
  | cons b bs ih =>
    have hb := b.isLt
    rw [leNat, List.length_cons, Nat.pow_succ]
    omega

/-- Bytes are found again in their number. -/
theorem leNat_injective {bs cs : List (BitVec 8)} (hlen : bs.length = cs.length) (h : leNat bs = leNat cs) : bs = cs := by
  induction bs generalizing cs with
  | nil => exact (List.eq_nil_of_length_eq_zero hlen.symm).symm
  | cons b bs ih =>
    cases cs with
    | nil => exact absurd hlen (Nat.succ_ne_zero _)
    | cons c cs =>
      have hb := b.isLt
      have hc := c.isLt
      rw [leNat, leNat] at h
      have hhead : b = c := BitVec.eq_of_toNat_eq (by omega)
      rw [hhead, ih (Nat.succ.inj hlen) (by omega)]

theorem leNat_append (bs cs : List (BitVec 8)) : leNat (bs ++ cs) = leNat bs + 256 ^ bs.length * leNat cs := by
  induction bs with
  | nil => simp [leNat]
  | cons b bs ih =>
    rw [List.cons_append, leNat, leNat, ih, List.length_cons, Nat.pow_succ]
    ring

/-- The low bytes of a number. -/
theorem leNat_mod (bs : List (BitVec 8)) (n : Nat) : leNat bs % 256 ^ n = leNat (bs.take n) := by
  rcases Nat.lt_or_ge n bs.length with hn | hn
  · have hlen : (bs.take n).length = n := by rw [List.length_take, Nat.min_eq_left hn.le]
    conv_lhs => rw [← List.take_append_drop n bs, leNat_append, hlen, Nat.add_mul_mod_self_left]
    have hlt := leNat_lt (bs.take n)
    rw [hlen] at hlt
    exact Nat.mod_eq_of_lt hlt
  · rw [List.take_of_length_le hn]
    exact Nat.mod_eq_of_lt (Nat.lt_of_lt_of_le (leNat_lt bs) (Nat.pow_le_pow_right (by decide) hn))

/-- One byte of a number. -/
theorem getElem?_leBytes {w v n : Nat} (h : n < w) : (leBytes w v)[n]? = some (BitVec.ofNat 8 (v / 256 ^ n)) := by
  induction w generalizing v n with
  | zero => exact absurd h (Nat.not_lt_zero n)
  | succ w ih =>
    cases n with
    | zero => simp [leBytes]
    | succ n =>
      rw [leBytes, List.getElem?_cons_succ, ih (Nat.lt_of_succ_lt_succ h), Nat.div_div_eq_div_mul, Nat.pow_succ']

/-- The number of some bytes has those bytes. -/
theorem leBytes_leNat (bs : List (BitVec 8)) : leBytes bs.length (leNat bs) = bs :=
  leNat_injective (length_leBytes _ _) (leNat_leBytes (leNat_lt bs))

/-- Adding what has no byte below `n` leaves the bytes below `n`. -/
theorem getElem?_leBytes_add {w d m : Nat} (hd : 256 ^ m ∣ d) (v : Nat) {n : Nat} (hn : n < m) :
    (leBytes w (v + d))[n]? = (leBytes w v)[n]? := by
  rcases Nat.lt_or_ge n w with hw | hw
  · obtain ⟨e, rfl⟩ := (Nat.pow_dvd_pow 256 (Nat.succ_le_of_lt hn)).trans hd
    have hsplit : v + 256 ^ (n + 1) * e = v + 256 ^ n * (256 * e) := by rw [Nat.pow_succ, Nat.mul_assoc]
    rw [getElem?_leBytes hw, getElem?_leBytes hw, hsplit, Nat.add_mul_div_left _ _ (Nat.pow_pos (by decide))]
    congr 1
    apply BitVec.eq_of_toNat_eq
    simp
  · rw [List.getElem?_eq_none (by simpa using hw), List.getElem?_eq_none (by simpa using hw)]

/-- Adding what has its lowest byte at `m` changes the byte there. -/
theorem getElem?_leBytes_add_ne {w d m : Nat} (hm : m < w) (hd : 256 ^ m ∣ d) (hd' : ¬ 256 ^ (m + 1) ∣ d) (v : Nat) :
    (leBytes w (v + d))[m]? ≠ (leBytes w v)[m]? := by
  obtain ⟨e, rfl⟩ := hd
  rw [getElem?_leBytes hm, getElem?_leBytes hm, Nat.add_mul_div_left _ _ (Nat.pow_pos (by decide))]
  intro h
  have hmod := congrArg BitVec.toNat (Option.some.inj h)
  rw [BitVec.toNat_ofNat, BitVec.toNat_ofNat] at hmod
  apply hd'
  rw [Nat.pow_succ]
  exact Nat.mul_dvd_mul_left _ (by omega)

/-- A number that is not zero and fits has a lowest byte. -/
theorem exists_lowest_byte {w d : Nat} (h0 : d ≠ 0) (hd : d < 256 ^ w) : ∃ m, m < w ∧ 256 ^ m ∣ d ∧ ¬ 256 ^ (m + 1) ∣ d := by
  by_contra hno
  -- with no lowest byte, each power divides once the one below does
  have hall : ∀ m, m ≤ w → 256 ^ m ∣ d := by
    intro m
    induction m with
    | zero => exact fun _ => by simp
    | succ m ih =>
      intro hm
      by_contra hnot
      exact hno ⟨m, by omega, ih (by omega), hnot⟩
  exact Nat.not_dvd_of_pos_of_lt (Nat.pos_of_ne_zero h0) hd (hall w (Nat.le_refl w))

/-- Only the low bytes of a number are written. -/
theorem leBytes_mod (w v : Nat) : leBytes w (v % 256 ^ w) = leBytes w v := by
  refine List.ext_getElem? fun n => ?_
  rcases Nat.lt_or_ge n w with hn | hn
  · have hdvd : 256 ^ w ∣ 256 ^ w * (v / 256 ^ w) := Nat.dvd_mul_right _ _
    rw [← getElem?_leBytes_add hdvd (v % 256 ^ w) hn, Nat.mod_add_div]
  · rw [List.getElem?_eq_none (by simpa using hn), List.getElem?_eq_none (by simpa using hn)]

end ByteMemory
