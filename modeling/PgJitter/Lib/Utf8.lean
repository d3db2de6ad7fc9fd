import Mathlib.Tactic.SplitIfs

/-!
# UTF-8

The bytes of a code point: its bits, six to a byte from the last byte on, behind the marks of a leading and of a continuation byte. The
form is the shortest one, so that a code point has one encoding.
-/

namespace Utf8

/-- The bytes of a code point, in the shortest form. -/
inductive Encodes : Nat → List UInt8 → Prop where
  | one {x : Nat} : x < 0x80 → Encodes x [UInt8.ofNat x]
  | two {x y : Nat} : x < 0x20 → y < 0x40 → 0x80 ≤ x * 0x40 + y →
      Encodes (x * 0x40 + y) [UInt8.ofNat (0xC0 + x), UInt8.ofNat (0x80 + y)]
  | three {x y z : Nat} : x < 0x10 → y < 0x40 → z < 0x40 → 0x800 ≤ (x * 0x40 + y) * 0x40 + z →
      Encodes ((x * 0x40 + y) * 0x40 + z) [UInt8.ofNat (0xE0 + x), UInt8.ofNat (0x80 + y), UInt8.ofNat (0x80 + z)]
  | four {x y z w : Nat} : x < 0x08 → y < 0x40 → z < 0x40 → w < 0x40 → 0x10000 ≤ ((x * 0x40 + y) * 0x40 + z) * 0x40 + w →
      Encodes (((x * 0x40 + y) * 0x40 + z) * 0x40 + w)
        [UInt8.ofNat (0xF0 + x), UInt8.ofNat (0x80 + y), UInt8.ofNat (0x80 + z), UInt8.ofNat (0x80 + w)]

/-- The encoding as a function: the number of bytes is that of the range that the code point lies in. -/
def encode (u : Nat) : List UInt8 :=
  if u < 0x80 then [UInt8.ofNat u]
  else if u < 0x800 then [UInt8.ofNat (0xC0 + u / 0x40), UInt8.ofNat (0x80 + u % 0x40)]
  else if u < 0x10000 then
    [UInt8.ofNat (0xE0 + u / 0x1000), UInt8.ofNat (0x80 + u / 0x40 % 0x40), UInt8.ofNat (0x80 + u % 0x40)]
  else
    [UInt8.ofNat (0xF0 + u / 0x40000), UInt8.ofNat (0x80 + u / 0x1000 % 0x40), UInt8.ofNat (0x80 + u / 0x40 % 0x40),
      UInt8.ofNat (0x80 + u % 0x40)]

/-- The bytes follow from the code point. -/
theorem Encodes.eq {u : Nat} {bs : List UInt8} (h : Encodes u bs) : bs = encode u := by
  unfold encode
  cases h with
  | one hx => rw [if_pos hx]
  | @two x y hx hy hmin =>
    have hlead : (x * 0x40 + y) / 0x40 = x := by omega
    have hlast : (x * 0x40 + y) % 0x40 = y := by omega
    rw [if_neg (by omega), if_pos (by omega), hlead, hlast]
  | @three x y z hx hy hz hmin =>
    have hlead : ((x * 0x40 + y) * 0x40 + z) / 0x1000 = x := by omega
    have hmid : ((x * 0x40 + y) * 0x40 + z) / 0x40 % 0x40 = y := by omega
    have hlast : ((x * 0x40 + y) * 0x40 + z) % 0x40 = z := by omega
    rw [if_neg (by omega), if_neg (by omega), if_pos (by omega), hlead, hmid, hlast]
  | @four x y z w hx hy hz hw hmin =>
    have hlead : (((x * 0x40 + y) * 0x40 + z) * 0x40 + w) / 0x40000 = x := by omega
    have hsecond : (((x * 0x40 + y) * 0x40 + z) * 0x40 + w) / 0x1000 % 0x40 = y := by omega
    have hthird : (((x * 0x40 + y) * 0x40 + z) * 0x40 + w) / 0x40 % 0x40 = z := by omega
    have hlast : (((x * 0x40 + y) * 0x40 + z) * 0x40 + w) % 0x40 = w := by omega
    rw [if_neg (by omega), if_neg (by omega), if_neg (by omega), hlead, hsecond, hthird, hlast]

/-- Every code point of the seventeen planes has an encoding. -/
theorem encodes_encode {u : Nat} (hu : u < 0x110000) : Encodes u (encode u) := by
  unfold encode
  split_ifs with h₁ h₂ h₃
  · exact .one h₁
  · have hdigits : u = u / 0x40 * 0x40 + u % 0x40 := by omega
    have h := Encodes.two (x := u / 0x40) (y := u % 0x40) (by omega) (by omega) (by omega)
    rwa [← hdigits] at h
  · have hdigits : u = (u / 0x1000 * 0x40 + u / 0x40 % 0x40) * 0x40 + u % 0x40 := by omega
    have h := Encodes.three (x := u / 0x1000) (y := u / 0x40 % 0x40) (z := u % 0x40) (by omega) (by omega) (by omega) (by omega)
    rwa [← hdigits] at h
  · have hdigits : u = ((u / 0x40000 * 0x40 + u / 0x1000 % 0x40) * 0x40 + u / 0x40 % 0x40) * 0x40 + u % 0x40 := by omega
    have h := Encodes.four (x := u / 0x40000) (y := u / 0x1000 % 0x40) (z := u / 0x40 % 0x40) (w := u % 0x40) (by omega) (by omega)
      (by omega) (by omega) (by omega)
    rwa [← hdigits] at h

/-- The bytes of a character are its encoding. -/
theorem utf8EncodeChar_eq {u : Nat} (hu : u.isValidChar) : String.utf8EncodeChar (Char.ofNat u) = encode u := by
  have hval : (Char.ofNat u).val.toNat = u := by
    rw [Char.ofNat, dif_pos hu]
    rfl
  have hlt : u < 0x110000 := by
    unfold Nat.isValidChar at hu
    omega
  unfold String.utf8EncodeChar encode
  simp only [hval, Nat.lt_succ_iff.symm, Nat.succ_eq_add_one, Nat.reduceAdd, Nat.add_comm (_ % _)]
  split_ifs with h₁ h₂ h₃
  · rfl
  · rw [Nat.mod_eq_of_lt (by omega : u / 0x40 < 0x20)]
  · rw [Nat.mod_eq_of_lt (by omega : u / 0x1000 < 0x10)]
  · rw [Nat.mod_eq_of_lt (by omega : u / 0x40000 < 0x08)]

end Utf8
