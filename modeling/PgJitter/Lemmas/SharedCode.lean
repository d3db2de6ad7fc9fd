import PgJitter.SharedCode

/-!
# The entries of a shared segment

The entries lie one after the other behind the header, each where the one before it ends, and the reserved bytes lie behind the
last of them. A store appends to the chain, a reservation takes from the other end, and the scan of a find walks the chain.
-/

namespace PgJitter

namespace SharedCodeAux

open ByteMemory Layout

/-! ## One entry -/

/-- The guards of a store on the size of the code. -/
def Fits (entry : SharedJitCodeEntry) : Prop :=
  0 < entry.code.length ∧ offsetofCodeBytes + entry.code.length + 7 ≤ sizeMax

theorem length_image (entry : SharedJitCodeEntry) : entry.image.length = offsetofCodeBytes + entry.code.length := by
  simp [SharedJitCodeEntry.image, offsetofCodeBytes]
  omega

theorem le_maxAlign (n : Nat) : n ≤ maxAlign n := le_alignUp (by decide) n

/-- The bytes of an entry are in its part of the segment. -/
theorem length_image_le (entry : SharedJitCodeEntry) : entry.image.length ≤ entry.size := by
  rw [length_image]
  exact le_maxAlign _

/-- A value of so many bits is read back from its bytes. -/
theorem ofNat_leNat_leBytes {n w : Nat} (hn : 2 ^ n = 256 ^ w) (v : BitVec n) :
    BitVec.ofNat n (leNat (leBytes w v.toNat)) = v := by
  have hlt : v.toNat < 256 ^ w := hn ▸ v.isLt
  rw [leNat_leBytes hlt, BitVec.ofNat_toNat, BitVec.setWidth_eq]

/-- What the scan reads of an entry that is there. -/
theorem entry_fields {bytes : Nat → BitVec 8} {off : Nat} {entry : SharedJitCodeEntry}
    (h : read bytes off entry.image.length = entry.image) (hfits : Fits entry) :
    entryKeyAt bytes off = entry.key ∧ entryCodeSizeAt bytes off = entry.code.length ∧ entryRefAt bytes off = entry.dylibRefAddr ∧
      read bytes (off + offsetofCodeBytes) entry.code.length = entry.code := by
  set a := leBytes 4 entry.key.planNodeId.toNat with ha
  set b := leBytes 4 entry.key.exprIndex.toNat with hb
  set c := leBytes 8 entry.key.exprFingerprint.toNat with hc
  set d := leBytes 8 entry.code.length with hd
  set e := leBytes 8 entry.dylibRefAddr.toNat with he
  have himage : entry.image = a ++ b ++ c ++ d ++ e ++ entry.code := rfl
  have hnode : read bytes off 4 = a := by
    have := read_part [] a (b ++ c ++ d ++ e ++ entry.code)
      (by rw [h, himage]; simp)
    simpa [ha] using this
  have hindex : read bytes (off + 4) 4 = b := by
    have := read_part a b (c ++ d ++ e ++ entry.code)
      (by rw [h, himage]; simp)
    simpa [ha, hb] using this
  have hfp : read bytes (off + 8) 8 = c := by
    have := read_part (a ++ b) c (d ++ e ++ entry.code)
      (by rw [h, himage]; simp)
    simpa [ha, hb, hc] using this
  have hsize : read bytes (off + 16) 8 = d := by
    have := read_part (a ++ b ++ c) d (e ++ entry.code)
      (by rw [h, himage]; simp)
    simpa [ha, hb, hc, hd] using this
  have href : read bytes (off + 24) 8 = e := by
    have := read_part (a ++ b ++ c ++ d) e entry.code
      (by rw [h, himage])
    simpa [ha, hb, hc, hd, he] using this
  have hcode : read bytes (off + 32) entry.code.length = entry.code := by
    have := read_part (a ++ b ++ c ++ d ++ e) entry.code []
      (by rw [h, himage]; simp)
    simpa [ha, hb, hc, hd, he] using this
  refine ⟨?_, ?_, ?_, hcode⟩
  · unfold entryKeyAt
    rw [hnode, hindex, hfp, ha, hb, hc, ofNat_leNat_leBytes (by decide), ofNat_leNat_leBytes (by decide), ofNat_leNat_leBytes (by decide)]
  · have hlt : entry.code.length < 256 ^ 8 := by
      have hmax : sizeMax < 256 ^ 8 := by decide
      have := hfits.2
      omega
    unfold entryCodeSizeAt
    rw [hsize, hd, leNat_leBytes hlt]
  · unfold entryRefAt
    rw [href, he, ofNat_leNat_leBytes (by decide)]

/-! ## The chain -/

/-- Entries that lie one after the other, from the first offset to the last. -/
def Chain (bytes : Nat → BitVec 8) : Nat → List (Nat × SharedJitCodeEntry) → Nat → Prop
  | off, [], last => off = last
  | off, (start, entry) :: rest, last =>
    start = off ∧ Fits entry ∧ read bytes off entry.image.length = entry.image ∧
      Chain bytes (off + entry.size) rest last

theorem Chain.le {bytes : Nat → BitVec 8} {off last : Nat} {stores : List (Nat × SharedJitCodeEntry)}
    (h : Chain bytes off stores last) : off ≤ last := by
  induction stores generalizing off with
  | nil => exact Nat.le_of_eq h
  | cons x rest ih => exact (Nat.le_add_right off x.2.size).trans (ih h.2.2.2)

/-- The chain depends on its own bytes only. -/
theorem Chain.congr {bytes bytes' : Nat → BitVec 8} {off last : Nat} {stores : List (Nat × SharedJitCodeEntry)}
    (h : Chain bytes off stores last) (hsame : ∀ a, off ≤ a → a < last → bytes' a = bytes a) :
    Chain bytes' off stores last := by
  induction stores generalizing off with
  | nil => exact h
  | cons x rest ih =>
    obtain ⟨hstart, hfits, hread, hrest⟩ := h
    have hlen := length_image_le x.2
    have hle := hrest.le
    have hkept : read bytes' off x.2.image.length = read bytes off x.2.image.length :=
      read_congr fun a hlo hhi => hsame a hlo (by omega)
    exact ⟨hstart, hfits, hkept.trans hread, ih hrest (fun a hlo hhi => hsame a (by omega) hhi)⟩

/-- A chain with one more entry at its end. -/
theorem Chain.snoc {bytes : Nat → BitVec 8} {off last : Nat} {stores : List (Nat × SharedJitCodeEntry)}
    (h : Chain bytes off stores last) {entry : SharedJitCodeEntry} (hfits : Fits entry)
    (hread : read bytes last entry.image.length = entry.image) :
    Chain bytes off (stores ++ [(last, entry)]) (last + entry.size) := by
  induction stores generalizing off with
  | nil =>
    obtain rfl : off = last := h
    exact ⟨rfl, hfits, hread, rfl⟩
  | cons x rest ih => exact ⟨h.1, h.2.1, h.2.2.1, ih h.2.2.2⟩

/-- Where the entries of a chain lie, and that each is still there. -/
theorem Chain.mem {bytes : Nat → BitVec 8} {off last : Nat} {stores : List (Nat × SharedJitCodeEntry)}
    (h : Chain bytes off stores last) {x : Nat × SharedJitCodeEntry} (hx : x ∈ stores) :
    off ≤ x.1 ∧ x.1 + x.2.size ≤ last ∧ Fits x.2 ∧ read bytes x.1 x.2.image.length = x.2.image := by
  induction stores generalizing off with
  | nil => nomatch hx
  | cons y rest ih =>
    obtain ⟨hstart, hfits, hread, hrest⟩ := h
    rcases List.mem_cons.mp hx with rfl | hx
    · have hle := hrest.le
      rw [hstart]
      exact ⟨le_rfl, hle, hfits, hread⟩
    · obtain ⟨hlo, hhi, hrest⟩ := ih hrest hx
      exact ⟨by omega, hhi, hrest⟩

/-- No two entries of a chain meet. -/
theorem Chain.pairwise {bytes : Nat → BitVec 8} {off last : Nat} {stores : List (Nat × SharedJitCodeEntry)}
    (h : Chain bytes off stores last) : stores.Pairwise fun x y => x.1 + x.2.size ≤ y.1 := by
  induction stores generalizing off with
  | nil => exact List.Pairwise.nil
  | cons x rest ih =>
    obtain ⟨hstart, -, -, hrest⟩ := h
    refine List.Pairwise.cons ?_ (ih hrest)
    intro y hy
    rw [hstart]
    exact (hrest.mem hy).1

/-- Every entry takes more than its header. -/
theorem Chain.length_le {bytes : Nat → BitVec 8} {off last : Nat} {stores : List (Nat × SharedJitCodeEntry)}
    (h : Chain bytes off stores last) : off + offsetofCodeBytes * stores.length ≤ last := by
  induction stores generalizing off with
  | nil => exact Nat.le_of_eq h
  | cons x rest ih =>
    have hrest := ih h.2.2.2
    have hsize := length_image_le x.2
    rw [length_image] at hsize
    rw [List.length_cons, Nat.mul_succ]
    omega

/-! ## The scan -/

/-- The scan of a chain complains of nothing, and stops at the first entry with the key. -/
theorem findLoop_chain {bytes : Nat → BitVec 8} {usable off last : Nat} {stores : List (Nat × SharedJitCodeEntry)}
    (h : Chain bytes off stores last) (hlast : last ≤ usable) (key : SharedCodeKey) (i : Nat) (mismatch : Option (BitVec 64)) :
    (findLoop bytes usable key stores.length i off mismatch).error = none ∧
      (findLoop bytes usable key stores.length i off mismatch).found =
        (stores.find? (·.2.key = key)).map fun x => ⟨x.1 + offsetofCodeBytes, x.2.code.length, x.2.dylibRefAddr⟩ := by
  induction stores generalizing off i mismatch with
  | nil => exact ⟨rfl, rfl⟩
  | cons x rest ih =>
    obtain ⟨start, entry⟩ := x
    obtain ⟨hstart, hfits, hread, hrest⟩ := h
    obtain ⟨hkey, hsize, href, -⟩ := entry_fields hread hfits
    have hend : off + entry.size ≤ usable := hrest.le.trans hlast
    have hpay : offsetofCodeBytes + entry.code.length ≤ entry.size := le_maxAlign _
    have hmax := hfits.2
    rw [List.length_cons, findLoop, hsize, hkey, href, if_neg (by omega)]
    dsimp only
    rw [if_neg (by omega), if_neg (by omega), if_neg (by show ¬ entry.size > _; omega)]
    by_cases hmatch : entry.key = key
    · rw [if_pos hmatch, List.find?_cons_of_pos (by simpa using hmatch), hstart]
      exact ⟨rfl, rfl⟩
    · rw [if_neg hmatch, List.find?_cons_of_neg (by simpa using hmatch)]
      exact ih hrest _ _

end SharedCodeAux

end PgJitter
