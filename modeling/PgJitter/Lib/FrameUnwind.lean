import PgJitter.Lib.ByteMemory

/-!
# Unwinding a stack frame

A machine with registers of 64 bits and a memory of bytes. A prologue saves registers in the frame that it builds below the stack
pointer it was entered with, and an unwinder undoes it from a list of operations, the last of the prologue first.

The frame is laid out in the distances from the entry value of the stack pointer: a cell is eight bytes at such a distance.
-/

namespace FrameUnwind

open ByteMemory

/-! ## Words in memory -/

/-- A byte of a word, the lowest first. -/
def byteOf (v : BitVec 64) (i : Nat) : BitVec 8 := BitVec.ofNat 8 (v.toNat / 256 ^ i)

/-- The address lies in the eight bytes at `a`. -/
def Within (a b : BitVec 64) : Prop := (b - a).toNat < 8

instance (a b : BitVec 64) : Decidable (Within a b) := inferInstanceAs (Decidable (_ < _))

/-- The word at an address. -/
def load (m : BitVec 64 → BitVec 8) (a : BitVec 64) : BitVec 64 :=
  BitVec.ofNat 64 (leNat ((List.range 8).map fun i => m (a + BitVec.ofNat 64 i)))

/-- A word written at an address. -/
def store (m : BitVec 64 → BitVec 8) (a v : BitVec 64) : BitVec 64 → BitVec 8 :=
  fun b => if Within a b then byteOf v (b - a).toNat else m b

theorem store_of_within {m : BitVec 64 → BitVec 8} {a v b : BitVec 64} (h : Within a b) :
    store m a v b = byteOf v (b - a).toNat := if_pos h

theorem store_of_not_within {m : BitVec 64 → BitVec 8} {a v b : BitVec 64} (h : ¬ Within a b) : store m a v b = m b := if_neg h

/-- The bytes that a load reads are those of its word. -/
theorem load_eq {m : BitVec 64 → BitVec 8} {a v : BitVec 64} (h : ∀ b, Within a b → m b = byteOf v (b - a).toNat) : load m a = v := by
  have hbytes : (List.range 8).map (fun i => m (a + BitVec.ofNat 64 i)) = leBytes 8 v.toNat := by
    refine List.ext_getElem? fun i => ?_
    rcases Nat.lt_or_ge i 8 with hi | hi
    · have hdist : (a + BitVec.ofNat 64 i - a).toNat = i := by
        rw [BitVec.add_comm, BitVec.add_sub_cancel, BitVec.toNat_ofNat, Nat.mod_eq_of_lt (by omega)]
      have hb := h (a + BitVec.ofNat 64 i) (by rwa [Within, hdist])
      rw [getElem?_leBytes hi, List.getElem?_map, List.getElem?_range hi, Option.map_some, hb, hdist, byteOf]
    · rw [List.getElem?_eq_none (by simpa using hi), List.getElem?_eq_none (by simpa using hi)]
  rw [load, hbytes, leNat_leBytes (by simpa using v.isLt), BitVec.ofNat_toNat, BitVec.setWidth_eq]

/-- A load sees only its eight bytes. -/
theorem load_congr {m m' : BitVec 64 → BitVec 8} {a : BitVec 64} (h : ∀ b, Within a b → m' b = m b) : load m' a = load m a := by
  unfold load
  congr 2
  refine List.map_congr_left fun i hi => h _ ?_
  have hi := List.mem_range.1 hi
  rw [Within, BitVec.add_comm, BitVec.add_sub_cancel, BitVec.toNat_ofNat, Nat.mod_eq_of_lt (by omega)]
  exact hi

/-- A word with a zero byte is not the one whose bits are all set. -/
theorem load_ne_allOnes {m : BitVec 64 → BitVec 8} {a b : BitVec 64} (hb : Within a b) (h : m b = 0) : load m a ≠ BitVec.allOnes 64 := by
  intro heq
  have hlt := leNat_lt ((List.range 8).map fun i => m (a + BitVec.ofNat 64 i))
  have hnat := congrArg BitVec.toNat heq
  rw [load, BitVec.toNat_ofNat, Nat.mod_eq_of_lt (by simpa using hlt)] at hnat
  -- its bytes are those of the all-ones word
  have hall := @leNat_injective _ (List.replicate 8 255#8) (by simp) (hnat.trans (by decide))
  have hback : a + BitVec.ofNat 64 (b - a).toNat = b := by
    rw [BitVec.ofNat_toNat, BitVec.setWidth_eq, BitVec.add_comm, BitVec.sub_add_cancel]
  have hbyte := congrArg (fun l => l[(b - a).toNat]?) hall
  rw [List.getElem?_map, List.getElem?_range hb, Option.map_some, hback, h, List.getElem?_replicate_of_lt hb] at hbyte
  exact absurd (Option.some.inj hbyte) (by decide)

/-! ## Distances -/

/-- The address at a distance. -/
def addr (s : BitVec 64) (x : ℤ) : BitVec 64 := s + BitVec.ofInt 64 x

@[simp] theorem addr_zero (s : BitVec 64) : addr s 0 = s := by simp [addr]

theorem addr_add (s : BitVec 64) (x y : ℤ) : addr s x + BitVec.ofInt 64 y = addr s (x + y) := by
  rw [addr, addr, BitVec.ofInt_add, BitVec.add_assoc]

theorem addr_add_nat (s : BitVec 64) (x : ℤ) (n : Nat) : addr s x + BitVec.ofNat 64 n = addr s (x + n) := by
  rw [← addr_add, BitVec.ofInt_natCast]

theorem addr_sub_nat (s : BitVec 64) (x : ℤ) (n : Nat) : addr s x - BitVec.ofNat 64 n = addr s (x - n) := by
  rw [Int.sub_eq_add_neg, ← addr_add, BitVec.ofInt_neg, BitVec.ofInt_natCast, BitVec.sub_eq_add_neg]

theorem addr_sub_addr (s : BitVec 64) (x y : ℤ) : addr s y - addr s x = BitVec.ofInt 64 (y - x) := by
  have hsum : addr s y = BitVec.ofInt 64 (y - x) + addr s x := by
    rw [BitVec.add_comm, addr_add, show x + (y - x) = y by omega]
  rw [hsum, BitVec.add_sub_cancel]

/-- The bytes of a cell, in distances that do not wrap. -/
theorem within_addr {s : BitVec 64} {x y : ℤ} (h : y - x < 2 ^ 63) (h' : -2 ^ 63 ≤ y - x) :
    Within (addr s x) (addr s y) ↔ x ≤ y ∧ y < x + 8 := by
  rw [Within, addr_sub_addr, BitVec.toNat_ofInt]
  omega

/-- Different distances are different addresses. -/
theorem addr_inj {s : BitVec 64} {x y : ℤ} (h : y - x < 2 ^ 63) (h' : -2 ^ 63 ≤ y - x) (heq : addr s x = addr s y) : x = y := by
  have hzero := congrArg BitVec.toNat ((addr_sub_addr s x y).symm.trans (by rw [heq, BitVec.sub_self]))
  rw [BitVec.toNat_ofInt, BitVec.toNat_zero] at hzero
  omega

/-! ## What a prologue saves -/

variable {ρ : Type}

/-- What a memory holds after words were saved in cells: each cell the entry value of its register, and the rest what it held. -/
structure Saved (s : BitVec 64) (entry : ρ → BitVec 64) (m₀ m : BitVec 64 → BitVec 8) (cells : List (ρ × ℤ)) : Prop where
  cell : ∀ c ∈ cells, ∀ b, Within (addr s c.2) b → m b = byteOf (entry c.1) (b - addr s c.2).toNat
  rest : ∀ b, (∀ c ∈ cells, ¬ Within (addr s c.2) b) → m b = m₀ b

/-- Two cells that do not meet, in distances that do not wrap. -/
def Apart (x y : ℤ) : Prop := (x + 8 ≤ y ∧ y - x < 2 ^ 62) ∨ (y + 8 ≤ x ∧ x - y < 2 ^ 62)

variable {s : BitVec 64} {entry : ρ → BitVec 64} {m₀ m : BitVec 64 → BitVec 8} {cells : List (ρ × ℤ)}

/-- Cells that are apart share no byte. -/
theorem Apart.not_within {x y : ℤ} (h : Apart x y) {b : BitVec 64} (hx : Within (addr s x) b) : ¬ Within (addr s y) b := by
  intro hy
  have hdist : addr s y - addr s x = BitVec.ofInt 64 (y - x) := addr_sub_addr s x y
  have hsum : b - addr s x = (b - addr s y) + BitVec.ofInt 64 (y - x) := by
    rw [← hdist]
    bv_omega
  have hnat := congrArg BitVec.toNat hsum
  rw [BitVec.toNat_add, BitVec.toNat_ofInt] at hnat
  simp only [Within, Apart] at hx hy h
  omega

theorem Saved.nil : Saved s entry m₀ m₀ [] where
  cell := by simp
  rest := fun _ _ => rfl

/-- One more word is saved, apart from the others. -/
theorem Saved.cons (h : Saved s entry m₀ m cells) {r : ρ} {x : ℤ} (hx : ∀ c ∈ cells, Apart x c.2) :
    Saved s entry m₀ (store m (addr s x) (entry r)) ((r, x) :: cells) where
  cell := by
    intro c hc b hb
    cases hc with
    | head => exact store_of_within hb
    | tail _ hc =>
      have hout : ¬ Within (addr s x) b := fun hin => (hx c hc).not_within hin hb
      exact (store_of_not_within hout).trans (h.cell c hc b hb)
  rest := by
    intro b hb
    have hout : ¬ Within (addr s x) b := hb (r, x) List.mem_cons_self
    exact (store_of_not_within hout).trans (h.rest b fun c hc => hb c (List.mem_cons_of_mem _ hc))

/-- A saved word is loaded. -/
theorem Saved.load_cell (h : Saved s entry m₀ m cells) {c : ρ × ℤ} (hc : c ∈ cells) : load m (addr s c.2) = entry c.1 :=
  load_eq (h.cell c hc)

/-- Where only one saved register is not zero, a byte outside its cells is zero. -/
theorem Saved.eq_zero {r : ρ} (hm : ∀ b, m₀ b = 0) (hzero : ∀ c ∈ cells, c.1 ≠ r → entry c.1 = 0)
    (h : Saved s entry m₀ m cells) {b : BitVec 64} (hb : ∀ c ∈ cells, c.1 = r → ¬ Within (addr s c.2) b) : m b = 0 := by
  by_cases hout : ∀ c ∈ cells, ¬ Within (addr s c.2) b
  · exact (h.rest b hout).trans (hm b)
  · obtain ⟨c, hc, hin⟩ := not_forall₂.1 hout
    have hin := not_not.1 hin
    have hr : c.1 ≠ r := fun hr => hb c hc hr hin
    rw [h.cell c hc b hin, hzero c hc hr, byteOf, show (0 : BitVec 64).toNat = 0 from rfl, Nat.zero_div]
    rfl

/-- Where only one saved register is not zero, and all its bits are set, no other place than its cell gives it back. -/
theorem Saved.load_ne {r : ρ} {x y : ℤ} (hm : ∀ b, m₀ b = 0) (hzero : ∀ c ∈ cells, c.1 ≠ r → entry c.1 = 0)
    (h : Saved s entry m₀ m cells) (hx : ∀ c ∈ cells, c.1 = r → c.2 = x) (hne : y ≠ x) (hlt : y - x < 2 ^ 62) (hgt : x - y < 2 ^ 62) :
    load m (addr s y) ≠ BitVec.allOnes 64 := by
  have hout : ∀ z : ℤ, z < x ∨ x + 8 ≤ z → z - x < 2 ^ 63 → -2 ^ 63 ≤ z - x → m (addr s z) = 0 := by
    intro z hz hlt hgt
    refine h.eq_zero hm hzero fun c hc hr hin => ?_
    rw [hx c hc hr, within_addr hlt hgt] at hin
    omega
  -- the first byte of the word or its last is outside the cell
  rcases Int.lt_or_gt_of_ne hne with hbelow | habove
  · exact load_ne_allOnes ((within_addr (by omega) (by omega)).2 ⟨le_refl y, by omega⟩) (hout y (Or.inl hbelow) (by omega) (by omega))
  · have hlast : Within (addr s y) (addr s (y + 7)) := (within_addr (by omega) (by omega)).2 ⟨by omega, by omega⟩
    exact load_ne_allOnes hlast (hout (y + 7) (Or.inr (by omega)) (by omega) (by omega))

/-! ## Machines -/

/-- Registers and memory. -/
structure Machine (ρ : Type) where
  /-- The registers. -/
  regs : ρ → BitVec 64
  /-- The bytes of memory. -/
  mem : BitVec 64 → BitVec 8

section

variable [DecidableEq ρ]

/-- A machine with one register set. -/
def Machine.set (σ : Machine ρ) (r : ρ) (v : BitVec 64) : Machine ρ := { σ with regs := fun r' => if r' = r then v else σ.regs r' }

@[simp] theorem Machine.regs_set_self (σ : Machine ρ) (r : ρ) (v : BitVec 64) : (σ.set r v).regs r = v := if_pos rfl

theorem Machine.regs_set_of_ne (σ : Machine ρ) {r r' : ρ} (v : BitVec 64) (h : r' ≠ r) : (σ.set r v).regs r' = σ.regs r' := if_neg h

end

/-! ## Unwinding -/

/-- What undoes one step of a prologue. -/
inductive Op (ρ : Type) where
  /-- A register was pushed. -/
  | pop (r : ρ)
  /-- The stack pointer was lowered. -/
  | free (n : Nat)
  /-- The frame pointer was set. -/
  | rebase
  /-- A register was saved at so many bytes above the base of the frame. -/
  | reload (r : ρ) (off : Nat)
  deriving Repr, DecidableEq

/-- How far the step moved the stack pointer down. -/
def Op.size : Op ρ → Nat
  | .pop _ => 8
  | .free n => n
  | .rebase => 0
  | .reload _ _ => 0

/-- The register that the step saved. -/
def Op.reg : Op ρ → Option ρ
  | .pop r => some r
  | .free _ => none
  | .rebase => none
  | .reload r _ => some r

/-- How far some steps moved the stack pointer down. -/
def depth : List (Op ρ) → Nat
  | [] => 0
  | op :: ops => op.size + depth ops

@[simp] theorem depth_append (ops ops' : List (Op ρ)) : depth (ops ++ ops') = depth ops + depth ops' := by
  induction ops with
  | nil => exact (Nat.zero_add _).symm
  | cons op ops ih => rw [List.cons_append, depth, depth, ih, Nat.add_assoc]

/-- The registers of an unwinder: the stack pointer, the frame pointer and how far the frame pointer lies above the base. -/
structure FrameRegs (ρ : Type) where
  /-- The stack pointer. -/
  sp : ρ
  /-- The frame pointer. -/
  fp : ρ
  /-- From the base of the frame to the frame pointer. -/
  offset : Nat

section

variable [DecidableEq ρ]

/-- Undo one step, in a frame with its base at `base`. -/
def Op.undo (f : FrameRegs ρ) (base : BitVec 64) (σ : Machine ρ) : Op ρ → Machine ρ
  | .pop r => (σ.set r (load σ.mem (σ.regs f.sp))).set f.sp (σ.regs f.sp + 8)
  | .free n => σ.set f.sp (σ.regs f.sp + BitVec.ofNat 64 n)
  | .rebase => σ.set f.sp (σ.regs f.fp - BitVec.ofNat 64 f.offset)
  | .reload r off => σ.set r (load σ.mem (base + BitVec.ofNat 64 off))

/-- Undo a prologue, its last step first. -/
def unwind (f : FrameRegs ρ) (base : BitVec 64) (ops : List (Op ρ)) (σ : Machine ρ) : Machine ρ :=
  ops.foldl (Op.undo f base) σ

@[simp] theorem unwind_cons (f : FrameRegs ρ) (base : BitVec 64) (op : Op ρ) (ops : List (Op ρ)) (σ : Machine ρ) :
    unwind f base (op :: ops) σ = unwind f base ops (op.undo f base σ) := rfl

theorem unwind_append (f : FrameRegs ρ) (base : BitVec 64) (ops ops' : List (Op ρ)) (σ : Machine ρ) :
    unwind f base (ops ++ ops') σ = unwind f base ops' (unwind f base ops σ) := List.foldl_append

@[simp] theorem Op.mem_undo (f : FrameRegs ρ) (base : BitVec 64) (op : Op ρ) (σ : Machine ρ) : (op.undo f base σ).mem = σ.mem := by
  cases op <;> rfl

/-- Unwinding leaves memory as it is. -/
theorem mem_unwind (f : FrameRegs ρ) (base : BitVec 64) (ops : List (Op ρ)) (σ : Machine ρ) : (unwind f base ops σ).mem = σ.mem := by
  induction ops generalizing σ with
  | nil => rfl
  | cons op ops ih => rw [unwind_cons, ih, Op.mem_undo]

/-- One step back changes the stack pointer and the register that the step saved. -/
theorem Op.regs_undo_of_ne {f : FrameRegs ρ} {base : BitVec 64} {op : Op ρ} {σ : Machine ρ} {r : ρ} (hsp : r ≠ f.sp)
    (hr : op.reg ≠ some r) :
    (op.undo f base σ).regs r = σ.regs r := by
  cases op with
  | pop r' =>
    have hne : r ≠ r' := fun heq => hr (congrArg some heq.symm)
    rw [Op.undo, Machine.regs_set_of_ne _ _ hsp, Machine.regs_set_of_ne _ _ hne]
  | free n => exact Machine.regs_set_of_ne _ _ hsp
  | rebase => exact Machine.regs_set_of_ne _ _ hsp
  | reload r' off =>
    have hne : r ≠ r' := fun heq => hr (congrArg some heq.symm)
    exact Machine.regs_set_of_ne _ _ hne

/-- A register that no step saved keeps its value. -/
theorem regs_unwind_of_not_mem {f : FrameRegs ρ} {base : BitVec 64} {ops : List (Op ρ)} {σ : Machine ρ} {r : ρ} (hsp : r ≠ f.sp)
    (hr : ∀ op ∈ ops, op.reg ≠ some r) : (unwind f base ops σ).regs r = σ.regs r := by
  induction ops generalizing σ with
  | nil => rfl
  | cons op ops ih =>
    rw [unwind_cons, ih fun op' h => hr op' (List.mem_cons_of_mem _ h), Op.regs_undo_of_ne hsp (hr op List.mem_cons_self)]

/-- A register is reloaded by the last operation on it. -/
theorem regs_unwind_reload {f : FrameRegs ρ} {base : BitVec 64} (pre : List (Op ρ)) {post : List (Op ρ)} {σ : Machine ρ} {r : ρ}
    (off : Nat)
    (hsp : r ≠ f.sp) (hpost : ∀ op ∈ post, op.reg ≠ some r) :
    (unwind f base (pre ++ .reload r off :: post) σ).regs r = load σ.mem (base + BitVec.ofNat 64 off) := by
  rw [unwind_append, unwind_cons, regs_unwind_of_not_mem hsp hpost, Op.undo, Machine.regs_set_self, mem_unwind]

/-- Steps that do not set the frame pointer give back what they took from the stack. -/
theorem sp_unwind {f : FrameRegs ρ} {base : BitVec 64} {ops : List (Op ρ)} {σ : Machine ρ} (hframe : Op.rebase ∉ ops)
    (hsp : ∀ op ∈ ops, op.reg ≠ some f.sp) : (unwind f base ops σ).regs f.sp = σ.regs f.sp + BitVec.ofNat 64 (depth ops) := by
  induction ops generalizing σ with
  | nil => exact (BitVec.add_zero _).symm
  | cons op ops ih =>
    have hone : (op.undo f base σ).regs f.sp = σ.regs f.sp + BitVec.ofNat 64 op.size := by
      cases op with
      | pop r => exact Machine.regs_set_self _ _ _
      | free n => exact Machine.regs_set_self _ _ _
      | rebase => exact absurd List.mem_cons_self hframe
      | reload r off =>
        have hne : f.sp ≠ r := fun heq => hsp _ List.mem_cons_self (congrArg some heq.symm)
        exact (Machine.regs_set_of_ne _ _ hne).trans (BitVec.add_zero _).symm
    rw [unwind_cons, ih (fun h => hframe (List.mem_cons_of_mem _ h)) fun op' h => hsp op' (List.mem_cons_of_mem _ h), hone, depth,
      BitVec.add_assoc, ← BitVec.ofNat_add]

/-! ## A frame that can be unwound -/

/-- The frame that steps have built, the last of them first: every saved register is where its step is undone, the frame pointer leads to
where the stack pointer was when it was set, and it is not restored before it is used. -/
def Stored (f : FrameRegs ρ) (base fpv s : BitVec 64) (entry : ρ → BitVec 64) (m : BitVec 64 → BitVec 8) : List (Op ρ) → Prop
  | [] => True
  | .pop r :: ops =>
    r ≠ f.sp ∧ (Op.rebase ∈ ops → r ≠ f.fp) ∧ load m (addr s (-(8 + depth ops : ℤ))) = entry r ∧ Stored f base fpv s entry m ops
  | .free _ :: ops => Stored f base fpv s entry m ops
  | .rebase :: ops => fpv - BitVec.ofNat 64 f.offset = addr s (-(depth ops : ℤ)) ∧ Stored f base fpv s entry m ops
  | .reload r off :: ops =>
    r ≠ f.sp ∧ (Op.rebase ∈ ops → r ≠ f.fp) ∧ load m (base + BitVec.ofNat 64 off) = entry r ∧ Stored f base fpv s entry m ops

/-- How a machine stands to the steps that are left to undo. -/
structure Unwinding (f : FrameRegs ρ) (base fpv s : BitVec 64) (entry : ρ → BitVec 64) (m : BitVec 64 → BitVec 8) (ops : List (Op ρ))
    (σ : Machine ρ) : Prop where
  mem : σ.mem = m
  sp : σ.regs f.sp = addr s (-(depth ops : ℤ))
  frame : Op.rebase ∈ ops → σ.regs f.fp = fpv
  stored : Stored f base fpv s entry m ops

variable {f : FrameRegs ρ} {base fpv s : BitVec 64} {entry : ρ → BitVec 64} {m : BitVec 64 → BitVec 8}

/-- One step back. -/
theorem Unwinding.undo (hfp : f.fp ≠ f.sp) {op : Op ρ} {ops : List (Op ρ)} {σ : Machine ρ}
    (h : Unwinding f base fpv s entry m (op :: ops) σ) : Unwinding f base fpv s entry m ops (op.undo f base σ) := by
  have hmem : (op.undo f base σ).mem = m := (Op.mem_undo f base op σ).trans h.mem
  cases op with
  | pop r =>
    obtain ⟨hr, hrfp, _, hops⟩ := h.stored
    refine ⟨hmem, ?_, fun hin => ?_, hops⟩
    · rw [Op.undo, Machine.regs_set_self, h.sp, depth, Op.size]
      exact (addr_add_nat s _ 8).trans (congrArg (addr s) (by push_cast; ring))
    · have hne : (Op.pop r).reg ≠ some f.fp := fun heq => hrfp hin (Option.some.inj heq)
      rw [Op.regs_undo_of_ne hfp hne]
      exact h.frame (List.mem_cons_of_mem _ hin)
  | free n =>
    refine ⟨hmem, ?_, fun hin => ?_, h.stored⟩
    · rw [Op.undo, Machine.regs_set_self, h.sp, depth, Op.size, addr_add_nat]
      exact congrArg (addr s) (by push_cast; ring)
    · have hne : (Op.free n : Op ρ).reg ≠ some f.fp := (Option.some_ne_none f.fp).symm
      rw [Op.regs_undo_of_ne hfp hne]
      exact h.frame (List.mem_cons_of_mem _ hin)
  | rebase =>
    refine ⟨hmem, ?_, fun hin => ?_, h.stored.2⟩
    · rw [Op.undo, Machine.regs_set_self, h.frame List.mem_cons_self, h.stored.1]
    · have hne : (Op.rebase : Op ρ).reg ≠ some f.fp := (Option.some_ne_none f.fp).symm
      rw [Op.regs_undo_of_ne hfp hne]
      exact h.frame (List.mem_cons_of_mem _ hin)
  | reload r off =>
    obtain ⟨hr, hrfp, _, hops⟩ := h.stored
    refine ⟨hmem, ?_, fun hin => ?_, hops⟩
    · rw [Op.undo, Machine.regs_set_of_ne _ _ hr.symm, h.sp, depth, Op.size, Nat.zero_add]
    · have hne : (Op.reload r off).reg ≠ some f.fp := fun heq => hrfp hin (Option.some.inj heq)
      rw [Op.regs_undo_of_ne hfp hne]
      exact h.frame (List.mem_cons_of_mem _ hin)

/-- One step back gives back the register that the step saved. -/
theorem Unwinding.regs_undo {op : Op ρ} {ops : List (Op ρ)} {σ : Machine ρ} (h : Unwinding f base fpv s entry m (op :: ops) σ)
    {r : ρ} (hsp : r ≠ f.sp) (hr : op.reg = some r ∨ σ.regs r = entry r) : (op.undo f base σ).regs r = entry r := by
  by_cases hop : op.reg = some r
  · cases op with
    | pop r' =>
      obtain rfl := Option.some.inj hop
      obtain ⟨_, _, hload, _⟩ := h.stored
      rw [Op.undo, Machine.regs_set_of_ne _ _ hsp, Machine.regs_set_self, h.mem, h.sp, depth, Op.size]
      exact_mod_cast hload
    | free n => exact absurd hop (Option.some_ne_none r).symm
    | rebase => exact absurd hop (Option.some_ne_none r).symm
    | reload r' off =>
      obtain rfl := Option.some.inj hop
      obtain ⟨_, _, hload, _⟩ := h.stored
      rw [Op.undo, Machine.regs_set_self, h.mem, hload]
  · rw [Op.regs_undo_of_ne hsp hop]
    exact hr.resolve_left hop

/-- Unwinding gives back the stack pointer and every register that is saved, and keeps those that are as they were on entry. -/
theorem Unwinding.unwind (hfp : f.fp ≠ f.sp) {ops : List (Op ρ)} {σ : Machine ρ} (h : Unwinding f base fpv s entry m ops σ) :
    (unwind f base ops σ).regs f.sp = s ∧
      ∀ r, r ≠ f.sp → (∃ op ∈ ops, op.reg = some r) ∨ σ.regs r = entry r → (FrameUnwind.unwind f base ops σ).regs r = entry r := by
  induction ops generalizing σ with
  | nil =>
    refine ⟨?_, fun r _ hr => ?_⟩
    · have hsp := h.sp
      rwa [depth, Nat.cast_zero, Int.neg_zero, addr_zero] at hsp
    · rcases hr with ⟨op, hop, _⟩ | hr
      · exact absurd hop List.not_mem_nil
      · exact hr
  | cons op ops ih =>
    obtain ⟨hs, hregs⟩ := ih (h.undo hfp)
    refine ⟨hs, fun r hsp hr => hregs r hsp ?_⟩
    rcases hr with ⟨op', hop', hreg⟩ | hr
    · rcases List.mem_cons.1 hop' with rfl | hop'
      · exact Or.inr (h.regs_undo hsp (Or.inl hreg))
      · exact Or.inl ⟨op', hop', hreg⟩
    · exact Or.inr (h.regs_undo hsp (Or.inr hr))

end

end FrameUnwind
