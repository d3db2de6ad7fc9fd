import PgJitter.DirectFns
import PgJitter.Lemmas.InListHash

/-!
# The table of direct functions: the results

Every search, the first one included, which fills the table, finds the first entry of `jit_direct_fns` for the address, or none when there
is none.
-/

namespace PgJitter

namespace DirectFnsAux

open HashedSaopAux InListHashAux

variable {fns : List JitDirectFn}

/-- The doubling ends with a power of two that leaves two slots of three free. -/
theorem jitFnHtSize_some {count a : Nat} (turns : Nat) (hroom : count * 3 ≤ 2 ^ 30) (hturns : 30 < a + turns) (ha : a ≤ 30) :
    ∃ b, jitFnHtSize count turns (2 ^ a) = some (2 ^ b) ∧ count * 3 ≤ 2 ^ b := by
  induction turns generalizing a with
  | zero => omega
  | succ turns ih =>
    rw [jitFnHtSize]
    split
    · rename_i hlt
      have hlt30 : a < 30 := by
        by_contra hge
        obtain rfl : a = 30 := by omega
        omega
      rw [← Nat.pow_succ]
      exact ih (by omega) (by omega)
    · rename_i hge
      exact ⟨a, rfl, Nat.le_of_not_lt hge⟩

/-- What the table is once it is filled. -/
structure Filled (fns : List JitDirectFn) (t : JitFnTable) : Prop where
  power : ∃ b, t.mask = 2 ^ b - 1
  room : fns.length < t.mask + 1
  built : LinearProbing.Built (t.mask + 1) (fun e : JitDirectFn => jitFnHome t.mask e.pgFn) t.slots fns
  leads : LinearProbing.Leads (t.mask + 1) (jitFnHome t.mask) JitDirectFn.pgFn t.slots fns

/-- The entries fit, and every insertion ends. -/
theorem jitFnHtInit_filled (hroom : fns.length * 3 ≤ 2 ^ 30) : ∃ t, jitFnHtInit fns = some t ∧ Filled fns t := by
  obtain ⟨b, hsize, hthird⟩ := jitFnHtSize_some (a := 10) 21 hroom (by omega) (by omega)
  have hpos := Nat.two_pow_pos b
  have hlen : fns.length < 2 ^ b := by omega
  have hslots : 2 ^ b - 1 + 1 = 2 ^ b := by omega
  have hhome : ∀ fn, jitFnHome (2 ^ b - 1) fn < 2 ^ b := fun fn => masked_lt b _
  have hbuild := LinearProbing.tryBuild_eq (nextSlot_round b) (fun e : JitDirectFn => hhome e.pgFn) (Nat.le_of_lt hlen)
  refine ⟨⟨2 ^ b - 1, LinearProbing.build (2 ^ b) (nextSlot (2 ^ b - 1)) (fun e : JitDirectFn => jitFnHome (2 ^ b - 1) e.pgFn) fns⟩, ?_,
    ⟨b, rfl⟩, ?_, ?_, ?_⟩
  · rw [jitFnHtInit, show (1024 : Nat) = 2 ^ 10 from rfl, hsize, Option.bind_some, hbuild, Option.map_some]
  · dsimp only
    omega
  · dsimp only
    rw [hslots]
    exact LinearProbing.built_build (nextSlot_round b) (fun e => hhome e.pgFn) (Nat.le_of_lt hlen)
  · dsimp only
    rw [hslots]
    exact LinearProbing.leads_build (nextSlot_round b) hhome (Nat.le_of_lt hlen)

/-- A search in the table finds the first entry for the address. -/
theorem find_filled {t : JitFnTable} (h : Filled fns t) (fn : BitVec 64) :
    LinearProbing.find (nextSlot t.mask) t.slots JitDirectFn.pgFn fn (t.mask + 1) (jitFnHome t.mask fn) =
      some (fns.find? fun e => e.pgFn = fn) := by
  obtain ⟨mask, slots⟩ := t
  obtain ⟨⟨b, rfl⟩, hlen, hbuilt, hleads⟩ := h
  dsimp only at hlen hbuilt hleads ⊢
  have hpos := Nat.two_pow_pos b
  have hslots : 2 ^ b - 1 + 1 = 2 ^ b := by omega
  rw [hslots] at hlen hbuilt hleads ⊢
  have hhome : ∀ fn, jitFnHome (2 ^ b - 1) fn < 2 ^ b := fun fn => masked_lt b _
  exact LinearProbing.find_built (nextSlot_round b) hhome hbuilt hleads hlen fn

/-- The state of the process: no table yet, or a filled one. -/
def HtRight (fns : List JitDirectFn) (ht : Option JitFnTable) : Prop := ∀ t, ht = some t → Filled fns t

/-- One call: it ends, its answer is right, and it leaves a filled table. -/
theorem jitFindDirectFn_right (hroom : fns.length * 3 ≤ 2 ^ 30) {ht : Option JitFnTable} (h : HtRight fns ht) (fn : BitVec 64) :
    ∃ t, jitFindDirectFn fns ht fn = some (fns.find? fun e => e.pgFn = fn, t) ∧ Filled fns t := by
  cases ht with
  | some t => exact ⟨t, by rw [jitFindDirectFn, Option.bind_some, find_filled (h t rfl), Option.map_some], h t rfl⟩
  | none =>
    obtain ⟨t, hinit, hfilled⟩ := jitFnHtInit_filled hroom
    exact ⟨t, by simp only [jitFindDirectFn, hinit, Option.bind_some, find_filled hfilled, Option.map_some], hfilled⟩

/-- Calls one after another. -/
theorem jitFindDirectFns_right (hroom : fns.length * 3 ≤ 2 ^ 30) {ht : Option JitFnTable} (h : HtRight fns ht) (calls : List (BitVec 64)) :
    jitFindDirectFns fns ht calls = some (calls.map fun fn => fns.find? fun e => e.pgFn = fn) := by
  induction calls generalizing ht with
  | nil => rfl
  | cons fn calls ih =>
    obtain ⟨t, hcall, hfilled⟩ := jitFindDirectFn_right hroom h fn
    have hright : HtRight fns (some t) := fun t' ht' => Option.some.inj ht' ▸ hfilled
    have hrest := ih hright
    rw [jitFindDirectFns, hcall, Option.bind_some, hrest, Option.map_some, List.map_cons]

end DirectFnsAux

open DirectFnsAux

/-- From the start of the process on, every call of `jit_find_direct_fn` ends, and returns the first entry for the address, or none when
there is no entry for it, whatever was looked up before. -/
theorem direct_fns_found (fns : List JitDirectFn) (calls : List (BitVec 64)) (hroom : fns.length * 3 ≤ 2 ^ 30) :
    jitFindDirectFns fns none calls = some (calls.map fun fn => fns.find? fun e => e.pgFn = fn) :=
  jitFindDirectFns_right hroom (fun _ hnone => absurd hnone (by simp)) calls

namespace DirectFnsWitness

/-- An entry of two arguments. -/
def entry (pgFn : BitVec 64) (inlineOp : InlineSupport) : JitDirectFn := ⟨pgFn, ⟨inlineOp, true, 2, false⟩⟩

/-- Two functions with one home slot, and a second entry for the first of them. -/
def threeEntries : List JitDirectFn := [entry 0x10 .emitted, entry 0x11 .none, entry 0x10 .refused]

/-- The first entry is found, also the second time, and its neighbour behind it. -/
theorem three_entries_found : jitFindDirectFns threeEntries none [0x10, 0x11, 0x12, 0x10] =
    some [some (entry 0x10 .emitted), some (entry 0x11 .none), none, some (entry 0x10 .emitted)] :=
  direct_fns_found threeEntries [0x10, 0x11, 0x12, 0x10] (by decide)

end DirectFnsWitness

end PgJitter
