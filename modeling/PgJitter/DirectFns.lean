import PgJitter.CompileExpr
import PgJitter.HashedSaop

/-!
# The table of direct functions

`jit_find_direct_fn` (`src/pg_jit_funcs.c`), which says for the address of a PostgreSQL function what can be called or emitted in its
place. The table is an open hash table of pointers to the entries of `jit_direct_fns`, filled by the first call, and kept for the life
of the process. A pointer to an entry is the entry, and a search is given as many turns as there are slots.
-/

namespace PgJitter

/-- An entry of `jit_direct_fns`: the address of the PostgreSQL function, and the rest. -/
structure JitDirectFn where
  pgFn : BitVec 64
  dfn : DirectFn
  deriving DecidableEq

/-- `jit_fn_hash`. -/
def jitFnHash (fn : BitVec 64) : BitVec 32 := (((fn >>> 4) * 11400714819323198485#64) >>> 32).setWidth 32

/-- `jit_fn_ht` and `jit_fn_ht_mask`. -/
structure JitFnTable where
  mask : Nat
  slots : LinearProbing.Table JitDirectFn

/-- The slot at which a search begins. -/
def jitFnHome (mask : Nat) (fn : BitVec 64) : Nat := (jitFnHash fn).toNat &&& mask

/-- The doubling of `sz`, in so many turns. -/
def jitFnHtSize (count : Nat) : Nat → Nat → Option Nat
  | 0, _ => none
  | turns + 1, sz => if sz < count * 3 then jitFnHtSize count turns (sz * 2) else some sz

/-- `jit_fn_ht_init`: a table of at least 1024 slots, and of three times as many as there are entries; in 21 turns it doubles to `2 ^ 30`
slots. -/
def jitFnHtInit (fns : List JitDirectFn) : Option JitFnTable :=
  (jitFnHtSize fns.length 21 1024).bind fun sz =>
    (LinearProbing.tryBuild sz (nextSlot (sz - 1)) (fun e : JitDirectFn => jitFnHome (sz - 1) e.pgFn) fns).map fun slots => ⟨sz - 1, slots⟩

/-- `jit_find_direct_fn`: the entry, if there is one, and the table afterwards. -/
def jitFindDirectFn (fns : List JitDirectFn) (ht : Option JitFnTable) (fn : BitVec 64) : Option (Option JitDirectFn × JitFnTable) :=
  (match ht with
    | some t => some t
    | none => jitFnHtInit fns).bind fun t =>
      (LinearProbing.find (nextSlot t.mask) t.slots JitDirectFn.pgFn fn (t.mask + 1) (jitFnHome t.mask fn)).map fun e => (e, t)

/-- One call after another. -/
def jitFindDirectFns (fns : List JitDirectFn) : Option JitFnTable → List (BitVec 64) → Option (List (Option JitDirectFn))
  | _, [] => some []
  | ht, fn :: calls =>
    (jitFindDirectFn fns ht fn).bind fun r => (jitFindDirectFns fns (some r.2) calls).map fun es => r.1 :: es

end PgJitter
