import Mathlib.Data.Nat.Find
import Mathlib.Data.List.Range
import Mathlib.Data.List.Perm.Subperm
import Mathlib.Logic.Function.Basic
import Mathlib.Algebra.Ring.Nat

/-!
# Open addressing with linear probing

A table of `n` slots, a home slot for every value, and the two loops that walk from the home slot, wrapping around: the insertion
to the first free slot, and the lookup to the value or the first free slot. Values are inserted without a look for duplicates,
and never removed.
-/

namespace LinearProbing

variable {V : Type}

/-- A table: the value of each slot, if it is occupied. -/
abbrev Table (V : Type) := Nat → Option V

/-- The insertion loop: the first free slot from `i` on, looking at no more than `fuel` slots. -/
def freeSlot (next : Nat → Nat) (t : Table V) : Nat → Nat → Option Nat
  | 0, _ => none
  | fuel + 1, i => if t i = none then some i else freeSlot next t fuel (next i)

/-- The lookup loop: whether `v` is met before a free slot, or `none` when `fuel` slots do not decide it. -/
def lookup [DecidableEq V] (next : Nat → Nat) (t : Table V) (v : V) : Nat → Nat → Option Bool
  | 0, _ => none
  | fuel + 1, i =>
    match t i with
    | none => some false
    | some u => if u = v then some true else lookup next t v fuel (next i)

/-- Insert a value. -/
def insert (n : Nat) (next : Nat → Nat) (home : V → Nat) (t : Table V) (v : V) : Table V :=
  match freeSlot next t n (home v) with
  | none => t
  | some i => Function.update t i (some v)

/-- Insert the values of a list into an empty table. -/
def build (n : Nat) (next : Nat → Nat) (home : V → Nat) (vs : List V) : Table V :=
  vs.foldl (insert n next home) fun _ => none

/-- Insert a value, unless `fuel` slots do not give a free one. -/
def tryInsert (fuel : Nat) (next : Nat → Nat) (home : V → Nat) (t : Table V) (v : V) : Option (Table V) :=
  (freeSlot next t fuel (home v)).map fun i => Function.update t i (some v)

/-- Insert the values of a list into an empty table, unless an insertion does not end. -/
def tryBuild (fuel : Nat) (next : Nat → Nat) (home : V → Nat) (vs : List V) : Option (Table V) :=
  vs.foldlM (tryInsert fuel next home) fun _ => none

/-- From its home slot to its own slot, all slots that a stored value passes are occupied. -/
def Chained (n : Nat) (home : V → Nat) (t : Table V) : Prop :=
  ∀ i v, t i = some v → ∃ k, i = (home v + k) % n ∧ ∀ j < k, t ((home v + j) % n) ≠ none

/-- At most `m` slots are occupied. -/
def OccupiedAtMost (t : Table V) (m : Nat) : Prop :=
  ∃ L : List Nat, L.length ≤ m ∧ ∀ i, t i ≠ none → i ∈ L

section Probing

variable {n : Nat} {next : Nat → Nat} {home : V → Nat} {t : Table V}

/-- With fewer than `n` occupied slots some slot on the way round from `h` is free, and before it all are occupied. -/
theorem exists_free_distance {m : Nat} (hocc : OccupiedAtMost t m) (hm : m < n) {h : Nat} (hh : h < n) :
    ∃ k < n, t ((h + k) % n) = none ∧ ∀ j < k, t ((h + j) % n) ≠ none := by
  obtain ⟨L, hlen, hL⟩ := hocc
  have hfree : ∃ k, k < n ∧ t ((h + k) % n) = none := by
    by_contra hall
    have hsub : List.range n ⊆ L := by
      intro i hi
      rw [List.mem_range] at hi
      refine hL i fun hnone => hall ⟨(i + (n - h)) % n, Nat.mod_lt _ (by omega), ?_⟩
      have hwrap : (h + (i + (n - h)) % n) % n = i := by
        rw [Nat.add_mod_mod, show h + (i + (n - h)) = i + n by omega, Nat.add_mod_right, Nat.mod_eq_of_lt hi]
      rw [hwrap]
      exact hnone
    have hcard := (List.nodup_range.subperm hsub).length_le
    rw [List.length_range] at hcard
    omega
  obtain ⟨hk, hnone⟩ := Nat.find_spec hfree
  refine ⟨Nat.find hfree, hk, hnone, ?_⟩
  intro j hj hj'
  exact Nat.find_min hfree hj ⟨by omega, hj'⟩

variable (hnext : ∀ i < n, next i = (i + 1) % n)
include hnext

/-- The next slot of the one at distance `k`. -/
theorem next_slot {h : Nat} (hn : 0 < n) (k : Nat) : next ((h + k) % n) = (h + (k + 1)) % n := by
  rw [hnext _ (Nat.mod_lt _ hn), Nat.mod_add_mod, Nat.add_assoc]

/-- The insertion loop passes the occupied slots. -/
theorem freeSlot_walk {h : Nat} (hn : 0 < n) {k : Nat} (hfree : t ((h + k) % n) = none)
    (hocc : ∀ j < k, t ((h + j) % n) ≠ none) {d fuel : Nat} (hd : d ≤ k) (hfuel : k < fuel + d) :
    freeSlot next t fuel ((h + d) % n) = some ((h + k) % n) := by
  induction fuel generalizing d with
  | zero => omega
  | succ fuel ih =>
    rw [freeSlot]
    rcases Nat.lt_or_eq_of_le hd with hlt | rfl
    · rw [if_neg (hocc d hlt), next_slot hnext hn]
      exact ih hlt (by omega)
    · rw [if_pos hfree]

/-- The lookup loop passes the slots that hold other values. -/
theorem lookup_walk [DecidableEq V] {h : Nat} (hn : 0 < n) {v : V} {k : Nat} {b : Bool}
    (hend : ∀ fuel, lookup next t v (fuel + 1) ((h + k) % n) = some b)
    (hother : ∀ j < k, ∃ u, t ((h + j) % n) = some u ∧ u ≠ v) {d fuel : Nat} (hd : d ≤ k) (hfuel : k < fuel + d) :
    lookup next t v fuel ((h + d) % n) = some b := by
  induction fuel generalizing d with
  | zero => omega
  | succ fuel ih =>
    rcases Nat.lt_or_eq_of_le hd with hlt | rfl
    · obtain ⟨u, hu, hne⟩ := hother d hlt
      simp only [lookup, hu, if_neg hne]
      rw [next_slot hnext hn]
      exact ih hlt (by omega)
    · exact hend fuel

/-- An insertion finds a free slot, at the end of a chain of occupied ones. -/
theorem insert_eq {m : Nat} (hocc : OccupiedAtMost t m) (hm : m < n) {v : V} (hv : home v < n) :
    ∃ k, insert n next home t v = Function.update t ((home v + k) % n) (some v) ∧ t ((home v + k) % n) = none ∧
      ∀ j < k, t ((home v + j) % n) ≠ none := by
  obtain ⟨k, hk, hfree, hbefore⟩ := exists_free_distance hocc hm hv
  refine ⟨k, ?_, hfree, hbefore⟩
  have hwalk : freeSlot next t n ((home v + 0) % n) = some ((home v + k) % n) :=
    freeSlot_walk hnext (by omega) hfree hbefore (Nat.zero_le k) (by omega)
  rw [Nat.add_zero, Nat.mod_eq_of_lt hv] at hwalk
  simp only [insert, hwalk]

end Probing

/-- What a table is after the values of a list were inserted. -/
structure Built (n : Nat) (home : V → Nat) (t : Table V) (vs : List V) : Prop where
  chained : Chained n home t
  occupied : OccupiedAtMost t vs.length
  contents : ∀ v, (∃ i, t i = some v) ↔ v ∈ vs

/-- The empty table. -/
theorem built_nil (n : Nat) (home : V → Nat) : Built n home (fun _ => none) [] where
  chained := fun _ _ h => nomatch h
  occupied := ⟨[], Nat.le_refl _, fun _ h => absurd rfl h⟩
  contents := fun _ => iff_of_false (fun ⟨_, h⟩ => Option.some_ne_none _ h.symm) List.not_mem_nil

section Building

variable {n : Nat} {next : Nat → Nat} {home : V → Nat} {t : Table V} {vs : List V}
variable (hnext : ∀ i < n, next i = (i + 1) % n) (hhome : ∀ v, home v < n)
include hnext hhome

/-- An insertion keeps the chains and adds the value. -/
theorem built_insert (h : Built n home t vs) (hlen : vs.length < n) (v : V) :
    Built n home (insert n next home t v) (vs ++ [v]) := by
  obtain ⟨k, hins, hfree, hbefore⟩ := insert_eq hnext h.occupied hlen (hhome v)
  rw [hins]
  -- an occupied slot stays occupied
  have hkeep : ∀ i, t i ≠ none → Function.update t ((home v + k) % n) (some v) i = t i := by
    intro i hi
    exact Function.update_of_ne (fun heq => hi (by rw [heq, hfree])) _ t
  refine ⟨?_, ?_, ?_⟩
  · intro i u hu
    by_cases hi : i = (home v + k) % n
    · rw [hi, Function.update_self] at hu
      cases hu
      refine ⟨k, hi, fun j hj => ?_⟩
      rw [hkeep _ (hbefore j hj)]
      exact hbefore j hj
    · rw [Function.update_of_ne hi] at hu
      obtain ⟨k', hk', hchain⟩ := h.chained i u hu
      refine ⟨k', hk', fun j hj => ?_⟩
      rw [hkeep _ (hchain j hj)]
      exact hchain j hj
  · obtain ⟨L, hL, hmem⟩ := h.occupied
    refine ⟨(home v + k) % n :: L, by simp only [List.length_cons, List.length_append, List.length_nil]; omega, ?_⟩
    intro i hi
    by_cases heq : i = (home v + k) % n
    · exact heq ▸ List.mem_cons_self
    · rw [Function.update_of_ne heq] at hi
      exact List.mem_cons_of_mem _ (hmem i hi)
  · intro u
    rw [List.mem_append, List.mem_singleton, ← h.contents u]
    constructor
    · rintro ⟨i, hi⟩
      by_cases heq : i = (home v + k) % n
      · rw [heq, Function.update_self] at hi
        exact Or.inr (Option.some.inj hi).symm
      · rw [Function.update_of_ne heq] at hi
        exact Or.inl ⟨i, hi⟩
    · rintro (⟨i, hi⟩ | rfl)
      · exact ⟨i, (hkeep i (by rw [hi]; exact Option.some_ne_none u)).trans hi⟩
      · exact ⟨_, Function.update_self _ _ t⟩

/-- A table that is large enough takes all the values of a list. -/
theorem built_build (hlen : vs.length ≤ n) : Built n home (build n next home vs) vs := by
  have hfold : ∀ (us ws : List V) (t : Table V), Built n home t us → us.length + ws.length ≤ n →
      Built n home (ws.foldl (insert n next home) t) (us ++ ws) := by
    intro us ws
    induction ws generalizing us with
    | nil =>
      intro t h _
      rw [List.append_nil]
      exact h
    | cons w ws ih =>
      intro t h hle
      rw [List.length_cons] at hle
      have hrec := ih (us ++ [w]) (insert n next home t w) (built_insert hnext hhome h (by omega) w)
        (by rw [List.length_append, List.length_singleton]; omega)
      rwa [List.append_assoc, List.singleton_append] at hrec
  exact hfold [] vs _ (built_nil n home) (by rwa [List.length_nil, Nat.zero_add])

/-- In a table that has room an insertion ends. -/
theorem tryInsert_eq (h : Built n home t vs) (hlen : vs.length < n) (v : V) :
    tryInsert n next home t v = some (insert n next home t v) := by
  obtain ⟨k, hk, hfree, hbefore⟩ := exists_free_distance h.occupied hlen (hhome v)
  have hwalk : freeSlot next t n ((home v + 0) % n) = some ((home v + k) % n) :=
    freeSlot_walk hnext (by omega) hfree hbefore (Nat.zero_le k) (by omega)
  rw [Nat.add_zero, Nat.mod_eq_of_lt (hhome v)] at hwalk
  simp only [tryInsert, insert, hwalk, Option.map_some]

/-- In a table that is large enough every insertion ends. -/
theorem tryBuild_eq (hlen : vs.length ≤ n) : tryBuild n next home vs = some (build n next home vs) := by
  have hfold : ∀ (us ws : List V) (t : Table V), Built n home t us → us.length + ws.length ≤ n →
      ws.foldlM (tryInsert n next home) t = some (ws.foldl (insert n next home) t) := by
    intro us ws
    induction ws generalizing us with
    | nil => exact fun t _ _ => rfl
    | cons w ws ih =>
      intro t h hle
      rw [List.length_cons] at hle
      have hrec := ih (us ++ [w]) (insert n next home t w) (built_insert hnext hhome h (by omega) w)
        (by rw [List.length_append, List.length_singleton]; omega)
      rw [List.foldlM_cons, tryInsert_eq hnext hhome h (by omega), List.foldl_cons]
      exact hrec
  exact hfold [] vs _ (built_nil n home) (by rwa [List.length_nil, Nat.zero_add])

/-- With a free slot left the lookup decides membership, within one round. -/
theorem lookup_built [DecidableEq V] (h : Built n home t vs) (hlen : vs.length < n) (v : V) :
    lookup next t v n (home v) = some (decide (v ∈ vs)) := by
  have hn : 0 < n := by omega
  obtain ⟨k, hk, hfree, hbefore⟩ := exists_free_distance h.occupied hlen (hhome v)
  have hstart : lookup next t v n (home v) = lookup next t v n ((home v + 0) % n) := by
    rw [Nat.add_zero, Nat.mod_eq_of_lt (hhome v)]
  rw [hstart]
  by_cases hstored : ∃ j, j < k ∧ t ((home v + j) % n) = some v
  · -- the value is met before the free slot
    have hmem : v ∈ vs := (h.contents v).1 ⟨_, hstored.choose_spec.2⟩
    obtain ⟨hj, hv⟩ := Nat.find_spec hstored
    refine lookup_walk hnext hn (k := Nat.find hstored) ?_ ?_ (Nat.zero_le _) (by omega)
    · intro fuel
      simp only [lookup, hv, if_true, hmem, decide_true]
    · intro j hjlt
      obtain ⟨u, hu⟩ := Option.ne_none_iff_exists'.1 (hbefore j (by omega))
      refine ⟨u, hu, ?_⟩
      rintro rfl
      exact Nat.find_min hstored hjlt ⟨by omega, hu⟩
  · -- a stored value stands before the first free slot, for its chain has no free slot
    have hmem : v ∉ vs := by
      intro hv
      obtain ⟨i, hi⟩ := (h.contents v).2 hv
      obtain ⟨d, rfl, hchain⟩ := h.chained i v hi
      rcases Nat.lt_trichotomy d k with hlt | rfl | hgt
      · exact hstored ⟨d, hlt, hi⟩
      · exact nomatch hfree.symm.trans hi
      · exact hchain k hgt hfree
    refine lookup_walk hnext hn (k := k) ?_ ?_ (Nat.zero_le _) (by omega)
    · intro fuel
      simp only [lookup, hfree, hmem, decide_false]
    · intro j hj
      obtain ⟨u, hu⟩ := Option.ne_none_iff_exists'.1 (hbefore j hj)
      refine ⟨u, hu, ?_⟩
      rintro rfl
      exact hstored ⟨j, hj, hu⟩

end Building

/-! ## Values with keys

Where the values have keys and the home slot is that of the key, values with one key stand in one chain, in the order in which they were
inserted. A search by the key finds the first of them.
-/

section Keys

variable {K : Type} [DecidableEq K]

/-- The search loop: the first value with a key that is met, if any is met before a free slot, or `none` when `fuel` slots do not decide
it. -/
def find (next : Nat → Nat) (t : Table V) (key : V → K) (k : K) : Nat → Nat → Option (Option V)
  | 0, _ => none
  | fuel + 1, i =>
    match t i with
    | none => some none
    | some u => if key u = k then some (some u) else find next t key k fuel (next i)

/-- From the home slot of a key to the first value with the key there are values with other keys. -/
def Leads (n : Nat) (home : K → Nat) (key : V → K) (t : Table V) (vs : List V) : Prop :=
  ∀ k v, vs.find? (fun u => key u = k) = some v →
    ∃ d, t ((home k + d) % n) = some v ∧ ∀ j < d, ∃ u, t ((home k + j) % n) = some u ∧ key u ≠ k

variable {n : Nat} {next : Nat → Nat} {home : K → Nat} {key : V → K} {t : Table V} {vs : List V}
  (hnext : ∀ i < n, next i = (i + 1) % n) (hhome : ∀ k, home k < n)

include hnext

/-- The search loop passes the slots that hold values with other keys. -/
theorem find_walk {h : Nat} (hn : 0 < n) {k : K} {d : Nat} {r : Option V}
    (hend : ∀ fuel, find next t key k (fuel + 1) ((h + d) % n) = some r)
    (hother : ∀ j < d, ∃ u, t ((h + j) % n) = some u ∧ key u ≠ k) {e fuel : Nat} (he : e ≤ d) (hfuel : d < fuel + e) :
    find next t key k fuel ((h + e) % n) = some r := by
  induction fuel generalizing e with
  | zero => omega
  | succ fuel ih =>
    rcases Nat.lt_or_eq_of_le he with hlt | rfl
    · obtain ⟨u, hu, hne⟩ := hother e hlt
      simp only [find, hu, if_neg hne]
      rw [next_slot hnext hn]
      exact ih hlt (by omega)
    · exact hend fuel

include hhome

/-- An insertion keeps the ways to the values. -/
theorem leads_insert (hb : Built n (fun v => home (key v)) t vs) (h : Leads n home key t vs) (hlen : vs.length < n) (v : V) :
    Leads n home key (insert n next (fun v => home (key v)) t v) (vs ++ [v]) := by
  have hslot : ∃ d, insert n next (fun v => home (key v)) t v = Function.update t ((home (key v) + d) % n) (some v) ∧
      t ((home (key v) + d) % n) = none ∧ ∀ j < d, t ((home (key v) + j) % n) ≠ none :=
    insert_eq hnext hb.occupied hlen (hhome (key v))
  obtain ⟨d, hins, hfree, hbefore⟩ := hslot
  rw [hins]
  have hkeep : ∀ i u, t i = some u → Function.update t ((home (key v) + d) % n) (some v) i = some u := by
    intro i u hu
    have hne : i ≠ (home (key v) + d) % n := by
      rintro rfl
      exact nomatch hu.symm.trans hfree
    rw [Function.update_of_ne hne, hu]
  intro k w hw
  rw [List.find?_append] at hw
  cases hold : vs.find? fun u => key u = k with
  | some w' =>
    rw [hold] at hw
    obtain rfl := Option.some.inj hw
    obtain ⟨d', hd', hbefore'⟩ := h k w' hold
    refine ⟨d', hkeep _ _ hd', fun j hj => ?_⟩
    obtain ⟨u, hu, hne⟩ := hbefore' j hj
    exact ⟨u, hkeep _ _ hu, hne⟩
  | none =>
    -- the first value with its key, at the end of the chain of its key
    rw [hold, Option.none_or] at hw
    obtain rfl : v = w := List.mem_singleton.1 (List.mem_of_find?_eq_some hw) ▸ rfl
    obtain rfl : key v = k := of_decide_eq_true (List.find?_some hw :)
    refine ⟨d, Function.update_self _ _ t, fun j hj => ?_⟩
    obtain ⟨u, hu⟩ := Option.ne_none_iff_exists'.1 (hbefore j hj)
    have hmem : u ∈ vs := (hb.contents u).1 ⟨_, hu⟩
    exact ⟨u, hkeep _ _ hu, fun heq => List.find?_eq_none.1 hold u hmem (decide_eq_true heq)⟩

/-- In a table that is large enough there is a way to every first value. -/
theorem leads_build (hlen : vs.length ≤ n) : Leads n home key (build n next (fun v => home (key v)) vs) vs := by
  have hfold : ∀ (us ws : List V) (t : Table V), Built n (fun v => home (key v)) t us → Leads n home key t us →
      us.length + ws.length ≤ n → Leads n home key (ws.foldl (insert n next fun v => home (key v)) t) (us ++ ws) := by
    intro us ws
    induction ws generalizing us with
    | nil =>
      intro t _ h _
      rw [List.append_nil]
      exact h
    | cons w ws ih =>
      intro t hb h hle
      rw [List.length_cons] at hle
      have hrec := ih (us ++ [w]) _ (built_insert hnext (fun v => hhome (key v)) hb (by omega) w)
        (leads_insert hnext hhome hb h (by omega) w) (by rw [List.length_append, List.length_singleton]; omega)
      rwa [List.append_assoc, List.singleton_append] at hrec
  exact hfold [] vs _ (built_nil n _) (fun _ _ hnone => nomatch hnone) (by rwa [List.length_nil, Nat.zero_add])

/-- With a free slot left a search finds the first value with the key, within one round. -/
theorem find_built (hb : Built n (fun v => home (key v)) t vs) (h : Leads n home key t vs) (hlen : vs.length < n) (k : K) :
    find next t key k n (home k) = some (vs.find? fun u => key u = k) := by
  have hn : 0 < n := by omega
  obtain ⟨f, hf, hfree, hbefore⟩ := exists_free_distance hb.occupied hlen (hhome k)
  have hstart : find next t key k n (home k) = find next t key k n ((home k + 0) % n) := by
    rw [Nat.add_zero, Nat.mod_eq_of_lt (hhome k)]
  rw [hstart]
  cases hfind : vs.find? fun u => key u = k with
  | some v =>
    obtain ⟨d, hd, hother⟩ := h k v hfind
    have hkey : key v = k := of_decide_eq_true (List.find?_some hfind :)
    have hdf : d < f := by
      by_contra hle
      rcases Nat.lt_or_eq_of_le (Nat.le_of_not_lt hle) with hlt | rfl
      · obtain ⟨u, hu, -⟩ := hother f hlt
        exact nomatch hfree.symm.trans hu
      · exact nomatch hfree.symm.trans hd
    refine find_walk hnext hn (d := d) (fun fuel => ?_) hother (Nat.zero_le d) (by omega)
    simp only [find, hd, hkey, if_true]
  | none =>
    refine find_walk hnext hn (d := f) (fun fuel => ?_) (fun j hj => ?_) (Nat.zero_le f) (by omega)
    · simp only [find, hfree]
    · obtain ⟨u, hu⟩ := Option.ne_none_iff_exists'.1 (hbefore j hj)
      have hmem : u ∈ vs := (hb.contents u).1 ⟨_, hu⟩
      exact ⟨u, hu, fun heq => List.find?_eq_none.1 hfind u hmem (decide_eq_true heq)⟩

end Keys

end LinearProbing
