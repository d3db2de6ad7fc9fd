import Mathlib.Logic.Relation

/-!
# Reaching stores

Control flow over a set of points in which an edge may store a content into the one location watched, and the classical
account of the location's content at a point: it is the content stored last on the way, or the first one if nothing was stored.
-/

namespace Reaching

variable {P V : Type}

/-- A flow graph: `edge p w q` says that control may go from `p` to `q`, storing `d` if `w = some d`, and keeping the content if
`w = none`. -/
structure FlowGraph (P V : Type) where
  edge : P → Option V → P → Prop

/-- One step of a run over points and contents. -/
inductive Step (G : FlowGraph P V) : P × V → P × V → Prop where
  | keep {p q : P} (v : V) : G.edge p none q → Step G (p, v) (q, v)
  | store {p q : P} (v d : V) : G.edge p (some d) q → Step G (p, v) (q, d)

/-- A run. -/
abbrev Run (G : FlowGraph P V) : P × V → P × V → Prop := Relation.ReflTransGen (Step G)

/-- Some path leads from one point to the other. -/
abbrev Reachable (G : FlowGraph P V) : P → P → Prop := Relation.ReflTransGen fun p q => ∃ w, G.edge p w q

/-- Some path without a store leads from one point to the other. -/
abbrev Storeless (G : FlowGraph P V) : P → P → Prop := Relation.ReflTransGen fun p q => G.edge p none q

/-- On some path from `p` to `q`, the last store is the one of `d` at `j`. -/
def LastStore (G : FlowGraph P V) (p j : P) (d : V) (q : P) : Prop :=
  Reachable G p j ∧ ∃ k, G.edge j (some d) k ∧ Storeless G k q

variable {G : FlowGraph P V}

/-- A run follows a path. -/
theorem Run.reachable {a b : P × V} (h : Run G a b) : Reachable G a.1 b.1 := by
  induction h with
  | refl => exact .refl
  | tail _ hstep ih =>
    cases hstep with
    | keep v he => exact ih.tail ⟨none, he⟩
    | store v d he => exact ih.tail ⟨some d, he⟩

/-- Along a storeless path the content stays. -/
theorem Storeless.run {p q : P} (h : Storeless G p q) (v : V) : Run G (p, v) (q, v) := by
  induction h with
  | refl => exact .refl
  | tail _ he ih => exact ih.tail (.keep v he)

/-- Every path is followed by a run, whatever content it starts with. -/
theorem Reachable.run {p q : P} (h : Reachable G p q) (v : V) : ∃ w, Run G (p, v) (q, w) := by
  induction h with
  | refl => exact ⟨v, .refl⟩
  | tail _ he ih =>
    obtain ⟨w, hrun⟩ := ih
    obtain ⟨o, he⟩ := he
    cases o with
    | none => exact ⟨w, hrun.tail (.keep w he)⟩
    | some d => exact ⟨d, hrun.tail (.store w d he)⟩

/-- The content at the end of a run is the one stored last, or the first one when nothing was stored. -/
theorem Run.last {p q : P} {v w : V} (h : Run G (p, v) (q, w)) :
    (Storeless G p q ∧ v = w) ∨ ∃ j, LastStore G p j w q := by
  generalize hb : (q, w) = b at h
  induction h generalizing q w with
  | refl =>
    obtain ⟨rfl, rfl⟩ := Prod.mk.inj hb
    exact Or.inl ⟨.refl, rfl⟩
  | tail hrun hstep ih =>
    cases hstep with
    | keep u he =>
      obtain ⟨rfl, rfl⟩ := Prod.mk.inj hb
      rcases ih rfl with ⟨hpath, heq⟩ | ⟨j, hreach, k, hst, hpath⟩
      · exact Or.inl ⟨hpath.tail he, heq⟩
      · exact Or.inr ⟨j, hreach, k, hst, hpath.tail he⟩
    | store u d he =>
      obtain ⟨rfl, rfl⟩ := Prod.mk.inj hb
      exact Or.inr ⟨_, Run.reachable hrun, _, he, .refl⟩

/-- A last store gives its content at the end of some run. -/
theorem LastStore.run {p j q : P} {d : V} (h : LastStore G p j d q) (v : V) : Run G (p, v) (q, d) := by
  obtain ⟨hreach, k, hst, hpath⟩ := h
  obtain ⟨w, hrun⟩ := hreach.run v
  exact (hrun.tail (.store w d hst)).trans (hpath.run d)

/-- Every run from `p` with content `v` ends at `q` with the content `c` exactly when every store that can be the last one stores
`c`, and `v` is `c` if `q` can be reached without a store. -/
theorem run_const_iff {p q : P} {v c : V} :
    (∀ w, Run G (p, v) (q, w) → w = c) ↔ (∀ j d, LastStore G p j d q → d = c) ∧ (Storeless G p q → v = c) := by
  constructor
  · intro h
    exact ⟨fun j d hlast => h d (hlast.run v), fun hpath => h v (hpath.run v)⟩
  · intro h w hrun
    rcases hrun.last with ⟨hpath, rfl⟩ | ⟨j, hlast⟩
    · exact h.2 hpath
    · exact h.1 j w hlast

/-- When points are ranked and control only moves up, a path goes up. -/
theorem Reachable.rank_le {r : P → Nat} (hup : ∀ p w q, G.edge p w q → r p < r q) {p q : P} (h : Reachable G p q) :
    r p ≤ r q := by
  induction h with
  | refl => exact Nat.le_refl _
  | tail _ he ih =>
    obtain ⟨w, he⟩ := he
    exact Nat.le_trans ih (Nat.le_of_lt (hup _ w _ he))

/-- A storeless path is a path. -/
theorem Storeless.reachable {p q : P} (h : Storeless G p q) : Reachable G p q :=
  Relation.ReflTransGen.mono (fun _ _ he => ⟨none, he⟩) _ _ h

/-- When control only moves up, a last store on the way to `q` is below `q`. -/
theorem LastStore.rank_lt {r : P → Nat} (hup : ∀ p w q, G.edge p w q → r p < r q) {p j q : P} {d : V}
    (h : LastStore G p j d q) : r j < r q := by
  obtain ⟨-, k, hst, hpath⟩ := h
  exact Nat.lt_of_lt_of_le (hup _ _ _ hst) (Reachable.rank_le hup (Storeless.reachable hpath))

end Reaching
