import PgJitter.MetaStats
import Mathlib.Tactic.GCongr
import Mathlib.Tactic.Positivity

/-!
# Helpers for `Theorems/MetaSelect.lean`

The loop of `adaptive_select` ends with the cheapest of the measured backends. A backend that dominates another one over no more calls is
cheaper, as long as a `double` holds the sums.
-/

namespace PgJitter
namespace MetaSelectAux

open AdaptiveStatsEntry

variable {e : AdaptiveStatsEntry} {samples : Nat}

/-! ## The cheapest backend -/

/-- The loop over backends in order ends with a measured one, and none of them that is measured is cheaper. -/
theorem bestLoop_cheapest {rest : List MetaBackend} {best : MetaBackend} (hbest : e.measured samples best = true)
    (hsorted : (best :: rest).Pairwise fun b c => b.index < c.index) :
    e.measured samples (e.bestLoop samples rest best) = true ∧
      ∀ c ∈ best :: rest, e.measured samples c = true → ¬ e.Cheaper c (e.bestLoop samples rest best) := by
  induction rest generalizing best with
  | nil =>
    refine ⟨hbest, fun c hc _ hcheaper => ?_⟩
    rw [List.mem_singleton.1 hc, bestLoop, Cheaper] at hcheaper
    omega
  | cons b rest ih =>
    rw [List.pairwise_cons, List.pairwise_cons] at hsorted
    obtain ⟨hfirst, hsecond, hrest⟩ := hsorted
    rw [bestLoop]
    split
    · rename_i htake
      obtain ⟨hmeasured, hcheapest⟩ := ih htake.1 (List.pairwise_cons.2 ⟨hsecond, hrest⟩)
      refine ⟨hmeasured, fun c hc hmc => ?_⟩
      rcases List.mem_cons.1 hc with rfl | hc
      · have hb := hcheapest b List.mem_cons_self htake.1
        rw [Cheaper] at hb ⊢
        omega
      · exact hcheapest c hc hmc
    · rename_i hkeep
      obtain ⟨hmeasured, hcheapest⟩ := ih hbest (List.pairwise_cons.2 ⟨fun c hc => hfirst c (List.mem_cons_of_mem b hc), hrest⟩)
      refine ⟨hmeasured, fun c hc hmc => ?_⟩
      rcases List.mem_cons.1 hc with rfl | hc
      · exact hcheapest c List.mem_cons_self hmc
      rcases List.mem_cons.1 hc with rfl | hc
      · have hle : ¬ e.totalCost c < e.totalCost best := fun hlt => hkeep ⟨hmc, hlt⟩
        have hb := hcheapest best List.mem_cons_self hbest
        have hidx := hfirst c List.mem_cons_self
        rw [Cheaper] at hb ⊢
        omega
      · exact hcheapest c (List.mem_cons_of_mem best hc) hmc

/-- Of two backends one is the cheaper one. -/
theorem cheaper_or_cheaper {b a : MetaBackend} (hne : b ≠ a) : e.Cheaper b a ∨ e.Cheaper a b := by
  have hidx : b.index ≠ a.index := by
    cases b <;> cases a <;> simp_all [MetaBackend.index]
  rw [Cheaper, Cheaper]
  omega

/-- The loop over all backends, where the first one is measured, ends with the one that is measured and than which none is cheaper. -/
theorem bestLoop_eq_iff (hsljit : e.measured samples .sljit = true) {a : MetaBackend} (ha : e.measured samples a = true) :
    e.bestLoop samples MetaBackend.all .sljit = a ↔ ∀ c, e.measured samples c = true → ¬ e.Cheaper c a := by
  have hskip : e.bestLoop samples MetaBackend.all .sljit = e.bestLoop samples [.asmjit, .mir] .sljit := by
    rw [MetaBackend.all, bestLoop, if_neg fun h => Nat.lt_irrefl _ h.2]
  obtain ⟨hmeasured, hcheapest⟩ := bestLoop_cheapest hsljit
    (by decide : [MetaBackend.sljit, .asmjit, .mir].Pairwise fun b c => b.index < c.index)
  rw [hskip]
  have hall : ∀ c : MetaBackend, c ∈ [MetaBackend.sljit, .asmjit, .mir] := by
    intro c
    cases c <;> decide
  constructor
  · rintro rfl c hc
    exact hcheapest c (hall c) hc
  · intro hnone
    by_contra hne
    rcases cheaper_or_cheaper (e := e) hne with hlt | hlt
    · exact hnone _ hmeasured hlt
    · exact hcheapest a (hall a) ha hlt

/-! ## Sums that a `double` holds -/

/-- A number below `2 ^ 53` is a `double`. -/
theorem roundDouble_of_lt {n : Nat} (h : n < 2 ^ 53) : roundDouble n = n := by
  have hlog : n.log2 + 1 - 53 = 0 := by
    rcases Nat.eq_zero_or_pos n with rfl | hpos
    · rfl
    · have hlt := (Nat.log2_lt (Nat.ne_of_gt hpos)).2 h
      omega
  simp only [roundDouble, hlog, Nat.pow_zero, Nat.div_one, Nat.mul_one]
  split
  · rename_i htie
    omega
  · rfl

/-- The total cost when the sum is below `2 ^ 53`. -/
theorem totalCost_of_lt {b : MetaBackend} (h : (e.compileNs b).toNat + (e.execNs b).toNat < 2 ^ 53) :
    e.totalCost b = (e.compileNs b).toNat + (e.execNs b).toNat := by
  rw [totalCost, roundDouble_of_lt (n := (e.compileNs b).toNat) (by omega), roundDouble_of_lt (n := (e.execNs b).toNat) (by omega),
    roundDouble_of_lt h]

/-- Less time per call over no more calls is less time. -/
theorem execNs_lt {b a : MetaBackend} (hpos : 0 < (e.callCount b).toNat) (hcalls : (e.callCount b).toNat ≤ (e.callCount a).toNat)
    (h : e.nsPerCall b < e.nsPerCall a) : (e.execNs b).toNat < (e.execNs a).toNat := by
  have hb : (0 : ℚ) < (e.callCount b).toNat := by exact_mod_cast hpos
  have ha : (0 : ℚ) < (e.callCount a).toNat := by exact_mod_cast Nat.lt_of_lt_of_le hpos hcalls
  have hle : ((e.callCount b).toNat : ℚ) ≤ (e.callCount a).toNat := by exact_mod_cast hcalls
  have hlt : ((e.execNs b).toNat : ℚ) < (e.execNs a).toNat := by
    calc ((e.execNs b).toNat : ℚ) = e.nsPerCall b * (e.callCount b).toNat := by rw [nsPerCall, div_mul_cancel₀ _ hb.ne']
      _ < e.nsPerCall a * (e.callCount b).toNat := by gcongr
      _ ≤ e.nsPerCall a * (e.callCount a).toNat := by
        have hpercall : 0 ≤ e.nsPerCall a := by rw [nsPerCall]; positivity
        gcongr
      _ = (e.execNs a).toNat := by rw [nsPerCall, div_mul_cancel₀ _ ha.ne']
  exact_mod_cast hlt

/-- A backend that dominates another one over no more calls is cheaper, where a `double` holds the sum. -/
theorem cheaper_of_dominates {b a : MetaBackend} (hpos : 0 < (e.callCount b).toNat)
    (hcalls : (e.callCount b).toNat ≤ (e.callCount a).toNat) (hsum : (e.compileNs a).toNat + (e.execNs a).toNat < 2 ^ 53)
    (h : e.Dominates b a) : e.Cheaper b a := by
  have hexec := execNs_lt hpos hcalls h.2
  have hcompile := h.1
  left
  rw [totalCost_of_lt hsum, totalCost_of_lt (by omega)]
  omega

end MetaSelectAux
end PgJitter
