import PgJitter.Lemmas.HashedSaop

/-!
# The comparison tree as code

The loop over the work stack lays out, for every range, the comparison with the median, the code of the right half, and after it
the code of the left half; a run through the code of a range finds the scalar exactly when it is among the constants of the range.
-/

namespace PgJitter

open Assembly

namespace HashedSaopAux

variable {sorted : List Datum}

/-- The code of a range stands at `p`, and at positions from `b` on. `F` and `N` are the jumps to the found and the not-found
path. -/
inductive SubtreeAt (sorted : List Datum) (Q : SaopProgram) (F N : Nat → Prop) (b : Nat) : Nat → Int → Int → Prop where
  | empty {p : Nat} {lo hi : Int} : b ≤ p → hi < lo → Q.code[p]? = some .jump → N p → SubtreeAt sorted Q F N b p lo hi
  | single {p : Nat} {k : Int} : b ≤ p → Q.code[p]? = some (.cmpEqual (valAt sorted k)) → F p →
      Q.code[p + 1]? = some .jump → N (p + 1) → SubtreeAt sorted Q F N b p k k
  | node {p q : Nat} {lo hi : Int} : b ≤ p → lo < hi → Q.code[p]? = some (.cmpEqual (valAt sorted (median lo hi))) → F p →
      Q.code[p + 1]? = some (.cmpSigLess (valAt sorted (median lo hi))) → Q.target (p + 1) = some q →
      SubtreeAt sorted Q F N b (p + 2) (median lo hi + 1) hi → SubtreeAt sorted Q F N b q lo (median lo hi - 1) →
      SubtreeAt sorted Q F N b p lo hi

/-- A layout stays when the code and the labels from `b` on do, and the jumps recorded do. -/
theorem SubtreeAt.mono {Q Q' : SaopProgram} {F F' N N' : Nat → Prop} {b b' p : Nat} {lo hi : Int}
    (h : SubtreeAt sorted Q F N b p lo hi) (hb : b' ≤ b)
    (hcode : ∀ (j : Nat) (i : SaopInstr), Q.code[j]? = some i → Q'.code[j]? = some i)
    (htarget : ∀ j l, b ≤ j → Q.target j = some l → Q'.target j = some l) (hF : ∀ j, F j → F' j) (hN : ∀ j, N j → N' j) :
    SubtreeAt sorted Q' F' N' b' p lo hi := by
  induction h with
  | empty hp hlt hjump hn => exact .empty (hb.trans hp) hlt (hcode _ _ hjump) (hN _ hn)
  | single hp heq hf hjump hn => exact .single (hb.trans hp) (hcode _ _ heq) (hF _ hf) (hcode _ _ hjump) (hN _ hn)
  | node hp hlt heq hf hless hq _ _ ihr ihl =>
    exact .node (hb.trans hp) hlt (hcode _ _ heq) (hF _ hf) (hcode _ _ hless) (htarget _ _ (by omega) hq) ihr ihl

/-! ### Running through a range -/

/-- A constant of the range is the scalar. -/
def InRange (sorted : List Datum) (d : Datum) (lo hi : Int) : Prop := ∃ k, lo ≤ k ∧ k ≤ hi ∧ valAt sorted k = d

/-- The constants of a sorted list rise with the position. -/
theorem valAt_mono (hsorted : sorted.Pairwise fun a b => a.toInt ≤ b.toInt) {i j : Int} (hi : 0 ≤ i) (hij : i ≤ j)
    (hj : j < sorted.length) : (valAt sorted i).toInt ≤ (valAt sorted j).toInt := by
  have hjlt : j.toNat < sorted.length := by omega
  have hilt : i.toNat < sorted.length := by omega
  simp only [valAt, List.getD_eq_getElem?_getD, List.getElem?_eq_getElem hilt, List.getElem?_eq_getElem hjlt, Option.getD_some]
  rcases Int.lt_or_eq_of_le hij with hlt | rfl
  · exact List.pairwise_iff_getElem.1 hsorted _ _ hilt hjlt (by omega)
  · exact Int.le_refl _

/-- The median of a range of two or more lies in it. -/
theorem median_bounds {lo hi : Int} (h : lo < hi) : lo ≤ median lo hi ∧ median lo hi < hi := by
  unfold median
  omega

section Sorted

variable (hsorted : sorted.Pairwise fun a b => a.toInt ≤ b.toInt) {lo hi : Int} (hlo : 0 ≤ lo) (hhi : hi < sorted.length)
  (hlt : lo < hi) {d : Datum}
include hsorted hlo hhi hlt

/-- Below the median, only the left half can hold the scalar. -/
theorem inRange_left (h : d.toInt < (valAt sorted (median lo hi)).toInt) :
    InRange sorted d lo hi ↔ InRange sorted d lo (median lo hi - 1) := by
  have hm := median_bounds hlt
  constructor
  · rintro ⟨k, hk, hk', rfl⟩
    refine ⟨k, hk, ?_, rfl⟩
    by_contra hge
    have := valAt_mono hsorted (i := median lo hi) (j := k) (by omega) (by omega) (by omega)
    omega
  · rintro ⟨k, hk, hk', rfl⟩
    exact ⟨k, hk, by omega, rfl⟩

/-- Above the median, only the right half can hold the scalar. -/
theorem inRange_right (h : (valAt sorted (median lo hi)).toInt < d.toInt) :
    InRange sorted d lo hi ↔ InRange sorted d (median lo hi + 1) hi := by
  have hm := median_bounds hlt
  constructor
  · rintro ⟨k, hk, hk', rfl⟩
    refine ⟨k, ?_, hk', rfl⟩
    by_contra hge
    have := valAt_mono hsorted (i := k) (j := median lo hi) (by omega) (by omega) (by omega)
    omega
  · rintro ⟨k, hk, hk', rfl⟩
    exact ⟨k, by omega, hk', rfl⟩

end Sorted

/-- A run through the code of a range ends on the found path exactly when a constant of the range is the scalar, and else on the
not-found path. -/
theorem SubtreeAt.runs (hsorted : sorted.Pairwise fun a b => a.toInt ≤ b.toInt) {Q : SaopProgram} {F N : Nat → Prop}
    {lf ln : Nat} (hF : ∀ j, F j → Q.target j = some lf) (hN : ∀ j, N j → Q.target j = some ln) (arg : NullableDatum)
    (s : SaopState) {b p : Nat} {lo hi : Int} (h : SubtreeAt sorted Q F N b p lo hi) (hlo : 0 ≤ lo) (hhi : hi < sorted.length) :
    (InRange sorted s.r0 lo hi → Runs (SaopInstr.exec arg) Q (p, s) (lf, s)) ∧
      (¬InRange sorted s.r0 lo hi → Runs (SaopInstr.exec arg) Q (p, s) (ln, s)) := by
  induction h with
  | @empty p lo hi _ hlt hjump hn =>
    refine ⟨?_, fun _ => .jump hjump rfl (hN _ hn) .refl⟩
    rintro ⟨k, hk, hk', -⟩
    omega
  | @single p k _ heq hf hjump hn =>
    by_cases hv : s.r0 = valAt sorted k
    · have hexec : SaopInstr.exec arg (.cmpEqual (valAt sorted k)) s = .jump s := by
        simp only [SaopInstr.exec, jumpIf, hv, beq_self_eq_true, if_true]
      exact ⟨fun _ => .jump heq hexec (hF _ hf) .refl, fun hno => absurd ⟨k, Int.le_refl k, Int.le_refl k, hv.symm⟩ hno⟩
    · have hexec : SaopInstr.exec arg (.cmpEqual (valAt sorted k)) s = .next s := by
        simp only [SaopInstr.exec, jumpIf, beq_eq_false_iff_ne.2 hv, Bool.false_eq_true, if_false]
      refine ⟨?_, fun _ => .next heq hexec (.jump hjump rfl (hN _ hn) .refl)⟩
      rintro ⟨k', hk, hk', hv'⟩
      rw [Int.le_antisymm hk' hk] at hv'
      exact absurd hv'.symm hv
  | @node p q lo hi _ hlt heq hf hless hq _ _ ihr ihl =>
    have hm := median_bounds hlt
    obtain ⟨hrf, hrn⟩ := ihr (by omega) hhi
    obtain ⟨hlf, hln⟩ := ihl hlo (by omega)
    by_cases hv : s.r0 = valAt sorted (median lo hi)
    · have hexec : SaopInstr.exec arg (.cmpEqual (valAt sorted (median lo hi))) s = .jump s := by
        simp only [SaopInstr.exec, jumpIf, hv, beq_self_eq_true, if_true]
      exact ⟨fun _ => .jump heq hexec (hF _ hf) .refl,
        fun hno => absurd ⟨median lo hi, hm.1, Int.le_of_lt hm.2, hv.symm⟩ hno⟩
    · have hne : SaopInstr.exec arg (.cmpEqual (valAt sorted (median lo hi))) s = .next s := by
        simp only [SaopInstr.exec, jumpIf, beq_eq_false_iff_ne.2 hv, Bool.false_eq_true, if_false]
      by_cases hless' : s.r0.toInt < (valAt sorted (median lo hi)).toInt
      · have hexec : SaopInstr.exec arg (.cmpSigLess (valAt sorted (median lo hi))) s = .jump s := by
          simp only [SaopInstr.exec, jumpIf, BitVec.slt, hless', decide_true, if_true]
        rw [inRange_left hsorted hlo hhi hlt hless']
        exact ⟨fun hin => .next heq hne (.jump hless hexec hq (hlf hin)),
          fun hno => .next heq hne (.jump hless hexec hq (hln hno))⟩
      · have hexec : SaopInstr.exec arg (.cmpSigLess (valAt sorted (median lo hi))) s = .next s := by
          simp only [SaopInstr.exec, jumpIf, BitVec.slt, hless', decide_false, Bool.false_eq_true, if_false]
        have hgt : (valAt sorted (median lo hi)).toInt < s.r0.toInt :=
          Int.lt_iff_le_and_ne.2 ⟨Int.not_lt.1 hless', fun h => hv (BitVec.eq_of_toInt_eq h.symm)⟩
        rw [inRange_right hsorted hlo hhi hlt hgt]
        exact ⟨fun hin => .next heq hne (.next hless hexec (hrf hin)),
          fun hno => .next heq hne (.next hless hexec (hrn hno))⟩

/-! ### What the loop over the work stack lays out -/

/-- Which instructions have a recorded or a labelled jump: comparisons lead to the found path, jumps to the not-found path, and
only the comparisons of order are labelled so far. -/
structure Kinds (st : TreeState) : Prop where
  found : ∀ j ∈ st.found, ∃ v, st.prog.code[j]? = some (.cmpEqual v)
  notfound : ∀ j ∈ st.notfound, st.prog.code[j]? = some .jump
  target : ∀ j l, st.prog.target j = some l → ∃ v, st.prog.code[j]? = some (.cmpSigLess v)

/-- From `st` to `st'` code was added and jumps were recorded; of the jumps before it, at most `e` got a label. -/
structure Grows (e : Option Nat) (st st' : TreeState) : Prop where
  code : ∀ (j : Nat) (i : SaopInstr), st.prog.code[j]? = some i → st'.prog.code[j]? = some i
  here : st.prog.here ≤ st'.prog.here
  target : ∀ j < st.prog.here, some j ≠ e → st'.prog.target j = st.prog.target j
  found : ∀ j ∈ st.found, j ∈ st'.found
  notfound : ∀ j ∈ st.notfound, j ∈ st'.notfound

/-- What the loop has done from `st` to `st'` when the range `w` was popped and all the ranges pushed for it are done. -/
structure Laid (sorted : List Datum) (w : WorkItem) (st st' : TreeState) : Prop where
  kinds : Kinds st'
  grows : Grows w.entryJump st st'
  entry : ∀ j, w.entryJump = some j → j < st.prog.here → st'.prog.target j = some st.prog.here
  subtree : SubtreeAt sorted st'.prog (· ∈ st'.found) (· ∈ st'.notfound) st.prog.here st.prog.here w.lo w.hi

theorem Grows.trans {e e' : Option Nat} {st st' st'' : TreeState} (h : Grows e st st') (h' : Grows e' st' st'')
    (he' : ∀ j, e' = some j → st.prog.here ≤ j) : Grows e st st'' := by
  refine ⟨fun j i hi => h'.code j i (h.code j i hi), h.here.trans h'.here, ?_, fun j hj => h'.found j (h.found j hj),
    fun j hj => h'.notfound j (h.notfound j hj)⟩
  intro j hj hne
  have hne' : some j ≠ e' := by
    intro heq
    have := he' j heq.symm
    omega
  have hhere := h.here
  rw [h'.target j (by omega) hne', h.target j hj hne]

theorem grows_emitFound (st : TreeState) (i : SaopInstr) : Grows none st (st.emitFound i) :=
  ⟨fun _ _ hi => Program.getElem?_emit_left hi _, by simp [TreeState.emitFound], fun _ _ _ => rfl,
    fun _ hj => List.mem_append_left _ hj, fun _ hj => hj⟩

theorem grows_emitNotFound (st : TreeState) : Grows none st st.emitNotFound :=
  ⟨fun _ _ hi => Program.getElem?_emit_left hi _, by simp [TreeState.emitNotFound], fun _ _ _ => rfl, fun _ hj => hj,
    fun _ hj => List.mem_append_left _ hj⟩

theorem grows_emitLess (st : TreeState) (v : Datum) : Grows none st { st with prog := st.prog.emit [.cmpSigLess v] } :=
  ⟨fun _ _ hi => Program.getElem?_emit_left hi _, by simp, fun _ _ _ => rfl, fun _ hj => hj, fun _ hj => hj⟩

/-- The label of a node goes to a comparison of order. -/
theorem Kinds.enter {st : TreeState} (h : Kinds st) {e : Option Nat}
    (he : ∀ j, e = some j → ∃ v, st.prog.code[j]? = some (.cmpSigLess v)) : Kinds (st.enter e) := by
  cases e with
  | none => exact h
  | some j =>
    refine ⟨h.found, h.notfound, ?_⟩
    intro j' l hl
    by_cases heq : j' = j
    · exact heq ▸ he j rfl
    · exact h.target j' l ((Program.target_setLabel_of_ne st.prog heq _).symm.trans hl)

theorem code_enter (st : TreeState) (e : Option Nat) : (st.enter e).prog.code = st.prog.code := by
  cases e <;> rfl

theorem here_enter (st : TreeState) (e : Option Nat) : (st.enter e).prog.here = st.prog.here := by
  rw [Program.here, code_enter, Program.here]

theorem found_enter (st : TreeState) (e : Option Nat) : (st.enter e).found = st.found := by
  cases e <;> rfl

theorem notfound_enter (st : TreeState) (e : Option Nat) : (st.enter e).notfound = st.notfound := by
  cases e <;> rfl

theorem target_enter_of_ne (st : TreeState) {e : Option Nat} {j : Nat} (h : some j ≠ e) :
    (st.enter e).prog.target j = st.prog.target j := by
  cases e with
  | none => rfl
  | some j' => exact Program.target_setLabel_of_ne st.prog (fun heq => h (congrArg some heq)) _

theorem target_enter_self (st : TreeState) (j : Nat) : (st.enter (some j)).prog.target j = some st.prog.here :=
  Program.target_setLabel_self _ _ _

/-- A comparison recorded as leading to the found path. -/
theorem Kinds.emitFound {st : TreeState} (h : Kinds st) (v : Datum) : Kinds (st.emitFound (.cmpEqual v)) := by
  refine ⟨?_, ?_, ?_⟩
  · intro j hj
    rcases List.mem_append.1 hj with hj | hj
    · obtain ⟨u, hu⟩ := h.found j hj
      exact ⟨u, Program.getElem?_emit_left hu _⟩
    · rw [List.mem_singleton.1 hj]
      exact ⟨v, Program.getElem?_emit_right st.prog [_] 0⟩
  · intro j hj
    exact Program.getElem?_emit_left (h.notfound j hj) _
  · intro j l hl
    obtain ⟨u, hu⟩ := h.target j l hl
    exact ⟨u, Program.getElem?_emit_left hu _⟩

/-- A jump recorded as leading to the not-found path. -/
theorem Kinds.emitNotFound {st : TreeState} (h : Kinds st) : Kinds st.emitNotFound := by
  refine ⟨?_, ?_, ?_⟩
  · intro j hj
    obtain ⟨u, hu⟩ := h.found j hj
    exact ⟨u, Program.getElem?_emit_left hu _⟩
  · intro j hj
    rcases List.mem_append.1 hj with hj | hj
    · exact Program.getElem?_emit_left (h.notfound j hj) _
    · rw [List.mem_singleton.1 hj]
      exact Program.getElem?_emit_right st.prog [_] 0
  · intro j l hl
    obtain ⟨u, hu⟩ := h.target j l hl
    exact ⟨u, Program.getElem?_emit_left hu _⟩

/-- A comparison of order, not yet labelled. -/
theorem Kinds.emitLess {st : TreeState} (h : Kinds st) (v : Datum) :
    Kinds { st with prog := st.prog.emit [.cmpSigLess v] } := by
  refine ⟨?_, ?_, ?_⟩
  · intro j hj
    obtain ⟨u, hu⟩ := h.found j hj
    exact ⟨u, Program.getElem?_emit_left hu _⟩
  · intro j hj
    exact Program.getElem?_emit_left (h.notfound j hj) _
  · intro j l hl
    obtain ⟨u, hu⟩ := h.target j l hl
    exact ⟨u, Program.getElem?_emit_left hu _⟩

/-- A labelled jump stands in the code. -/
theorem Kinds.lt_here {st : TreeState} (h : Kinds st) {j l : Nat} (hl : st.prog.target j = some l) : j < st.prog.here := by
  obtain ⟨v, hv⟩ := h.target j l hl
  exact Program.lt_here hv

/-- What was emitted after the label of a node. -/
theorem Grows.of_enter {st st' : TreeState} {e : Option Nat} (h : Grows none (st.enter e) st') :
    Grows e st st' ∧ ∀ j, e = some j → j < st.prog.here → st'.prog.target j = some st.prog.here := by
  refine ⟨⟨fun j i hi => h.code j i (by rw [code_enter]; exact hi), ?_, ?_, ?_, ?_⟩, ?_⟩
  · have := h.here
    rwa [here_enter] at this
  · intro j hj hne
    rw [h.target j (by rw [here_enter]; exact hj) (Option.some_ne_none j), target_enter_of_ne st hne]
  · intro j hj
    exact h.found j (by rw [found_enter]; exact hj)
  · intro j hj
    exact h.notfound j (by rw [notfound_enter]; exact hj)
  · rintro j rfl hj
    rw [h.target j (by rw [here_enter]; exact hj) (Option.some_ne_none j), target_enter_self]

/-- The code of an empty range. -/
theorem laid_empty {w : WorkItem} {st : TreeState} (hkinds : Kinds (st.enter w.entryJump)) (hempty : w.hi < w.lo) :
    Laid sorted w st (st.enter w.entryJump).emitNotFound := by
  obtain ⟨hgrows, hentry⟩ := (grows_emitNotFound (st.enter w.entryJump)).of_enter
  refine ⟨hkinds.emitNotFound, hgrows, hentry, ?_⟩
  have hjump := Program.getElem?_emit_right (st.enter w.entryJump).prog [SaopInstr.jump] 0
  rw [here_enter] at hjump
  refine .empty (Nat.le_refl _) hempty hjump ?_
  simp only [TreeState.emitNotFound, here_enter]
  exact List.mem_append_right _ (List.mem_singleton.2 rfl)

/-- The code of a range of one constant. -/
theorem laid_single {w : WorkItem} {st : TreeState} (hkinds : Kinds (st.enter w.entryJump)) (hsingle : w.lo = w.hi) :
    Laid sorted w st ((st.enter w.entryJump).emitFound (.cmpEqual (valAt sorted w.lo))).emitNotFound := by
  generalize hst₁ : (st.enter w.entryJump).emitFound (.cmpEqual (valAt sorted w.lo)) = st₁
  have hgrows₁ : Grows none (st.enter w.entryJump) st₁ := hst₁ ▸ grows_emitFound _ _
  have hhere₁ : st₁.prog.here = st.prog.here + 1 := by
    rw [← hst₁, TreeState.emitFound, Program.here_emit, here_enter, List.length_singleton]
  obtain ⟨hgrows, hentry⟩ := (hgrows₁.trans (grows_emitNotFound st₁) (fun _ h => nomatch h)).of_enter
  refine ⟨?_, hgrows, hentry, ?_⟩
  · exact (hst₁ ▸ hkinds.emitFound (valAt sorted w.lo) : Kinds st₁).emitNotFound
  · have hcmp : st₁.prog.code[st.prog.here]? = some (.cmpEqual (valAt sorted w.lo)) := by
      have := Program.getElem?_emit_right (st.enter w.entryJump).prog [SaopInstr.cmpEqual (valAt sorted w.lo)] 0
      rw [here_enter] at this
      rw [← hst₁]
      exact this
    have hjump := Program.getElem?_emit_right st₁.prog [SaopInstr.jump] 0
    rw [hhere₁] at hjump
    rw [← hsingle]
    refine .single (Nat.le_refl _) (Program.getElem?_emit_left hcmp _) ?_ hjump ?_
    · refine (grows_emitNotFound st₁).found _ ?_
      rw [← hst₁]
      simp only [TreeState.emitFound, here_enter]
      exact List.mem_append_right _ (List.mem_singleton.2 rfl)
    · simp only [TreeState.emitNotFound, hhere₁]
      exact List.mem_append_right _ (List.mem_singleton.2 rfl)

/-- The code of a range from that of its halves. -/
theorem laid_node {w : WorkItem} {st st₁ st₂ st₃ : TreeState} (hlt : w.lo < w.hi)
    (hst₁ : st₁ = (st.enter w.entryJump).emitFound (.cmpEqual (valAt sorted (median w.lo w.hi))))
    (hright : Laid sorted ⟨median w.lo w.hi + 1, w.hi, none⟩
      { st₁ with prog := st₁.prog.emit [.cmpSigLess (valAt sorted (median w.lo w.hi))] } st₂)
    (hleft : Laid sorted ⟨w.lo, median w.lo w.hi - 1, some st₁.prog.here⟩ st₂ st₃) : Laid sorted w st st₃ := by
  have hgrows₁ : Grows none (st.enter w.entryJump) st₁ := hst₁ ▸ grows_emitFound _ _
  have hhere₁ : st₁.prog.here = st.prog.here + 1 := by
    rw [hst₁, TreeState.emitFound, Program.here_emit, here_enter, List.length_singleton]
  have hless := grows_emitLess st₁ (valAt sorted (median w.lo w.hi))
  have hafter : Grows none st₁ st₃ := by
    refine (hless.trans hright.grows fun _ h => nomatch h).trans hleft.grows ?_
    rintro j hj
    rw [← Option.some.inj hj]
  have hhere₂ : st₁.prog.here + 1 ≤ st₂.prog.here := by
    have := hright.grows.here
    rwa [Program.here_emit, List.length_singleton] at this
  obtain ⟨hgrows, hentry⟩ := (hgrows₁.trans hafter fun _ h => nomatch h).of_enter
  refine ⟨hleft.kinds, hgrows, hentry, ?_⟩
  have hcmp : st₁.prog.code[st.prog.here]? = some (.cmpEqual (valAt sorted (median w.lo w.hi))) := by
    have := Program.getElem?_emit_right (st.enter w.entryJump).prog [SaopInstr.cmpEqual (valAt sorted (median w.lo w.hi))] 0
    rw [here_enter] at this
    rw [hst₁]
    exact this
  have hcmpLess := hleft.grows.code _ _ (hright.grows.code _ _
    (Program.getElem?_emit_right st₁.prog [SaopInstr.cmpSigLess (valAt sorted (median w.lo w.hi))] 0))
  rw [hhere₁] at hcmpLess
  have hq := hleft.entry _ rfl (by omega)
  rw [hhere₁] at hq
  refine .node (q := st₂.prog.here) (Nat.le_refl _) hlt (hafter.code _ _ hcmp) ?_ hcmpLess hq ?_ ?_
  · refine hafter.found _ ?_
    rw [hst₁]
    simp only [TreeState.emitFound, here_enter]
    exact List.mem_append_right _ (List.mem_singleton.2 rfl)
  · -- the right half was laid out first: of its jumps none is labelled later
    have hsub := hright.subtree
    rw [Program.here_emit, List.length_singleton, hhere₁] at hsub
    refine hsub.mono (by omega) hleft.grows.code ?_ hleft.grows.found hleft.grows.notfound
    intro j l hj hl
    rw [hleft.grows.target j (hright.kinds.lt_here hl) ?_]
    · exact hl
    · intro heq
      have := Option.some.inj heq
      omega
  · exact hleft.subtree.mono (by omega) (fun _ _ h => h) (fun _ _ _ h => h) (fun _ h => h) (fun _ h => h)

/-- Popping a range lays out its code, and that of the ranges pushed for it, before the loop comes to the rest of the stack. -/
theorem emitTree_cons (n : Nat) : ∀ (w : WorkItem) (work : List WorkItem) (st : TreeState), w.size ≤ n → Kinds st →
    (∀ j, w.entryJump = some j → ∃ v, st.prog.code[j]? = some (.cmpSigLess v)) →
    ∃ st', emitTree sorted (w :: work) st = emitTree sorted work st' ∧ Laid sorted w st st' := by
  induction n with
  | zero =>
    intro w work st hsize
    simp [WorkItem.size] at hsize
  | succ n ih =>
    intro w work st hsize hkinds hentry
    have hk := hkinds.enter hentry
    rw [emitTree]
    by_cases hempty : w.lo > w.hi
    · have hnode : emitNode sorted w st = ((st.enter w.entryJump).emitNotFound, []) := by simp only [emitNode, if_pos hempty]
      exact ⟨_, by rw [hnode, List.nil_append], laid_empty hk hempty⟩
    by_cases hsingle : w.lo = w.hi
    · have hnode : emitNode sorted w st =
          (((st.enter w.entryJump).emitFound (.cmpEqual (valAt sorted w.lo))).emitNotFound, []) := by
        simp only [emitNode, if_neg hempty, if_pos hsingle]
      exact ⟨_, by rw [hnode, List.nil_append], laid_single hk hsingle⟩
    · have hlt : w.lo < w.hi := by omega
      have hm := median_bounds hlt
      obtain ⟨st₁, hst₁⟩ : ∃ st₁, st₁ = (st.enter w.entryJump).emitFound (.cmpEqual (valAt sorted (median w.lo w.hi))) :=
        ⟨_, rfl⟩
      have hnode : emitNode sorted w st = ({ st₁ with prog := st₁.prog.emit [.cmpSigLess (valAt sorted (median w.lo w.hi))] },
          [⟨median w.lo w.hi + 1, w.hi, none⟩, ⟨w.lo, median w.lo w.hi - 1, some st₁.prog.here⟩]) := by
        simp only [emitNode, if_neg hempty, if_neg hsingle, hst₁]
      have hk₁ : Kinds st₁ := hst₁ ▸ hk.emitFound _
      rw [hnode, List.cons_append, List.cons_append, List.nil_append]
      simp only [WorkItem.size] at hsize
      obtain ⟨st₂, heq₂, hright⟩ := ih ⟨median w.lo w.hi + 1, w.hi, none⟩
        (⟨w.lo, median w.lo w.hi - 1, some st₁.prog.here⟩ :: work) _ (by simp only [WorkItem.size]; omega)
        (hk₁.emitLess (valAt sorted (median w.lo w.hi))) (by simp)
      obtain ⟨st₃, heq₃, hleft⟩ := ih ⟨w.lo, median w.lo w.hi - 1, some st₁.prog.here⟩ work st₂
        (by simp only [WorkItem.size]; omega) hright.kinds (by
          intro j hj
          rw [← Option.some.inj hj]
          exact ⟨_, hright.grows.code _ _ (Program.getElem?_emit_right st₁.prog [_] 0)⟩)
      exact ⟨st₃, heq₂.trans heq₃, laid_node hlt hst₁ hright hleft⟩

/-- The loop over the work stack lays out the tree of all the constants. -/
theorem emitTree_laid (st : TreeState) (hkinds : Kinds st) :
    Laid sorted ⟨0, sorted.length - 1, none⟩ st (emitTree sorted [⟨0, sorted.length - 1, none⟩] st) := by
  obtain ⟨st', heq, hlaid⟩ := @emitTree_cons sorted _ ⟨0, sorted.length - 1, none⟩ [] st (Nat.le_refl _) hkinds
    (fun _ h => nomatch h)
  rw [heq, emitTree]
  exact hlaid

/-- A constant of the whole range. -/
theorem inRange_iff_mem {d : Datum} : InRange sorted d 0 (sorted.length - 1) ↔ d ∈ sorted := by
  constructor
  · rintro ⟨k, hk, hk', rfl⟩
    have hlt : k.toNat < sorted.length := by omega
    rw [valAt, List.getD_eq_getElem?_getD, List.getElem?_eq_getElem hlt, Option.getD_some]
    exact List.getElem_mem hlt
  · intro hmem
    obtain ⟨k, hk, rfl⟩ := List.mem_iff_getElem.1 hmem
    refine ⟨k, by omega, by omega, ?_⟩
    rw [valAt, List.getD_eq_getElem?_getD, Int.toNat_natCast, List.getElem?_eq_getElem hk, Option.getD_some]

/-- The comparison tree finds the scalar when the whole word is one of the constants. -/
theorem bsearch_stores (hsorted : sorted.Pairwise fun a b => a.toInt ≤ b.toInt) (inclause arrayHasNulls : Bool)
    (arg : NullableDatum) :
    Stores (emitBsearch inclause arrayHasNulls sorted) inclause arrayHasNulls arg (arg.value ∈ sorted) := by
  obtain ⟨st, hst⟩ : ∃ st : TreeState, st = ⟨Program.empty.emit [.cmpArgIsnull, .loadScalar], [], []⟩ := ⟨_, rfl⟩
  have hkinds : Kinds st := by
    rw [hst]
    exact ⟨fun _ h => absurd h List.not_mem_nil, fun _ h => absurd h List.not_mem_nil, fun _ _ h => nomatch h⟩
  have hlaid := @emitTree_laid sorted st hkinds
  obtain ⟨st', hst'⟩ : ∃ st', st' = emitTree sorted [⟨0, sorted.length - 1, none⟩] st := ⟨_, rfl⟩
  rw [← hst'] at hlaid
  have hP : emitBsearch inclause arrayHasNulls sorted =
      emitResults st'.prog (foundResult inclause) (notFoundResult inclause arrayHasNulls) st'.found st'.notfound [0] := by
    rw [emitBsearch, hst', hst]
  rw [hP]
  have hnull : st'.prog.code[0]? = some .cmpArgIsnull := hlaid.grows.code 0 _ (by rw [hst]; rfl)
  refine stores_of_body hnull fun _ s => ?_
  obtain ⟨Q, hQ⟩ : ∃ Q : SaopProgram, Q = emitResults st'.prog (foundResult inclause)
    (notFoundResult inclause arrayHasNulls) st'.found st'.notfound [0] := ⟨_, rfl⟩
  rw [← hQ]
  have hcode : ∀ (j : Nat) (i : SaopInstr), st'.prog.code[j]? = some i → Q.code[j]? = some i := fun j i hi =>
    hQ ▸ getElem?_emitResults _ _ _ _ _ _ hi
  have htarget : ∀ j, j < st'.prog.here → Q.target j = _ := fun j hj => hQ ▸ target_emitResults _ _ _ _ _ _ hj
  have hzero : ∀ j i, st'.prog.code[j]? = some i → i ≠ .cmpArgIsnull → j ∉ [0] := by
    rintro j i hi hne hmem
    rw [List.mem_singleton.1 hmem, hnull] at hi
    exact hne (Option.some.inj hi).symm
  have hload : Q.code[1]? = some .loadScalar := hcode 1 _ (hlaid.grows.code 1 _ (by rw [hst]; rfl))
  -- the three kinds of jumps stand at different positions, for the instructions there differ
  have hfound : ∀ j, j ∈ st'.found → Q.target j = some st'.prog.here := by
    intro j hj
    obtain ⟨v, hv⟩ := hlaid.kinds.found j hj
    have hnot : j ∉ st'.notfound := fun h => nomatch (hv.symm.trans (hlaid.kinds.notfound j h))
    rw [htarget j (Program.lt_here hv), if_neg (hzero j _ hv nofun), if_neg hnot, if_pos hj]
  have hnotfound : ∀ j, j ∈ st'.notfound → Q.target j = some (st'.prog.here + 3) := by
    intro j hj
    have hv := hlaid.kinds.notfound j hj
    rw [htarget j (Program.lt_here hv), if_neg (hzero j _ hv nofun), if_pos hj]
  have hkeep : ∀ j l, st'.prog.target j = some l → Q.target j = some l := by
    intro j l hl
    obtain ⟨v, hv⟩ := hlaid.kinds.target j l hl
    have hnf : j ∉ st'.notfound := fun h => nomatch (hv.symm.trans (hlaid.kinds.notfound j h))
    have hf : j ∉ st'.found := fun h => by
      obtain ⟨u, hu⟩ := hlaid.kinds.found j h
      nomatch (hv.symm.trans hu)
    rw [htarget j (Program.lt_here hv), if_neg (hzero j _ hv nofun), if_neg hnf, if_neg hf, hl]
  have hsub := hlaid.subtree.mono (Nat.le_refl _) hcode (fun j l _ => hkeep j l) (fun _ h => h) (fun _ h => h)
  have hhere : st.prog.here = 2 := by rw [hst]; rfl
  obtain ⟨hhit, hmiss⟩ := hsub.runs hsorted hfound hnotfound arg { s with r0 := arg.value } (Int.le_refl 0)
    (Int.sub_one_lt_of_le (Int.le_refl _))
  rw [inRange_iff_mem, hhere] at hhit hmiss
  by_cases hmem : arg.value ∈ sorted
  · have hend := runs_first st'.prog (foundResult inclause) (notFoundResult inclause arrayHasNulls) st'.found st'.notfound [0]
      arg { s with r0 := arg.value }
    rw [← hQ] at hend
    exact ⟨_, .next hload rfl ((hhit hmem).trans hend), by rw [if_pos hmem]⟩
  · have hend := runs_second st'.prog (foundResult inclause) (notFoundResult inclause arrayHasNulls) st'.found st'.notfound [0]
      arg { s with r0 := arg.value }
    rw [← hQ] at hend
    exact ⟨_, .next hload rfl ((hmiss hmem).trans hend), by rw [if_neg hmem]⟩

end HashedSaopAux

end PgJitter
