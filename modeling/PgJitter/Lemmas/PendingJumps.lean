import PgJitter.Lemmas.CaseEmit
import PgJitter.PendingJumps

/-!
# The invariant of the recorded jumps

The entries are numbered in the order of their jumps, and a recorded jump is bound before the last loop exactly when its entry is
marked. Each turn of the main loop keeps this and adds entries with known targets.
-/

namespace PgJitter

open LeftScan

namespace PendingJumpsAux

variable {G : Type}

/-- The labels that a jump was bound to. -/
def labelsOf (e : JumpEmit) (j : Nat) : List (Nat × Nat) := e.bound.filter fun b => b.1 == j

/-- The entries that were recorded have these targets; the marked ones are bound to one label, the others to none. -/
structure Recorded (e : JumpEmit) (ts : List ℤ) : Prop where
  jumps : e.pending.map PendingJump.jump = List.range ts.length
  count : e.njumps = ts.length
  targets : e.pending.map PendingJump.target = ts
  marked : ∀ j, ts[j]? = some (-2) → ∃ l, labelsOf e j = [(j, l)]
  unmarked : ∀ j, ts[j]? ≠ some (-2) → labelsOf e j = []

/-- Before the main loop there are no entries. -/
theorem recorded_init : Recorded .init [] := ⟨rfl, rfl, rfl, fun _ h => (nomatch h), fun _ _ => rfl⟩

section
variable {e e' : JumpEmit} {ts : List ℤ}

theorem Recorded.length (h : Recorded e ts) : e.pending.length = ts.length := by
  rw [← h.targets, List.length_map]

/-- An entry and its number. -/
theorem Recorded.getElem? (h : Recorded e ts) {j : Nat} {t : ℤ} (hj : ts[j]? = some t) : e.pending[j]? = some ⟨j, t⟩ := by
  have hlt : j < ts.length := (List.getElem?_eq_some_iff.1 hj).1
  have hp : j < e.pending.length := by rwa [h.length]
  have hjump : (e.pending.map PendingJump.jump)[j]? = some j := by rw [h.jumps, List.getElem?_range hlt]
  have htarget : (e.pending.map PendingJump.target)[j]? = some t := by rw [h.targets, hj]
  rw [List.getElem?_map, List.getElem?_eq_getElem hp, Option.map_some, Option.some.injEq] at hjump htarget
  rw [List.getElem?_eq_getElem hp, Option.some.injEq]
  generalize e.pending[j] = p at hjump htarget
  cases p
  cases hjump
  cases htarget
  rfl

/-- What only touches labels keeps the invariant. -/
theorem Recorded.congr (h : Recorded e ts) (hp : e'.pending = e.pending) (hn : e'.njumps = e.njumps) (hb : e'.bound = e.bound) :
    Recorded e' ts := by
  have hl : ∀ j, labelsOf e' j = labelsOf e j := fun j => by rw [labelsOf, hb, labelsOf]
  refine ⟨by rw [hp, h.jumps], by rw [hn, h.count], by rw [hp, h.targets], fun j hj => ?_, fun j hj => ?_⟩
  · rw [hl]
    exact h.marked j hj
  · rw [hl]
    exact h.unmarked j hj

/-- A jump is recorded. -/
theorem Recorded.record (h : Recorded e ts) {t : ℤ} (ht : t ≠ -2) : Recorded (e.record t) (ts ++ [t]) := by
  have hmark : ∀ j : Nat, (ts ++ [t])[j]? = some (-2) ↔ ts[j]? = some (-2) := by
    intro j
    rcases Nat.lt_trichotomy j ts.length with hj | rfl | hj
    · rw [List.getElem?_append_left hj]
    · simp [ht]
    · rw [List.getElem?_eq_none (by simp; omega), List.getElem?_eq_none (by omega)]
  refine ⟨?_, ?_, ?_, fun j hj => h.marked j ((hmark j).1 hj), fun j hj => h.unmarked j fun hm => hj ((hmark j).2 hm)⟩
  · rw [JumpEmit.record, List.map_append, h.jumps, List.length_append, List.length_singleton, List.range_succ, h.count]
    rfl
  · rw [JumpEmit.record, h.count, List.length_append, List.length_singleton]
  · rw [JumpEmit.record, List.map_append, h.targets]
    rfl

/-- A list of jumps is recorded. -/
theorem Recorded.records (h : Recorded e ts) (us : List ℤ) (hus : -2 ∉ us) :
    Recorded (us.foldl (fun e t => e.record t) e) (ts ++ us) := by
  induction us generalizing e ts with
  | nil => rwa [List.append_nil]
  | cons u us ih =>
    rw [List.foldl_cons, List.append_cons]
    exact ih (h.record fun hu => hus (hu ▸ List.mem_cons_self)) fun hmem => hus (List.mem_cons_of_mem u hmem)

/-- The null checks of some arguments are recorded. -/
theorem Recorded.nullChecks (h : Recorded e ts) (nargs : Nat) {t : ℤ} (ht : t ≠ -2) :
    Recorded (e.recordNullChecks nargs t) (ts ++ List.replicate (nullCheckEntries nargs) t) := by
  unfold JumpEmit.recordNullChecks nullCheckEntries
  split
  · exact h.record ht
  · have hrange : (List.range nargs).map (fun _ => t) = List.replicate nargs t := by simp
    have hfold := h.records (List.replicate nargs t) (by simp [ht.symm])
    rwa [← hrange, List.foldl_map, hrange] at hfold

/-- An entry that is not marked is bound and marked. -/
theorem Recorded.resolve (h : Recorded e ts) {j : Nat} (hj : j < ts.length) (hne : ts[j]? ≠ some (-2)) (l : Nat) :
    Recorded ((e.setLabel j (some l)).mark j) (ts.set j (-2)) := by
  have hlabels : ∀ k, labelsOf ((e.setLabel j (some l)).mark j) k = labelsOf e k ++ if j = k then [(j, l)] else [] := by
    intro k
    rw [labelsOf, labelsOf, JumpEmit.mark, JumpEmit.setLabel, List.filter_append]
    by_cases hk : j = k
    · simp [hk]
    · simp [hk]
  refine ⟨?_, ?_, ?_, fun k hk => ?_, fun k hk => ?_⟩
  · rw [List.length_set, ← h.jumps]
    refine List.ext_getElem? fun k => ?_
    rw [JumpEmit.mark, JumpEmit.setLabel, List.getElem?_map, List.getElem?_map, List.getElem?_modify]
    cases e.pending[k]? with
    | none => rfl
    | some p => by_cases hjk : j = k <;> simp [hjk]
  · rw [List.length_set, ← h.count]
    rfl
  · rw [← h.targets]
    refine List.ext_getElem? fun k => ?_
    rw [JumpEmit.mark, JumpEmit.setLabel, List.getElem?_map, List.getElem?_set, List.getElem?_modify, List.getElem?_map]
    by_cases hjk : j = k
    · subst hjk
      rw [List.getElem?_eq_getElem (by rwa [h.length] : j < e.pending.length), if_pos rfl, if_pos (by rwa [h.targets])]
      simp
    · cases e.pending[k]? with
      | none => simp [hjk]
      | some p => simp [hjk]
  · rw [hlabels]
    by_cases hjk : j = k
    · subst hjk
      rw [h.unmarked j hne, if_pos rfl]
      exact ⟨l, rfl⟩
    · rw [List.getElem?_set_ne hjk] at hk
      rw [if_neg hjk, List.append_nil]
      exact h.marked k hk
  · rw [hlabels]
    have hjk : j ≠ k := by
      rintro rfl
      exact hk (List.getElem?_set_self hj)
    rw [List.getElem?_set_ne hjk] at hk
    rw [if_neg hjk, List.append_nil]
    exact h.unmarked k hk

/-- The null checks at the end of the entries are bound and marked. -/
theorem Recorded.resolveNullChecks {k : Nat} (h : Recorded e (ts ++ List.replicate k (-1))) (l : Nat) :
    Recorded (e.resolveNullChecks ts.length l) (ts ++ List.replicate k (-2)) := by
  unfold JumpEmit.resolveNullChecks
  rw [h.length, List.length_append, List.length_replicate, Nat.add_sub_cancel_left]
  induction k generalizing ts e with
  | zero => exact h
  | succ k ih =>
    have hentry : (ts ++ List.replicate (k + 1) (-1))[ts.length]? = some (-1) := by
      rw [List.getElem?_append_right (Nat.le_refl _), Nat.sub_self]
      rfl
    have hstep := h.resolve (j := ts.length) (by simp) (by rw [hentry]; decide) l
    have hset : (ts ++ List.replicate (k + 1) (-1)).set ts.length (-2) = (ts ++ [-2]) ++ List.replicate k (-1) := by
      rw [List.set_append_right _ _ (Nat.le_refl _), Nat.sub_self, List.replicate_succ, List.set_cons_zero, List.append_assoc]
      rfl
    rw [hset] at hstep
    have hrest := ih hstep
    rw [List.length_append, List.length_singleton, List.append_assoc] at hrest
    rw [List.range'_succ, List.foldl_cons, h.getElem? hentry, List.replicate_succ]
    exact hrest

/-- A label changes no entry. -/
theorem Recorded.emitLabel (h : Recorded e ts) : Recorded e.emitLabel.2 ts := h.congr rfl rfl rfl

/-- The code of a strict function leaves marked entries. -/
theorem Recorded.strictCall (h : Recorded e ts) (nargs : Nat) :
    Recorded (e.strictCall nargs) (ts ++ List.replicate (nullCheckEntries nargs) (-2)) := by
  unfold JumpEmit.strictCall
  rw [h.length]
  exact (h.nullChecks nargs (by decide)).emitLabel.resolveNullChecks _

/-- The code of a strict hash step leaves a marked entry and one for its target. -/
theorem Recorded.strictHash (h : Recorded e ts) {jumpdone : ℤ} (ht : jumpdone ≠ -2) :
    Recorded (e.strictHash jumpdone) (ts ++ [-2, jumpdone]) := by
  have htwo := ((h.record (t := -1) (by decide)).record ht).emitLabel
  rw [List.append_assoc] at htwo
  have hentry : (ts ++ ([-1] ++ [jumpdone]))[ts.length]? = some (-1) := by simp
  have hstep := htwo.resolve (j := ts.length) (by simp) (by rw [hentry]; decide) ((e.record (-1)).record jumpdone).emitLabel.1
  have hset : (ts ++ ([-1] ++ [jumpdone])).set ts.length (-2) = ts ++ [-2, jumpdone] := by
    rw [List.set_append_right _ _ (Nat.le_refl _), Nat.sub_self]
    rfl
  rw [hset] at hstep
  have hlast : ((e.record (-1)).record jumpdone).emitLabel.2.pending.length - 2 = ts.length := by
    rw [htwo.length]
    simp
  unfold JumpEmit.strictHash
  dsimp only
  rw [hlast, h.count]
  exact hstep

end

/-! ## One turn of the main loop -/

/-- The targets that an opcode behind `EvalOp.other` leaves in its entries. -/
def otherTargets (stepsLen : Nat) : OtherOp → List ℤ
  | .aggStrictInputCheck nargs jumpnull => List.replicate (nullCheckEntries nargs) jumpnull
  | .hashdatumStrict jumpdone => [-2, jumpdone]
  | .rowcompareStep fnStrict jumpnull jumpdone => (if fnStrict then [jumpnull] else []) ++ [jumpnull, jumpdone]
  | .jsonexprPath jumpEnd jumpEmpty jumpError jumpEvalCoercion =>
    (jsonTargets jumpEnd jumpEmpty jumpError jumpEvalCoercion).filter (isStep stepsLen)
  | op => op.targets

/-- The targets that an opcode leaves in its entries. -/
def opTargets (others : Nat → OtherOp) (stepsLen : Nat) : EvalOp G → List ℤ
  | .funcExprStrict _ _ nargs => List.replicate (nullCheckEntries nargs) (-2)
  | .jumpIfNotTrue jumpdone => [(jumpdone : ℤ), jumpdone]
  | .other n _ => otherTargets stepsLen (others n)
  | op => op.targets.map Nat.cast

/-- The targets that one turn leaves in its entries. -/
def eventTargets (others : Nat → OtherOp) (steps : List (ExprEvalStep G)) : Event CasePattern → List ℤ
  | .plain i _ => ((opAt steps i).map (opTargets others steps.length)).getD []
  | .taken p => [(p.elseEndOpno : ℤ), p.elseEndOpno]

/-- The targets of an opcode are as many as its entries. -/
theorem length_otherTargets (stepsLen : Nat) (op : OtherOp) : (otherTargets stepsLen op).length = op.entries stepsLen := by
  cases op with
  | aggStrictInputCheck nargs jumpnull => exact List.length_replicate
  | rowcompareStep fnStrict jumpnull jumpdone => cases fnStrict <;> rfl
  | _ => rfl

theorem length_opTargets (others : Nat → OtherOp) (stepsLen : Nat) (op : EvalOp G) :
    (opTargets others stepsLen op).length = op.entries others stepsLen := by
  cases op with
  | funcExprStrict fn fcinfo nargs => exact List.length_replicate
  | other n targets => exact length_otherTargets stepsLen (others n)
  | _ => rfl

theorem length_eventTargets (others : Nat → OtherOp) (steps : List (ExprEvalStep G)) (ev : Event CasePattern) :
    (eventTargets others steps ev).length = weight (stepEntries others steps) 2 ev := by
  cases ev with
  | taken p => rfl
  | plain i next =>
    unfold eventTargets weight stepEntries
    dsimp only
    cases opAt steps i with
    | none => rfl
    | some op => exact length_opTargets others steps.length op

/-- The store of a descriptor leaves the number of entries. -/
theorem entries_setConstvalValue (others : Nat → OtherOp) (stepsLen : Nat) (op : EvalOp G) (d : Datum) :
    (op.setConstvalValue d).entries others stepsLen = op.entries others stepsLen := by
  cases op <;> rfl

/-- The steps of batches take no entries. -/
theorem stepEntries_of_batchCode (others : Nat → OtherOp) {steps : List (ExprEvalStep G)} {k : Nat}
    (h : (opAt steps k).bind EvalOp.batchCode ≠ none) : stepEntries others steps k = 0 := by
  unfold stepEntries
  cases hop : opAt steps k with
  | none => rfl
  | some op =>
    rw [hop, Option.bind_some] at h
    cases op with
    | var src attnum => rfl
    | assignVar src attnum resultnum => rfl
    | _ => exact absurd rfl h

/-- A step of the array is no mark. -/
theorem isStep_ne {stepsLen : Nat} {t : ℤ} (h : isStep stepsLen t = true) : t ≠ -2 := by
  rintro rfl
  exact nomatch h

variable {e : JumpEmit} {ts : List ℤ}

/-- An opcode behind `EvalOp.other` records its targets. -/
theorem Recorded.afterOther (h : Recorded e ts) {stepsLen : Nat} (op : OtherOp) (ht : ∀ t ∈ op.targets, isStep stepsLen t = true) :
    Recorded (emitOther stepsLen op e) (ts ++ otherTargets stepsLen op) := by
  cases op with
  | aggStrictInputCheck nargs jumpnull => exact h.nullChecks nargs (isStep_ne (ht jumpnull (by simp [OtherOp.targets])))
  | hashdatumStrict jumpdone => exact h.strictHash (isStep_ne (ht jumpdone (by simp [OtherOp.targets])))
  | rowcompareStep fnStrict jumpnull jumpdone =>
    have hnull := isStep_ne (ht jumpnull (by simp [OtherOp.targets]))
    have hdone := isStep_ne (ht jumpdone (by simp [OtherOp.targets]))
    cases fnStrict with
    | true =>
      have hall := ((h.record hnull).record hnull).record hdone
      rwa [List.append_assoc, List.append_assoc] at hall
    | false =>
      have hall := (h.record hnull).record hdone
      rwa [List.append_assoc] at hall
  | jsonexprPath jumpEnd jumpEmpty jumpError jumpEvalCoercion =>
    have hall := h.records ((jsonTargets jumpEnd jumpEmpty jumpError jumpEvalCoercion).filter (isStep stepsLen)) (by
      intro hmem
      exact isStep_ne (List.mem_filter.1 hmem).2 rfl)
    rwa [List.foldl_filter] at hall
  | rest => exact (List.append_nil ts).symm ▸ h
  | aggPlainPergroupNullcheck t => exact h.record (isStep_ne (ht t (by simp [OtherOp.targets])))
  | aggPresortedDistinct t => exact h.record (isStep_ne (ht t (by simp [OtherOp.targets])))
  | returningexpr t => exact h.record (isStep_ne (ht t (by simp [OtherOp.targets])))
  | aggStrictDeserialize t => exact h.record (isStep_ne (ht t (by simp [OtherOp.targets])))
  | sbsrefSubscripts t => exact h.record (isStep_ne (ht t (by simp [OtherOp.targets])))

/-- An opcode records its targets. -/
theorem Recorded.afterOp (h : Recorded e ts) {others : Nat → OtherOp} {stepsLen : Nat} (op : EvalOp G)
    (ht : ∀ n targets, op = .other n targets → ∀ t ∈ (others n).targets, isStep stepsLen t = true) :
    Recorded (emitOp others stepsLen op e) (ts ++ opTargets others stepsLen op) := by
  have hnat : ∀ t : Nat, (t : ℤ) ≠ -2 := fun t => by omega
  cases op with
  | funcExprStrict fn fcinfo nargs => exact h.strictCall nargs
  | other n targets => exact h.afterOther (others n) (ht n targets rfl)
  | jumpIfNotTrue t =>
    have hall := (h.record (hnat t)).record (hnat t)
    rwa [List.append_assoc] at hall
  | boolAndStep pos anynull t => exact h.record (hnat t)
  | boolOrStep pos anynull t => exact h.record (hnat t)
  | qual t => exact h.record (hnat t)
  | jump t => exact h.record (hnat t)
  | jumpIfNull t => exact h.record (hnat t)
  | jumpIfNotNull t => exact h.record (hnat t)
  | _ => exact (List.append_nil ts).symm ▸ h

/-! ## Labels -/

/-- Labels of steps change no entry. -/
theorem Recorded.labelSteps (h : Recorded e ts) (i next : Nat) : Recorded (e.labelSteps i next) ts := by
  unfold JumpEmit.labelSteps
  generalize List.range' i (next - i) = l
  induction l generalizing e with
  | nil => exact h
  | cons k l ih => exact ih (h.congr rfl rfl rfl : Recorded (e.labelStep k) ts)

/-- One turn records its targets. -/
theorem Recorded.afterEvent (h : Recorded e ts) {others : Nat → OtherOp} {steps : List (ExprEvalStep G)} (ev : Event CasePattern)
    (ht : ∀ i n targets, opAt steps i = some (.other n targets) → ∀ t ∈ (others n).targets, isStep steps.length t = true) :
    Recorded (emitEvent others steps e ev) (ts ++ eventTargets others steps ev) := by
  cases ev with
  | taken p =>
    have hlabel : Recorded (e.labelStep (p.startOpno + 1)) ts := h.congr rfl rfl rfl
    have hall := (hlabel.record (t := (p.elseEndOpno : ℤ)) (by omega)).record (t := (p.elseEndOpno : ℤ)) (by omega)
    rw [List.append_assoc] at hall
    exact hall.labelSteps _ _
  | plain i next =>
    have hlabel : Recorded (e.labelStep i) ts := h.congr rfl rfl rfl
    unfold emitEvent eventTargets
    dsimp only
    cases hop : opAt steps i with
    | none => exact (List.append_nil ts).symm ▸ hlabel.labelSteps _ _
    | some op =>
      refine (hlabel.afterOp op ?_).labelSteps _ _
      rintro n targets rfl
      exact ht i n targets hop

/-- The main loop records the targets of its turns. -/
theorem Recorded.afterEvents (h : Recorded e ts) {others : Nat → OtherOp} {steps : List (ExprEvalStep G)} (es : List (Event CasePattern))
    (ht : ∀ i n targets, opAt steps i = some (.other n targets) → ∀ t ∈ (others n).targets, isStep steps.length t = true) :
    Recorded (es.foldl (emitEvent others steps) e) (ts ++ es.flatMap (eventTargets others steps)) := by
  induction es generalizing e ts with
  | nil => exact (List.append_nil ts).symm ▸ h
  | cons ev es ih =>
    rw [List.foldl_cons, List.flatMap_cons, ← List.append_assoc]
    exact ih (h.afterEvent ev ht)

/-- A loop whose turns keep the labels of the steps keeps them. -/
theorem stepLabels_foldl {α : Type} {f : JumpEmit → α → JumpEmit} (hf : ∀ e a, (f e a).stepLabels = e.stepLabels) (l : List α)
    (e : JumpEmit) : (l.foldl f e).stepLabels = e.stepLabels := by
  induction l generalizing e with
  | nil => rfl
  | cons a l ih => rw [List.foldl_cons, ih, hf]

theorem stepLabels_recordNullChecks (e : JumpEmit) (nargs : Nat) (t : ℤ) :
    (e.recordNullChecks nargs t).stepLabels = e.stepLabels := by
  unfold JumpEmit.recordNullChecks
  split
  · rfl
  · exact stepLabels_foldl (f := fun e _ => e.record t) (fun _ _ => rfl) _ e

theorem stepLabels_resolveNullChecks (e : JumpEmit) (start label : Nat) :
    (e.resolveNullChecks start label).stepLabels = e.stepLabels := by
  refine stepLabels_foldl (fun e j => ?_) _ e
  cases e.pending[j]? with
  | none => rfl
  | some p =>
    dsimp only
    split
    · rfl
    · rfl

theorem stepLabels_emitOther (stepsLen : Nat) (op : OtherOp) (e : JumpEmit) :
    (emitOther stepsLen op e).stepLabels = e.stepLabels := by
  cases op with
  | aggStrictInputCheck nargs jumpnull => exact stepLabels_recordNullChecks e nargs jumpnull
  | rowcompareStep fnStrict jumpnull jumpdone => cases fnStrict <;> rfl
  | jsonexprPath jumpEnd jumpEmpty jumpError jumpEvalCoercion =>
    refine stepLabels_foldl (fun e t => ?_) _ e
    split <;> rfl
  | _ => rfl

/-- The code of an opcode leaves the labels of the steps. -/
theorem stepLabels_emitOp (others : Nat → OtherOp) (stepsLen : Nat) (op : EvalOp G) (e : JumpEmit) :
    (emitOp others stepsLen op e).stepLabels = e.stepLabels := by
  cases op with
  | funcExprStrict fn fcinfo nargs =>
    exact (stepLabels_resolveNullChecks _ _ _).trans (stepLabels_recordNullChecks e nargs (-1))
  | other n targets => exact stepLabels_emitOther stepsLen (others n) e
  | _ => rfl

theorem labelStep_ne_none {e : JumpEmit} {i k : Nat} :
    (e.labelStep i).stepLabels k ≠ none ↔ k = i ∨ e.stepLabels k ≠ none := by
  rw [JumpEmit.labelStep]
  by_cases h : k = i
  · simp [h]
  · simp [h]

/-- Steps that have got labels. -/
theorem labelSteps_ne_none {e : JumpEmit} {i next k : Nat} :
    (e.labelSteps i next).stepLabels k ≠ none ↔ (i ≤ k ∧ k < next) ∨ e.stepLabels k ≠ none := by
  have hfold : ∀ (l : List Nat) (e : JumpEmit),
      (l.foldl (fun e k => e.labelStep k) e).stepLabels k ≠ none ↔ k ∈ l ∨ e.stepLabels k ≠ none := by
    intro l
    induction l with
    | nil => simp
    | cons a l ih =>
      intro e
      rw [List.foldl_cons, ih, labelStep_ne_none, List.mem_cons]
      tauto
  have hrange : i ≤ k ∧ k < i + (next - i) ↔ i ≤ k ∧ k < next := by omega
  rw [JumpEmit.labelSteps, hfold, List.mem_range'_1, hrange]

/-- One turn labels the steps that it passes over, and keeps the labels that are there. -/
theorem emitEvent_ne_none (others : Nat → OtherOp) (steps : List (ExprEvalStep G)) (e : JumpEmit) (ev : Event CasePattern)
    {k : Nat} (h : Covered (fun p : CasePattern => p.startOpno + 1) CasePattern.elseEndOpno [ev] k ∨ e.stepLabels k ≠ none)
    (hk : k < steps.length) : (emitEvent others steps e ev).stepLabels k ≠ none := by
  cases ev with
  | plain i next =>
    have hcover : (i ≤ k ∧ k < next) ∨ e.stepLabels k ≠ none := by
      rcases h with (⟨j, m, hmem, hle, hlt⟩ | ⟨a, hmem, -, -⟩) | h
      · cases List.mem_singleton.1 hmem
        exact Or.inl ⟨hle, hlt⟩
      · exact nomatch List.mem_singleton.1 hmem
      · exact Or.inr h
    have hlabel : ∀ e' : JumpEmit, e'.stepLabels = (e.labelStep i).stepLabels → (e'.labelSteps (i + 1) next).stepLabels k ≠ none := by
      intro e' he'
      rw [labelSteps_ne_none, he', labelStep_ne_none]
      rcases hcover with hin | hold
      · rcases Nat.eq_or_lt_of_le hin.1 with rfl | hlt
        · exact Or.inr (Or.inl rfl)
        · exact Or.inl ⟨hlt, hin.2⟩
      · exact Or.inr (Or.inr hold)
    unfold emitEvent
    dsimp only
    cases opAt steps i with
    | none => exact hlabel _ rfl
    | some op => exact hlabel _ (stepLabels_emitOp others steps.length op _)
  | taken p =>
    have hcover : (p.startOpno + 1 ≤ k ∧ k < p.elseEndOpno) ∨ e.stepLabels k ≠ none := by
      rcases h with (⟨j, m, hmem, -, -⟩ | ⟨a, hmem, hle, hlt⟩) | h
      · exact nomatch List.mem_singleton.1 hmem
      · cases List.mem_singleton.1 hmem
        exact Or.inl ⟨hle, hlt⟩
      · exact Or.inr h
    have hrecord : ((((e.labelStep (p.startOpno + 1)).record p.elseEndOpno).record p.elseEndOpno)).stepLabels =
        (e.labelStep (p.startOpno + 1)).stepLabels := rfl
    unfold emitEvent
    dsimp only
    rw [labelSteps_ne_none, hrecord, labelStep_ne_none]
    rcases hcover with hin | hold
    · rcases Nat.eq_or_lt_of_le hin.1 with heq | hlt
      · exact Or.inr (Or.inl heq.symm)
      · exact Or.inl ⟨hlt, Nat.lt_min.2 ⟨hin.2, hk⟩⟩
    · exact Or.inr (Or.inr hold)

/-- The main loop labels the steps that its turns pass over. -/
theorem foldl_emitEvent_ne_none (others : Nat → OtherOp) (steps : List (ExprEvalStep G)) (es : List (Event CasePattern))
    (e : JumpEmit) {k : Nat}
    (h : Covered (fun p : CasePattern => p.startOpno + 1) CasePattern.elseEndOpno es k ∨ e.stepLabels k ≠ none)
    (hk : k < steps.length) : (es.foldl (emitEvent others steps) e).stepLabels k ≠ none := by
  induction es generalizing e with
  | nil =>
    rcases h with (⟨_, _, hmem, -⟩ | ⟨_, hmem, -⟩) | h
    · exact absurd hmem List.not_mem_nil
    · exact absurd hmem List.not_mem_nil
    · exact h
  | cons ev es ih =>
    refine ih _ ?_
    rcases h with (⟨j, m, hmem, hle, hlt⟩ | ⟨a, hmem, hle, hlt⟩) | h
    · rcases List.mem_cons.1 hmem with rfl | hmem
      · exact Or.inr (emitEvent_ne_none others steps e _ (Or.inl (Or.inl ⟨j, m, List.mem_singleton_self _, hle, hlt⟩)) hk)
      · exact Or.inl (Or.inl ⟨j, m, hmem, hle, hlt⟩)
    · rcases List.mem_cons.1 hmem with rfl | hmem
      · exact Or.inr (emitEvent_ne_none others steps e _ (Or.inl (Or.inr ⟨a, List.mem_singleton_self _, hle, hlt⟩)) hk)
      · exact Or.inl (Or.inr ⟨a, hmem, hle, hlt⟩)
    · exact Or.inr (emitEvent_ne_none others steps e ev (Or.inr h) hk)

/-! ## The last loop -/

/-- The label that the last loop binds an entry to. -/
def fixLabel (stepsLen : Nat) (stepLabels : Nat → Option Nat) (p : PendingJump) : Option (Nat × Nat) :=
  if isStep stepsLen p.target then (stepLabels p.target.toNat).map fun l => (p.jump, l) else none

/-- The last loop keeps the entries and adds its bindings. -/
theorem fixUp_eq (stepsLen : Nat) (e : JumpEmit) :
    (fixUp stepsLen e).pending = e.pending ∧
      (fixUp stepsLen e).bound = e.bound ++ e.pending.filterMap (fixLabel stepsLen e.stepLabels) := by
  unfold fixUp
  have hloop : ∀ (l : List PendingJump) (e' : JumpEmit), e'.stepLabels = e.stepLabels →
      let out := l.foldl (fun e p => if isStep stepsLen p.target then e.setLabel p.jump (e.stepLabels p.target.toNat) else e) e'
      out.pending = e'.pending ∧ out.bound = e'.bound ++ l.filterMap (fixLabel stepsLen e.stepLabels) := by
    intro l
    induction l with
    | nil => exact fun e' _ => ⟨rfl, (List.append_nil e'.bound).symm⟩
    | cons p l ih =>
      intro e' he'
      dsimp only
      rw [List.foldl_cons, List.filterMap_cons, fixLabel]
      by_cases hs : isStep stepsLen p.target = true
      · rw [if_pos hs, if_pos hs, he']
        cases hl : e.stepLabels p.target.toNat with
        | none => exact ih e' he'
        | some label =>
          obtain ⟨hp, hb⟩ := ih (e'.setLabel p.jump (some label)) he'
          exact ⟨hp, hb.trans (List.append_assoc _ _ _)⟩
      · rw [if_neg hs, if_neg hs]
        exact ih e' he'
  exact hloop e.pending e rfl

/-- Among pairs numbered by a list without repetitions, those with the number of one entry are its own. -/
theorem filter_filterMap_eq {l : List PendingJump} (hl : (l.map PendingJump.jump).Nodup) {g : PendingJump → Option (Nat × Nat)}
    (hg : ∀ p b, g p = some b → b.1 = p.jump) {p : PendingJump} (hp : p ∈ l) :
    (l.filterMap g).filter (fun b => b.1 == p.jump) = (g p).toList := by
  have hnone : ∀ l' : List PendingJump, p.jump ∉ l'.map PendingJump.jump → (l'.filterMap g).filter (fun b => b.1 == p.jump) = [] := by
    intro l' hnot
    rw [List.filter_eq_nil_iff]
    intro b hb hj
    obtain ⟨q, hq, hgq⟩ := List.mem_filterMap.1 hb
    refine hnot (List.mem_map.2 ⟨q, hq, ?_⟩)
    rw [← hg q b hgq]
    exact beq_iff_eq.1 hj
  induction l with
  | nil => exact absurd hp List.not_mem_nil
  | cons q l ih =>
    rw [List.map_cons, List.nodup_cons] at hl
    rw [List.filterMap_cons]
    rcases List.mem_cons.1 hp with rfl | hp
    · cases hgp : g p with
      | none => exact hnone l hl.1
      | some b =>
        rw [List.filter_cons_of_pos (by simp [hg p b hgp]), hnone l hl.1]
        rfl
    · have hne : q.jump ≠ p.jump := by
        intro heq
        exact hl.1 (heq ▸ List.mem_map_of_mem hp)
      cases hgq : g q with
      | none => exact ih hl.2 hp
      | some b =>
        rw [List.filter_cons_of_neg (by simp [hg q b hgq, hne])]
        exact ih hl.2 hp

/-- With labels on all steps, the recorded jumps are right after the last loop exactly when the entries fit and every target is a
step or marked. -/
theorem jumpsRight_fixUp_iff {e : JumpEmit} {ts : List ℤ} (h : Recorded e ts) {stepsLen : Nat}
    (hlabels : ∀ k, k < stepsLen → e.stepLabels k ≠ none) :
    JumpsRight stepsLen (fixUp stepsLen e) ↔ ts.length ≤ stepsLen * 4 ∧ ∀ t ∈ ts, t = -2 ∨ isStep stepsLen t = true := by
  obtain ⟨hpending, hbound⟩ := fixUp_eq stepsLen e
  have hnodup : (e.pending.map PendingJump.jump).Nodup := by
    rw [h.jumps]
    exact List.nodup_range
  have hfix : ∀ p b, fixLabel stepsLen e.stepLabels p = some b → b.1 = p.jump := by
    intro p b hb
    rw [fixLabel, Option.ite_none_right_eq_some] at hb
    obtain ⟨l, -, rfl⟩ := Option.map_eq_some_iff.1 hb.2
    rfl
  -- what an entry is bound to, before the last loop and in it
  have hentry : ∀ j t, ts[j]? = some t →
      (fixUp stepsLen e).bound.filter (fun b => b.1 == j) = labelsOf e j ++ (fixLabel stepsLen e.stepLabels ⟨j, t⟩).toList := by
    intro j t hj
    have hmem : (⟨j, t⟩ : PendingJump) ∈ e.pending := List.mem_of_getElem? (h.getElem? hj)
    rw [hbound, List.filter_append, ← filter_filterMap_eq hnodup hfix hmem]
    rfl
  have hone : ∀ j t, ts[j]? = some t →
      ((∃ l, (fixUp stepsLen e).bound.filter (fun b => b.1 == j) = [(j, l)]) ↔ t = -2 ∨ isStep stepsLen t = true) := by
    intro j t hj
    rw [hentry j t hj]
    by_cases hm : t = -2
    · subst hm
      obtain ⟨l, hl⟩ := h.marked j hj
      rw [hl]
      exact ⟨fun _ => Or.inl rfl, fun _ => ⟨l, rfl⟩⟩
    · rw [h.unmarked j (by rw [hj]; exact fun heq => hm (Option.some.inj heq)), List.nil_append, fixLabel]
      by_cases hs : isStep stepsLen t = true
      · have hlt : t.toNat < stepsLen := by
          rw [isStep, Bool.and_eq_true, decide_eq_true_eq, decide_eq_true_eq] at hs
          omega
        obtain ⟨l, hl⟩ := Option.ne_none_iff_exists'.1 (hlabels t.toNat hlt)
        rw [if_pos hs, hl]
        exact ⟨fun _ => Or.inr hs, fun _ => ⟨l, rfl⟩⟩
      · rw [if_neg hs]
        constructor
        · rintro ⟨l, hl⟩
          exact nomatch hl
        · rintro (rfl | hs')
          · exact absurd rfl hm
          · exact absurd hs' hs
  constructor
  · intro hright
    refine ⟨by rw [← h.length, ← hpending]; exact hright.room, fun t ht => ?_⟩
    obtain ⟨j, hj⟩ := List.getElem?_of_mem ht
    refine (hone j t hj).1 (hright.bound ⟨j, t⟩ ?_)
    rw [hpending]
    exact List.mem_of_getElem? (h.getElem? hj)
  · rintro ⟨hroom, hall⟩
    refine ⟨by rwa [hpending, h.length], fun p hp => ?_⟩
    rw [hpending] at hp
    obtain ⟨j, hj⟩ := List.getElem?_of_mem hp
    obtain ⟨t, ht⟩ : ∃ t, ts[j]? = some t := by
      have hlt := (List.getElem?_eq_some_iff.1 hj).1
      rw [h.length] at hlt
      exact ⟨_, List.getElem?_eq_getElem hlt⟩
    have heq := h.getElem? ht
    rw [hj, Option.some.injEq] at heq
    subst heq
    exact (hone j t ht).2 (hall t (List.mem_of_getElem? ht))

end PendingJumpsAux

end PgJitter
