import Mathlib.Algebra.BigOperators.Intervals
import Mathlib.Data.List.Pairwise
import Mathlib.Order.Basic

/-!
# Scans from left to right

A scan that looks at one position after another and reports intervals, going on after each, and a replay that passes over the positions
once more with the reports in hand: it takes the next report when it comes to the entry of its interval, and treats every other position
plainly, one or several at a time.
-/

namespace LeftScan

variable {α : Type*}

/-! ## The scan -/

/-- What is seen at a position: nothing, or a report; and where the scan goes on. -/
inductive Look (α : Type*) where
  | skip (next : Nat)
  | found (a : α) (next : Nat)

/-- The reports of a scan of the positions below `n` from `i` on, at most `room` of them. -/
def scan (look : Nat → Look α) (n : Nat) : Nat → Nat → Nat → List α
  | 0, _, _ => []
  | fuel + 1, room, i =>
    if i < n ∧ 0 < room then
      match look i with
      | .skip next => scan look n fuel room next
      | .found a next => a :: scan look n fuel (room - 1) next
    else []

/-- The intervals of a list follow one another. -/
def Chained (lo hi : α → Nat) (l : List α) : Prop := l.Pairwise fun a b => hi a ≤ lo b

/-- A scan goes forward, and a report begins where it is seen and ends where the scan goes on. -/
structure Advances (look : Nat → Look α) (n : Nat) (lo hi : α → Nat) : Prop where
  skip : ∀ i next, i < n → look i = .skip next → i < next
  found : ∀ i a next, i < n → look i = .found a next → lo a = i ∧ hi a = next ∧ i < next

section Scan

variable {look : Nat → Look α} {n : Nat} {lo hi : α → Nat}

/-- What is reported was found, at the position where it begins. -/
theorem mem_scan (h : Advances look n lo hi) {fuel room i : Nat} {a : α} (ha : a ∈ scan look n fuel room i) :
    i ≤ lo a ∧ lo a < n ∧ look (lo a) = .found a (hi a) := by
  induction fuel generalizing room i with
  | zero => exact absurd ha List.not_mem_nil
  | succ fuel ih =>
    rw [scan] at ha
    split at ha
    · rename_i hlt
      cases hlook : look i with
      | skip next =>
        rw [hlook] at ha
        obtain ⟨hle, hrest⟩ := ih ha
        exact ⟨Nat.le_trans (Nat.le_of_lt (h.skip i next hlt.1 hlook)) hle, hrest⟩
      | found b next =>
        rw [hlook] at ha
        obtain ⟨hlo, hhi, hnext⟩ := h.found i b next hlt.1 hlook
        rcases List.mem_cons.1 ha with rfl | ha
        · rw [hlo, hhi]
          exact ⟨Nat.le_refl i, hlt.1, hlook⟩
        · obtain ⟨hle, hrest⟩ := ih ha
          exact ⟨Nat.le_trans (Nat.le_of_lt hnext) hle, hrest⟩
    · exact absurd ha List.not_mem_nil

/-- The intervals of the reports follow one another. -/
theorem scan_chained (h : Advances look n lo hi) (fuel room i : Nat) : Chained lo hi (scan look n fuel room i) := by
  induction fuel generalizing room i with
  | zero => exact List.Pairwise.nil
  | succ fuel ih =>
    rw [scan]
    split
    · rename_i hlt
      cases hlook : look i with
      | skip next => exact ih room next
      | found b next =>
        obtain ⟨-, hhi, -⟩ := h.found i b next hlt.1 hlook
        refine List.Pairwise.cons (fun c hc => ?_) (ih (room - 1) next)
        rw [hhi]
        exact (mem_scan h hc).1
    · exact List.Pairwise.nil

end Scan

/-! ## The replay -/

/-- What the replay does: it takes a report, or treats the positions from one up to another one plainly. -/
inductive Event (α : Type*) where
  | taken (a : α)
  | plain (i next : Nat)

/-- The replay of the positions below `n` from `i` on, with the reports that are left. -/
def replay (entry hi : α → Nat) (next : Nat → Nat) (n : Nat) : Nat → Nat → List α → List (Event α)
  | 0, _, _ => []
  | fuel + 1, i, l =>
    if i < n then
      match l with
      | [] => .plain i (next i) :: replay entry hi next n fuel (next i) []
      | a :: rest =>
        if i = entry a then .taken a :: replay entry hi next n fuel (hi a) rest
        else .plain i (next i) :: replay entry hi next n fuel (next i) (a :: rest)
    else []

/-- The reports that were taken. -/
def takenOf : List (Event α) → List α
  | [] => []
  | .taken a :: es => a :: takenOf es
  | .plain _ _ :: es => takenOf es

/-- A position is treated plainly. -/
def Plain (es : List (Event α)) (k : Nat) : Prop := ∃ i next, Event.plain i next ∈ es ∧ i ≤ k ∧ k < next

section Replay

variable {entry hi : α → Nat} {next : Nat → Nat} {n : Nat}

/-- What the reports have to be for a replay from `i` on to take them all: each begins after what is before it, its entry lies in it,
and no run of plain positions passes over its entry. -/
structure Replayable (entry hi : α → Nat) (next : Nat → Nat) (n i : Nat) (l : List α) : Prop where
  chained : l.Pairwise fun a b => hi a ≤ entry b
  start : ∀ a ∈ l, i ≤ entry a
  inside : ∀ a ∈ l, entry a < hi a ∧ entry a < n
  stops : ∀ a ∈ l, ∀ k, k < entry a → next k ≤ entry a

/-- What a replay does with its reports: it takes them all, and treats no position of their intervals plainly after the entry. -/
structure Replays (entry hi : α → Nat) (i : Nat) (l : List α) (es : List (Event α)) : Prop where
  taken : takenOf es = l
  after : ∀ k, Plain es k → i ≤ k
  outside : ∀ k, Plain es k → ∀ a ∈ l, ¬ (entry a ≤ k ∧ k < hi a)

/-- Where no position is left there are no reports and no events. -/
theorem replays_nil {i : Nat} {l : List α} (h : Replayable entry hi next n i l) (hend : n ≤ i) : Replays entry hi i l [] := by
  have hnil : l = [] := by
    refine List.eq_nil_iff_forall_not_mem.2 fun a ha => ?_
    have hstart := h.start a ha
    have hinside := (h.inside a ha).2
    omega
  subst hnil
  exact ⟨rfl, fun k ⟨_, _, hmem, _⟩ => absurd hmem List.not_mem_nil, fun k _ a ha => absurd ha List.not_mem_nil⟩

/-- A run of plain positions before the entries of the reports. -/
theorem Replays.plain {i : Nat} {l : List α} {es : List (Event α)} (h : Replays entry hi (next i) l es) (hnext : i < next i)
    (hbefore : ∀ a ∈ l, next i ≤ entry a) : Replays entry hi i l (.plain i (next i) :: es) := by
  refine ⟨h.taken, fun k hk => ?_, fun k hk a ha => ?_⟩
  · obtain ⟨j, m, hmem, hle, hlt⟩ := hk
    rcases List.mem_cons.1 hmem with heq | hmem
    · cases heq
      exact hle
    · exact Nat.le_trans (Nat.le_of_lt hnext) (h.after k ⟨j, m, hmem, hle, hlt⟩)
  · obtain ⟨j, m, hmem, hle, hlt⟩ := hk
    rcases List.mem_cons.1 hmem with heq | hmem
    · cases heq
      have hentry := hbefore a ha
      omega
    · exact h.outside k ⟨j, m, hmem, hle, hlt⟩ a ha

/-- The next report is taken. -/
theorem Replays.take {a : α} {l : List α} {es : List (Event α)} (h : Replays entry hi (hi a) l es) (hinside : entry a < hi a) :
    Replays entry hi (entry a) (a :: l) (.taken a :: es) := by
  have hplain : ∀ k, Plain (.taken a :: es) k → Plain es k := by
    rintro k ⟨j, m, hmem, hle, hlt⟩
    rcases List.mem_cons.1 hmem with heq | hmem
    · exact nomatch heq
    · exact ⟨j, m, hmem, hle, hlt⟩
  refine ⟨congrArg (a :: ·) h.taken, fun k hk => ?_, fun k hk b hb => ?_⟩
  · exact Nat.le_trans (Nat.le_of_lt hinside) (h.after k (hplain k hk))
  · rcases List.mem_cons.1 hb with rfl | hb
    · have hafter := h.after k (hplain k hk)
      omega
    · exact h.outside k (hplain k hk) b hb

/-- A replay takes the reports that it can take. -/
theorem replay_replays (hnext : ∀ k, k < next k) {fuel i : Nat} {l : List α} (hfuel : n ≤ i + fuel)
    (h : Replayable entry hi next n i l) : Replays entry hi i l (replay entry hi next n fuel i l) := by
  induction fuel generalizing i l with
  | zero => exact replays_nil h hfuel
  | succ fuel ih =>
    unfold replay
    split
    · cases l with
      | nil =>
        refine (ih (by have := hnext i; omega) ⟨.nil, ?_, ?_, ?_⟩).plain (hnext i) ?_ <;>
          exact fun a ha => absurd ha List.not_mem_nil
      | cons a rest =>
        obtain ⟨hafter, hchained⟩ := List.pairwise_cons.1 h.chained
        have hinside := (h.inside a List.mem_cons_self).1
        dsimp only
        split
        · rename_i hentry
          subst hentry
          refine (ih (by omega) ⟨hchained, hafter, ?_, ?_⟩).take hinside
          · exact fun b hb => h.inside b (List.mem_cons_of_mem a hb)
          · exact fun b hb => h.stops b (List.mem_cons_of_mem a hb)
        · rename_i hne
          have hstart := h.start a List.mem_cons_self
          have hstop := h.stops a List.mem_cons_self i (by omega)
          have hbefore : ∀ b ∈ a :: rest, next i ≤ entry b := by
            intro b hb
            rcases List.mem_cons.1 hb with rfl | hb
            · exact hstop
            · have hlater := hafter b hb
              omega
          exact (ih (by have := hnext i; omega) ⟨h.chained, hbefore, h.inside, h.stops⟩).plain (hnext i) hbefore
    · exact replays_nil h (by omega)

/-- A position is treated plainly or lies in a report that was taken. -/
def Covered (entry hi : α → Nat) (es : List (Event α)) (k : Nat) : Prop :=
  Plain es k ∨ ∃ a, Event.taken a ∈ es ∧ entry a ≤ k ∧ k < hi a

/-- What is covered by some events is covered with one more. -/
theorem Covered.cons {es : List (Event α)} {k : Nat} (h : Covered entry hi es k) (ev : Event α) :
    Covered entry hi (ev :: es) k := by
  rcases h with ⟨i, m, hmem, hle, hlt⟩ | ⟨a, hmem, hle, hlt⟩
  · exact Or.inl ⟨i, m, List.mem_cons_of_mem ev hmem, hle, hlt⟩
  · exact Or.inr ⟨a, List.mem_cons_of_mem ev hmem, hle, hlt⟩

/-- What a replay takes is one of its reports. -/
theorem mem_of_taken_mem_replay {fuel i : Nat} {l : List α} {a : α} (h : Event.taken a ∈ replay entry hi next n fuel i l) :
    a ∈ l := by
  induction fuel generalizing i l with
  | zero => exact absurd h List.not_mem_nil
  | succ fuel ih =>
    unfold replay at h
    split at h
    · cases l with
      | nil =>
        rcases List.mem_cons.1 h with heq | hmem
        · exact nomatch heq
        · exact ih hmem
      | cons b rest =>
        dsimp only at h
        split at h
        · rcases List.mem_cons.1 h with heq | hmem
          · cases heq
            exact List.mem_cons_self
          · exact List.mem_cons_of_mem b (ih hmem)
        · rcases List.mem_cons.1 h with heq | hmem
          · exact nomatch heq
          · exact ih hmem
    · exact absurd h List.not_mem_nil

/-- A replay passes over no position. -/
theorem replay_covers (hnext : ∀ k, k < next k) {fuel i : Nat} {l : List α} (hfuel : n ≤ i + fuel)
    (hinside : ∀ a ∈ l, entry a < hi a) {k : Nat} (hik : i ≤ k) (hk : k < n) :
    Covered entry hi (replay entry hi next n fuel i l) k := by
  induction fuel generalizing i l with
  | zero => omega
  | succ fuel ih =>
    have hgo := hnext i
    unfold replay
    rw [if_pos (by omega)]
    cases l with
    | nil =>
      dsimp only
      rcases Nat.lt_or_ge k (next i) with hlt | hge
      · exact Or.inl ⟨i, next i, List.mem_cons_self, hik, hlt⟩
      · exact (ih (by omega) hinside hge).cons _
    | cons a rest =>
      dsimp only
      split
      · rename_i hentry
        have hlong := hinside a List.mem_cons_self
        rcases Nat.lt_or_ge k (hi a) with hlt | hge
        · exact Or.inr ⟨a, List.mem_cons_self, by omega, hlt⟩
        · exact (ih (by omega) (fun b hb => hinside b (List.mem_cons_of_mem a hb)) hge).cons _
      · rcases Nat.lt_or_ge k (next i) with hlt | hge
        · exact Or.inl ⟨i, next i, List.mem_cons_self, hik, hlt⟩
        · exact (ih (by omega) hinside hge).cons _

/-- What is treated plainly goes on to the next position. -/
theorem next_of_plain_mem_replay {fuel i : Nat} {l : List α} {k m : Nat} (h : Event.plain k m ∈ replay entry hi next n fuel i l) :
    m = next k := by
  induction fuel generalizing i l with
  | zero => exact absurd h List.not_mem_nil
  | succ fuel ih =>
    unfold replay at h
    split at h
    · cases l with
      | nil =>
        rcases List.mem_cons.1 h with heq | hmem
        · cases heq
          rfl
        · exact ih hmem
      | cons b rest =>
        dsimp only at h
        split at h
        · rcases List.mem_cons.1 h with heq | hmem
          · exact nomatch heq
          · exact ih hmem
        · rcases List.mem_cons.1 h with heq | hmem
          · cases heq
            rfl
          · exact ih hmem
    · exact absurd h List.not_mem_nil

end Replay

/-! ## Events in a row -/

/-- Where an event begins. -/
def Event.start (entry : α → Nat) : Event α → Nat
  | taken a => entry a
  | plain i _ => i

/-- Where the replay goes on after an event. -/
def Event.stop (hi : α → Nat) : Event α → Nat
  | taken a => hi a
  | plain _ next => next

/-- Each event begins where the one before it has stopped, from a position on and to the end. -/
def InARow (entry hi : α → Nat) (n : Nat) : Nat → List (Event α) → Prop
  | i, [] => n ≤ i
  | i, ev :: es => i < n ∧ ev.start entry = i ∧ i < ev.stop hi ∧ InARow entry hi n (ev.stop hi) es

section InARow

variable {entry hi : α → Nat} {n : Nat}

/-- The events of a replay are in a row. -/
theorem replay_inARow {next : Nat → Nat} (hnext : ∀ k, k < next k) {fuel i : Nat} {l : List α} (hfuel : n ≤ i + fuel)
    (hinside : ∀ a ∈ l, entry a < hi a) : InARow entry hi n i (replay entry hi next n fuel i l) := by
  induction fuel generalizing i l with
  | zero => exact hfuel
  | succ fuel ih =>
    have hgo := hnext i
    unfold replay
    split
    · rename_i hin
      cases l with
      | nil => exact ⟨hin, rfl, hgo, ih (by simp only [Event.stop]; omega) hinside⟩
      | cons a rest =>
        dsimp only
        split
        · rename_i hentry
          have hlong := hinside a List.mem_cons_self
          exact ⟨hin, hentry.symm, hentry ▸ hlong,
            ih (by simp only [Event.stop]; omega) fun b hb => hinside b (List.mem_cons_of_mem a hb)⟩
        · exact ⟨hin, rfl, hgo, ih (by simp only [Event.stop]; omega) hinside⟩
    · rename_i hend
      exact Nat.not_lt.1 hend

/-- An event in a row, and the events after it. -/
theorem InARow.split {i : Nat} {pre post : List (Event α)} {ev : Event α} (h : InARow entry hi n i (pre ++ ev :: post)) :
    ev.start entry < n ∧ ev.start entry < ev.stop hi ∧ InARow entry hi n (ev.stop hi) post := by
  induction pre generalizing i with
  | nil =>
    obtain ⟨hin, rfl, hlt, hrest⟩ := h
    exact ⟨hin, hlt, hrest⟩
  | cons ev' pre ih => exact ih h.2.2.2

/-- Events in a row begin at or after the position. -/
theorem InARow.le_start {i : Nat} {es : List (Event α)} (h : InARow entry hi n i es) {ev : Event α} (hev : ev ∈ es) :
    i ≤ ev.start entry := by
  induction es generalizing i with
  | nil => exact absurd hev List.not_mem_nil
  | cons ev' es ih =>
    obtain ⟨-, hstart, hlt, hrest⟩ := h
    rcases List.mem_cons.1 hev with rfl | hmem
    · exact hstart.ge
    · exact Nat.le_trans (Nat.le_of_lt hlt) (ih hrest hmem)

/-- Where an event stops and there are positions left, the next event begins. -/
theorem InARow.next {i : Nat} {es : List (Event α)} (h : InARow entry hi n i es) (hi : i < n) :
    ∃ ev post, es = ev :: post ∧ ev.start entry = i := by
  cases es with
  | nil => exact absurd h (Nat.not_le.2 hi)
  | cons ev post => exact ⟨ev, post, rfl, h.2.1⟩

end InARow

/-! ## What a replay adds up to -/

/-- The reports that a replay from `i` on comes to: each begins where the one before it has ended, or later, up to the first that
does not. -/
def reachable (entry hi : α → Nat) : Nat → List α → List α
  | _, [] => []
  | i, a :: l => if i ≤ entry a then a :: reachable entry hi (hi a) l else []

/-- A position lies in one of some reports, at its entry or after it. -/
def inside (entry hi : α → Nat) (l : List α) (k : Nat) : Bool := l.any fun a => decide (entry a ≤ k) && decide (k < hi a)

/-- The weight of an event: that of the position that is treated, or that of a report. -/
def weight (w : Nat → Nat) (c : Nat) : Event α → Nat
  | .plain i _ => w i
  | .taken _ => c

section Weight

variable {entry hi : α → Nat} {next : Nat → Nat} {n : Nat}

/-- What is reachable begins at or after the position. -/
theorem le_entry_of_mem_reachable {i : Nat} {l : List α} (hinside : ∀ a ∈ l, entry a < hi a) {a : α}
    (ha : a ∈ reachable entry hi i l) : i ≤ entry a := by
  induction l generalizing i with
  | nil => exact absurd ha List.not_mem_nil
  | cons b l ih =>
    rw [reachable] at ha
    split at ha
    · rename_i hle
      rcases List.mem_cons.1 ha with rfl | ha
      · exact hle
      · have hb := hinside b List.mem_cons_self
        have hrest := ih (fun c hc => hinside c (List.mem_cons_of_mem b hc)) ha
        omega
    · exact absurd ha List.not_mem_nil

/-- Before the entries of the reports no position lies in one. -/
theorem inside_of_lt {l : List α} {k : Nat} (h : ∀ a ∈ l, k < entry a) : inside entry hi l k = false := by
  rw [inside, List.any_eq_false]
  intro a ha hin
  have hlt := h a ha
  rw [Bool.and_eq_true, decide_eq_true_eq] at hin
  omega

/-- A sum over positions of which the ones after the first have no weight up to a later one. -/
theorem sum_Ico_skip {f : Nat → Nat} {i j n : Nat} (hin : i < n) (hij : i < j) (h : ∀ k, i < k → k < j → f k = 0) :
    ∑ k ∈ Finset.Ico i n, f k = f i + ∑ k ∈ Finset.Ico j n, f k := by
  rw [Finset.sum_eq_sum_Ico_succ_bot hin]
  congr 1
  symm
  refine Finset.sum_subset (Finset.Ico_subset_Ico_left hij) fun k hk hnot => ?_
  rw [Finset.mem_Ico] at hk hnot
  exact h k hk.1 (by omega)

/-- The weights of a replay add up to the weights of the positions outside the reports that it comes to, and those of the reports,
when the positions that it treats along with another one have no weight. -/
theorem sum_replay (hnext : ∀ k, k < next k) {w : Nat → Nat} (hw : ∀ k j, k < j → j < next k → w j = 0) (c : Nat)
    {fuel i : Nat} {l : List α} (hfuel : n ≤ i + fuel) (hinside : ∀ a ∈ l, entry a < hi a ∧ entry a < n)
    (hstops : ∀ a ∈ l, ∀ k, k < entry a → next k ≤ entry a) :
    ((replay entry hi next n fuel i l).map (weight w c)).sum =
      (∑ k ∈ Finset.Ico i n, if inside entry hi (reachable entry hi i l) k then 0 else w k) +
        c * (reachable entry hi i l).length := by
  induction fuel generalizing i l with
  | zero =>
    have hnone : reachable entry hi i l = [] := by
      cases l with
      | nil => rfl
      | cons a l =>
        have ha := (hinside a List.mem_cons_self).2
        rw [reachable, if_neg (by omega)]
    rw [replay, hnone, Finset.Ico_eq_empty_of_le (by omega)]
    rfl
  | succ fuel ih =>
    unfold replay
    split
    · rename_i hin
      -- a position that is treated plainly, when the reports are reached as well from the one after it
      have hplain : (∀ a ∈ reachable entry hi i l, i < entry a) → reachable entry hi (next i) l = reachable entry hi i l →
          ((Event.plain i (next i) :: replay entry hi next n fuel (next i) l).map (weight w c)).sum =
            (∑ k ∈ Finset.Ico i n, if inside entry hi (reachable entry hi i l) k then 0 else w k) +
              c * (reachable entry hi i l).length := by
        intro hlt hsame
        have hgo := hnext i
        have hskip := sum_Ico_skip (f := fun k => if inside entry hi (reachable entry hi i l) k then 0 else w k) hin hgo
          (fun k hk hkn => by simp [hw i k hk hkn])
        rw [List.map_cons, List.sum_cons, ih (by omega) hinside hstops, hsame, hskip, inside_of_lt hlt, weight]
        simp [Nat.add_assoc]
      cases l with
      | nil => exact hplain (fun a ha => absurd ha List.not_mem_nil) rfl
      | cons a rest =>
        have hrest : ∀ b ∈ rest, entry b < hi b := fun b hb => (hinside b (List.mem_cons_of_mem a hb)).1
        dsimp only
        split
        · rename_i hentry
          subst hentry
          have hlong := (hinside a List.mem_cons_self).1
          have hreach : reachable entry hi (entry a) (a :: rest) = a :: reachable entry hi (hi a) rest := by
            rw [reachable, if_pos (Nat.le_refl _)]
          have hsum : (∑ k ∈ Finset.Ico (entry a) n, if inside entry hi (a :: reachable entry hi (hi a) rest) k then 0 else w k) =
              ∑ k ∈ Finset.Ico (hi a) n, if inside entry hi (reachable entry hi (hi a) rest) k then 0 else w k := by
            symm
            refine Finset.sum_subset_zero_on_sdiff (Finset.Ico_subset_Ico_left hlong.le) (fun k hk => ?_) fun k hk => ?_
            · rw [Finset.mem_sdiff, Finset.mem_Ico, Finset.mem_Ico] at hk
              have hhead : inside entry hi (a :: reachable entry hi (hi a) rest) k = true := by
                rw [inside, List.any_cons, Bool.or_eq_true]
                left
                simp only [Bool.and_eq_true, decide_eq_true_eq]
                omega
              rw [hhead]
              rfl
            · rw [Finset.mem_Ico] at hk
              have hhead : (decide (entry a ≤ k) && decide (k < hi a)) = false := by
                simp only [Bool.and_eq_false_iff, decide_eq_false_iff_not]
                omega
              rw [inside, inside, List.any_cons, hhead, Bool.false_or]
          rw [List.map_cons, List.sum_cons, ih (by omega) (fun b hb => hinside b (List.mem_cons_of_mem a hb))
            (fun b hb => hstops b (List.mem_cons_of_mem a hb)), hreach, hsum, List.length_cons, weight, Nat.mul_succ]
          omega
        · rename_i hne
          rcases Nat.lt_or_ge i (entry a) with hlt | hge
          · have hstop := hstops a List.mem_cons_self i hlt
            refine hplain (fun b hb => ?_) ?_
            · rw [reachable, if_pos hlt.le] at hb
              rcases List.mem_cons.1 hb with rfl | hb
              · exact hlt
              · have hlater := le_entry_of_mem_reachable hrest hb
                have hlong := (hinside a List.mem_cons_self).1
                omega
            · rw [reachable, reachable, if_pos hstop, if_pos hlt.le]
          · have hgo := hnext i
            have hnone : ∀ j, i ≤ j → reachable entry hi j (a :: rest) = [] := by
              intro j hj
              rw [reachable, if_neg (by omega)]
            refine hplain (fun b hb => ?_) (by rw [hnone i (Nat.le_refl i), hnone (next i) hgo.le])
            rw [hnone i (Nat.le_refl i)] at hb
            exact absurd hb List.not_mem_nil
    · have hnone : reachable entry hi i l = [] := by
        cases l with
        | nil => rfl
        | cons a l =>
          have ha := (hinside a List.mem_cons_self).2
          rw [reachable, if_neg (by omega)]
      rw [hnone, Finset.Ico_eq_empty_of_le (by omega)]
      rfl

/-- A position that is not treated along with another one is treated plainly exactly when it lies in no report that the replay comes
to. -/
theorem plain_mem_replay_iff (hnext : ∀ k, k < next k) {fuel i : Nat} {l : List α} (hfuel : n ≤ i + fuel)
    (hinside : ∀ a ∈ l, entry a < hi a ∧ entry a < n) (hstops : ∀ a ∈ l, ∀ k, k < entry a → next k ≤ entry a) {j : Nat}
    (hj : ∀ k, k < j → next k ≤ j) (hij : i ≤ j) (hjn : j < n) :
    (∃ m, Event.plain j m ∈ replay entry hi next n fuel i l) ↔ inside entry hi (reachable entry hi i l) j = false := by
  -- the weight of the position alone
  have hw : ∀ k k', k < k' → k' < next k → (if k' = j then 1 else 0) = 0 := by
    intro k k' hk hk'
    rw [if_neg]
    rintro rfl
    have := hj k hk
    omega
  have hsum := sum_replay hnext hw 0 hfuel hinside hstops
  have hright : (∑ k ∈ Finset.Ico i n, if inside entry hi (reachable entry hi i l) k then 0 else if k = j then 1 else 0) =
      if inside entry hi (reachable entry hi i l) j then 0 else 1 := by
    rw [Finset.sum_eq_single_of_mem j (Finset.mem_Ico.2 ⟨hij, hjn⟩) fun k _ hne => by simp [hne]]
    simp
  rw [hright, Nat.zero_mul, Nat.add_zero] at hsum
  constructor
  · rintro ⟨m, hm⟩
    by_contra hin
    rw [if_pos (Bool.eq_true_of_not_eq_false hin), List.sum_eq_zero_iff_forall_eq_nat] at hsum
    have := hsum _ (List.mem_map_of_mem hm)
    rw [weight, if_pos rfl] at this
    exact nomatch this
  · intro hout
    rw [hout, if_neg (by decide)] at hsum
    by_contra hno
    have hzero : ((replay entry hi next n fuel i l).map (weight (fun k => if k = j then 1 else 0) 0)).sum = 0 := by
      rw [List.sum_eq_zero_iff_forall_eq_nat]
      intro x hx
      obtain ⟨ev, hev, rfl⟩ := List.mem_map.1 hx
      cases ev with
      | taken a => rfl
      | plain k m =>
        rw [weight, if_neg]
        rintro rfl
        exact hno ⟨m, hev⟩
    rw [hzero] at hsum
    exact nomatch hsum

end Weight

end LeftScan
