import PgJitter.Lemmas.Win64Parse

/-!
# The codes of a prologue

What the loop over the codes writes for a prologue, and what Windows reads back.
-/

namespace PgJitter
namespace Win64Aux

open ByteMemory FrameUnwind

/-! ## The order of the codes -/

/-- The offset that a code is written with. -/
def itemOff (q : ParsedPrologue) : EmitItem → Nat
  | .save s => s.codeOff
  | .alloc => q.allocOffset
  | .fpreg => q.setFpregOffset
  | .push p => p.codeOff

/-- The push of an item. -/
def itemPush : EmitItem → Option PushRec
  | .push p => some p
  | _ => none

/-- The save of an item. -/
def itemSave : EmitItem → Option SaveRec
  | .save s => some s
  | _ => none

/-- The items that are still to be written, as the loop keeps them. -/
def pendingOf (items : List EmitItem) : Pending :=
  ⟨decide (.alloc ∈ items), decide (.fpreg ∈ items), items.filterMap itemPush, items.filterMap itemSave⟩

section

variable {q : ParsedPrologue} {items : List EmitItem} {m : Nat}

theorem allocOff_lt (h : ∀ e ∈ items, itemOff q e < m) (hm : 0 < m) : (if (pendingOf items).alloc then q.allocOffset else 0) < m := by
  split
  · rename_i hin
    exact h .alloc (of_decide_eq_true hin)
  · exact hm

theorem fpregOff_lt (h : ∀ e ∈ items, itemOff q e < m) (hm : 0 < m) : (if (pendingOf items).fpreg then q.setFpregOffset else 0) < m := by
  split
  · rename_i hin
    exact h .fpreg (of_decide_eq_true hin)
  · exact hm

/-- The offset of the next push is that of an item, or zero. -/
theorem pushOff_lt (h : ∀ e ∈ items, itemOff q e < m) (hm : 0 < m) :
    ((pendingOf items).pushes.head?.map PushRec.codeOff).getD 0 < m := by
  cases hhead : (pendingOf items).pushes.head? with
  | none => exact hm
  | some p =>
    obtain ⟨e, he, hep⟩ := List.mem_filterMap.1 (List.mem_of_mem_head? hhead)
    cases e with
    | push p' =>
      obtain rfl := Option.some.inj hep
      exact h _ he
    | save s => exact absurd hep (Option.some_ne_none _).symm
    | alloc => exact absurd hep (Option.some_ne_none _).symm
    | fpreg => exact absurd hep (Option.some_ne_none _).symm

/-- The offset of the next save is that of an item. -/
theorem save_lt (h : ∀ e ∈ items, itemOff q e < m) {s : SaveRec} (hs : (pendingOf items).saves.head? = some s) : s.codeOff < m := by
  obtain ⟨e, he, hes⟩ := List.mem_filterMap.1 (List.mem_of_mem_head? hs)
  cases e with
  | save s' =>
    obtain rfl := Option.some.inj hes
    exact h _ he
  | push p => exact absurd hes (Option.some_ne_none _).symm
  | alloc => exact absurd hes (Option.some_ne_none _).symm
  | fpreg => exact absurd hes (Option.some_ne_none _).symm

/-- No save is taken when all are below the offset of what comes next. -/
theorem filter_saves_none (h : ∀ e ∈ items, itemOff q e < m) {a b c : Nat} (hm : m ≤ a ∨ m ≤ b ∨ m ≤ c) :
    ((pendingOf items).saves.head?.filter fun s => a ≤ s.codeOff && b ≤ s.codeOff && c ≤ s.codeOff) = none := by
  cases hs : (pendingOf items).saves.head? with
  | none => rfl
  | some s =>
    have hlt := save_lt h hs
    refine Option.filter_eq_none_iff.2 fun s' hs' => ?_
    obtain rfl := Option.some.inj hs'
    simp only [Bool.and_eq_true, decide_eq_true_eq, not_and]
    omega

theorem pendingOf_save (s : SaveRec) (items : List EmitItem) :
    pendingOf (.save s :: items) = { pendingOf items with saves := s :: (pendingOf items).saves } := by
  simp [pendingOf, List.filterMap_cons, itemPush, itemSave]

theorem pendingOf_push (p : PushRec) (items : List EmitItem) :
    pendingOf (.push p :: items) = { pendingOf items with pushes := p :: (pendingOf items).pushes } := by
  simp [pendingOf, List.filterMap_cons, itemPush, itemSave]

theorem pendingOf_alloc (items : List EmitItem) : pendingOf (.alloc :: items) = { pendingOf items with alloc := true } := by
  simp [pendingOf, List.filterMap_cons, itemPush, itemSave]

theorem pendingOf_fpreg (items : List EmitItem) : pendingOf (.fpreg :: items) = { pendingOf items with fpreg := true } := by
  simp [pendingOf, List.filterMap_cons, itemPush, itemSave]

/-- The loop takes the item with the highest offset. -/
theorem next_cons {e : EmitItem} (hlt : ∀ e' ∈ items, itemOff q e' < itemOff q e) (hpos : 0 < itemOff q e) :
    q.next (pendingOf (e :: items)) = some (e, pendingOf items) := by
  have ha := allocOff_lt hlt hpos
  have hf := fpregOff_lt hlt hpos
  have hp := pushOff_lt hlt hpos
  have hself : e ∉ items := fun he => Nat.lt_irrefl _ (hlt e he)
  cases e with
  | save s =>
    have htake : (decide ((if (pendingOf items).alloc then q.allocOffset else 0) ≤ s.codeOff) &&
        decide ((if (pendingOf items).fpreg then q.setFpregOffset else 0) ≤ s.codeOff) &&
        decide (((pendingOf items).pushes.head?.map PushRec.codeOff).getD 0 ≤ s.codeOff)) = true := by
      simp only [Bool.and_eq_true, decide_eq_true_eq]
      exact ⟨⟨Nat.le_of_lt ha, Nat.le_of_lt hf⟩, Nat.le_of_lt hp⟩
    rw [pendingOf_save, ParsedPrologue.next]
    dsimp only
    rw [List.head?_cons, Option.filter_some, if_pos htake]
    rfl
  | alloc =>
    have hnone : (pendingOf items).alloc = false := decide_eq_false hself
    rw [pendingOf_alloc, ParsedPrologue.next]
    dsimp only
    rw [if_pos rfl, filter_saves_none hlt (Or.inl (Nat.le_refl q.allocOffset))]
    dsimp only
    rw [if_pos ⟨rfl, Nat.le_of_lt hf, Nat.le_of_lt hp⟩, ← hnone]
  | fpreg =>
    have hnone : (pendingOf items).fpreg = false := decide_eq_false hself
    rw [pendingOf_fpreg, ParsedPrologue.next]
    dsimp only
    rw [if_pos rfl, filter_saves_none hlt (Or.inr (Or.inl (Nat.le_refl q.setFpregOffset)))]
    dsimp only
    have hnot : ¬ ((pendingOf items).alloc = true ∧ q.setFpregOffset ≤ (if (pendingOf items).alloc then q.allocOffset else 0) ∧
        ((pendingOf items).pushes.head?.map PushRec.codeOff).getD 0 ≤ (if (pendingOf items).alloc then q.allocOffset else 0)) :=
      fun h => Nat.not_le_of_lt ha h.2.1
    rw [if_neg hnot, if_pos ⟨rfl, Nat.le_of_lt hp⟩, ← hnone]
  | push p =>
    rw [pendingOf_push, ParsedPrologue.next]
    dsimp only
    rw [List.head?_cons, Option.map_some, Option.getD_some, filter_saves_none hlt (Or.inr (Or.inr (Nat.le_refl p.codeOff)))]
    dsimp only
    rw [if_neg fun h => Nat.not_le_of_lt ha h.2.2, if_neg fun h => Nat.not_le_of_lt hf h.2]

/-- The loop has a turn for every item. -/
theorem count_cons {e : EmitItem} (he : e ∉ items) : (pendingOf (e :: items)).count = (pendingOf items).count + 1 := by
  cases e with
  | save s => rw [pendingOf_save]; rfl
  | push p =>
    rw [pendingOf_push, Pending.count, Pending.count, List.length_cons]
    dsimp only
    omega
  | alloc =>
    have hnone : (pendingOf items).alloc = false := decide_eq_false he
    rw [pendingOf_alloc, Pending.count, Pending.count, hnone, Bool.toNat_true, Bool.toNat_false]
    dsimp only
    omega
  | fpreg =>
    have hnone : (pendingOf items).fpreg = false := decide_eq_false he
    rw [pendingOf_fpreg, Pending.count, Pending.count, hnone, Bool.toNat_true, Bool.toNat_false]
    dsimp only
    omega

theorem count_pendingOf (h : items.Pairwise fun e e' => itemOff q e' < itemOff q e) : (pendingOf items).count = items.length := by
  induction items with
  | nil => rfl
  | cons e items ih =>
    obtain ⟨hlt, hrest⟩ := List.pairwise_cons.1 h
    rw [count_cons fun he => Nat.lt_irrefl _ (hlt e he), ih hrest, List.length_cons]

theorem length_slots_save (q : ParsedPrologue) (s : SaveRec) : (q.slots (.save s)).length = 4 := rfl

theorem length_slots_push (q : ParsedPrologue) (p : PushRec) : (q.slots (.push p)).length = 2 := rfl

theorem length_slots_fpreg (q : ParsedPrologue) : (q.slots .fpreg).length = 2 := rfl

/-- An allocation takes one, two or three slots of two bytes. -/
theorem length_slots_alloc (q : ParsedPrologue) :
    (q.slots .alloc).length = 2 ∨ (q.slots .alloc).length = 4 ∨ (q.slots .alloc).length = 6 := by
  rw [ParsedPrologue.slots]
  split
  · exact Or.inl rfl
  · split
    · exact Or.inr (Or.inl rfl)
    · exact Or.inr (Or.inr rfl)

theorem even_slots (q : ParsedPrologue) (e : EmitItem) : (q.slots e).length % 2 = 0 := by
  cases e with
  | save s => rw [length_slots_save]
  | fpreg => rw [length_slots_fpreg]
  | push p => rw [length_slots_push]
  | alloc => rcases length_slots_alloc q with h | h | h <;> rw [h]

/-- With room for all, the loop writes the items from the highest offset to the lowest. -/
theorem emitLoop_eq {maxCodes : Nat} {codes : List (BitVec 8)} (h : items.Pairwise fun e e' => itemOff q e' < itemOff q e)
    (hpos : ∀ e ∈ items, 0 < itemOff q e) (heven : codes.length % 2 = 0)
    (hroom : codes.length + (items.flatMap q.slots).length ≤ 2 * maxCodes) :
    q.emitLoop maxCodes items.length (pendingOf items) codes = some (codes ++ items.flatMap q.slots) := by
  induction items generalizing codes with
  | nil => rw [List.flatMap_nil, List.append_nil]; rfl
  | cons e items ih =>
    obtain ⟨hlt, hrest⟩ := List.pairwise_cons.1 h
    have heven' := even_slots q e
    rw [List.flatMap_cons, List.length_append] at hroom
    rw [List.length_cons, ParsedPrologue.emitLoop, next_cons hlt (hpos e List.mem_cons_self)]
    dsimp only
    rw [if_neg (by omega), ih hrest (fun e' he' => hpos e' (List.mem_cons_of_mem _ he'))
      (by rw [List.length_append]; omega) (by rw [List.length_append]; omega), List.flatMap_cons, List.append_assoc]

end

/-! ## Reading the codes back -/

/-- What undoes the instruction of an item. -/
def opOf (q : ParsedPrologue) : EmitItem → Op (BitVec 4)
  | .save s => .reload s.reg (s.rspOff / 8 % 2 ^ 16 * 8)
  | .alloc => .free q.allocSize
  | .fpreg => .rebase
  | .push p => .pop p.reg

/-- What Windows reads for an item. -/
def codeOf (q : ParsedPrologue) (e : EmitItem) : UnwindCode := ⟨itemOff q e % 256, opOf q e⟩

theorem codeSlot_bits :
    ∀ op info : BitVec 4, (info ++ op : BitVec 8).extractLsb' 4 4 = info ∧ (info ++ op : BitVec 8).extractLsb' 0 4 = op := by
  decide

/-- The two bytes of a slot hold a number modulo `2 ^ 16`. -/
theorem leBytes_two (n : Nat) : leBytes 2 n = [BitVec.ofNat 8 n, BitVec.ofNat 8 (n / 256)] := rfl

theorem leNat_two (n : Nat) : leNat [BitVec.ofNat 8 n, BitVec.ofNat 8 (n / 256)] = n % 2 ^ 16 := by
  simp only [leNat, BitVec.toNat_ofNat]
  omega

theorem leBytes_four (n : Nat) : leBytes 4 n =
    [BitVec.ofNat 8 n, BitVec.ofNat 8 (n / 256), BitVec.ofNat 8 (n / 256 / 256), BitVec.ofNat 8 (n / 256 / 256 / 256)] := rfl

/-- The slots of an item are read back. -/
theorem decodeCodes_slots {q : ParsedPrologue} {e : EmitItem} (hsize : e = .alloc → 0 < q.allocSize ∧ q.allocSize < 2 ^ 32)
    (rest : List (BitVec 8)) : decodeCodes (q.slots e ++ rest) = (decodeCodes rest).map (codeOf q e :: ·) := by
  have hbits := codeSlot_bits
  cases e with
  | push p =>
    rw [ParsedPrologue.slots, codeSlot, List.cons_append, List.singleton_append, decodeCodes.eq_def]
    dsimp only
    rw [(hbits _ _).1, (hbits _ _).2, if_pos rfl, BitVec.toNat_ofNat]
    rfl
  | fpreg =>
    rw [ParsedPrologue.slots, codeSlot, List.cons_append, List.singleton_append, decodeCodes.eq_def]
    dsimp only
    rw [(hbits _ _).2, if_neg (by decide), if_neg (by decide), if_pos rfl, BitVec.toNat_ofNat]
    rfl
  | save s =>
    rw [ParsedPrologue.slots, codeSlot, leBytes_two, List.append_assoc, List.cons_append, List.singleton_append, List.cons_append,
      List.singleton_append, decodeCodes.eq_def]
    dsimp only
    rw [(hbits _ _).1, (hbits _ _).2, if_neg (by decide), if_neg (by decide), if_neg (by decide), if_pos rfl, BitVec.toNat_ofNat, leNat_two]
    rfl
  | alloc =>
    obtain ⟨hpos, hlt⟩ := hsize rfl
    rw [ParsedPrologue.slots]
    split
    · rename_i hsmall
      have hinfo : (BitVec.ofNat 4 (q.allocSize / 8 - 1)).toNat * 8 + 8 = q.allocSize := by
        rw [BitVec.toNat_ofNat, Nat.mod_eq_of_lt (by omega)]
        omega
      rw [codeSlot, List.cons_append, List.singleton_append, decodeCodes.eq_def]
      dsimp only
      rw [(hbits _ _).1, (hbits _ _).2, if_neg (by decide), if_pos rfl, BitVec.toNat_ofNat, hinfo]
      rfl
    · split
      · rename_i hlarge
        have hn : q.allocSize / 8 * 8 = q.allocSize := by omega
        rw [codeSlot, leBytes_two, List.append_assoc, List.cons_append, List.singleton_append, List.cons_append, List.singleton_append,
          decodeCodes.eq_def]
        dsimp only
        rw [(hbits _ _).1, (hbits _ _).2, if_neg (by decide), if_neg (by decide), if_neg (by decide), if_neg (by decide),
          if_pos ⟨rfl, rfl⟩, BitVec.toNat_ofNat, leNat_two, Nat.mod_eq_of_lt (by omega : q.allocSize / 8 < 2 ^ 16), hn]
        rfl
      · rw [codeSlot, List.append_assoc, leBytes_four, List.cons_append, List.singleton_append, List.cons_append, List.cons_append,
          List.cons_append, List.singleton_append, decodeCodes.eq_def]
        dsimp only
        rw [(hbits _ _).1, (hbits _ _).2, if_neg (by decide), if_neg (by decide), if_neg (by decide), if_neg (by decide),
          if_neg (by decide), if_pos ⟨rfl, rfl⟩, BitVec.toNat_ofNat, ← leBytes_four, leNat_leBytes hlt]
        rfl

theorem decodeCodes_flatMap {q : ParsedPrologue} {items : List EmitItem}
    (hsize : .alloc ∈ items → 0 < q.allocSize ∧ q.allocSize < 2 ^ 32) :
    decodeCodes (items.flatMap q.slots) = some (items.map (codeOf q)) := by
  induction items with
  | nil => rfl
  | cons e items ih =>
    rw [List.flatMap_cons, decodeCodes_slots fun he => hsize (he ▸ List.mem_cons_self), ih fun he => hsize (List.mem_cons_of_mem _ he)]
    rfl

/-! ## What is written of any code -/

end Win64Aux

/-- The items that are still to be written. -/
def Pending.items (pd : Pending) : List EmitItem :=
  (if pd.alloc then [.alloc] else []) ++ ((if pd.fpreg then [.fpreg] else []) ++ (pd.pushes.map .push ++ pd.saves.map .save))

namespace Win64Aux

theorem count_eq (pd : Pending) : pd.count = pd.items.length := by
  have hflag : ∀ (b : Bool) (e : EmitItem), (if b then [e] else []).length = b.toNat := fun b _ => by cases b <;> rfl
  rw [Pending.count, Pending.items, List.length_append, List.length_append, List.length_append, hflag, hflag, List.length_map,
    List.length_map]
  omega

/-- The loop ends when nothing is left. -/
theorem next_eq_none {q : ParsedPrologue} {pd : Pending} (h : q.next pd = none) : pd.items = [] := by
  obtain ⟨alloc, fpreg, pushes, saves⟩ := pd
  rw [ParsedPrologue.next] at h
  dsimp only at h
  generalize ha : (if alloc = true then q.allocOffset else 0) = a at h
  generalize hf : (if fpreg = true then q.setFpregOffset else 0) = f at h
  split at h
  · exact absurd h (Option.some_ne_none _)
  · rename_i hsaves
    split at h
    · exact absurd h (Option.some_ne_none _)
    · rename_i halloc
      split at h
      · exact absurd h (Option.some_ne_none _)
      · rename_i hfpreg
        cases pushes with
        | cons x pushes => exact absurd h (Option.some_ne_none _)
        | nil =>
          -- no push is left, and so each of the others is at the highest offset
          cases fpreg with
          | true => exact absurd ⟨rfl, Nat.zero_le _⟩ hfpreg
          | false =>
            obtain rfl : 0 = f := hf
            cases alloc with
            | true => exact absurd ⟨rfl, Nat.zero_le _, Nat.zero_le _⟩ halloc
            | false =>
              obtain rfl : 0 = a := ha
              cases saves with
              | nil => rfl
              | cons s saves => exact absurd hsaves (by simp)

/-- A turn of the loop writes one of the items that are left, and leaves the others. -/
theorem next_perm {q : ParsedPrologue} {pd pd' : Pending} {e : EmitItem} (h : q.next pd = some (e, pd')) :
    pd.items.Perm (e :: pd'.items) := by
  obtain ⟨alloc, fpreg, pushes, saves⟩ := pd
  rw [ParsedPrologue.next] at h
  dsimp only at h
  generalize ha : (if alloc = true then q.allocOffset else 0) = a at h
  generalize hf : (if fpreg = true then q.setFpregOffset else 0) = f at h
  split at h
  · rename_i s hs
    obtain ⟨rfl, rfl⟩ := Prod.mk.inj (Option.some.inj h)
    cases saves with
    | nil => exact absurd hs (Option.some_ne_none _).symm
    | cons s' saves =>
      obtain rfl := Option.some.inj (Option.filter_eq_some_iff.1 hs).1
      simp only [Pending.items, List.map_cons, List.tail_cons, ← List.append_assoc]
      exact List.perm_middle
  · split at h
    · rename_i halloc
      obtain ⟨rfl, rfl⟩ := Prod.mk.inj (Option.some.inj h)
      obtain rfl := halloc.1
      exact List.Perm.refl _
    · split at h
      · rename_i hfpreg
        obtain ⟨rfl, rfl⟩ := Prod.mk.inj (Option.some.inj h)
        obtain rfl := hfpreg.1
        exact List.perm_middle
      · cases pushes with
        | nil => exact absurd h (Option.some_ne_none _).symm
        | cons x pushes =>
          obtain ⟨rfl, rfl⟩ := Prod.mk.inj (Option.some.inj h)
          simp only [Pending.items, List.map_cons, List.cons_append]
          rw [← List.append_assoc, ← List.append_assoc]
          exact List.perm_middle

/-- What the loop writes, if there is room: every item that is left, in some order. -/
theorem emitLoop_perm {q : ParsedPrologue} {maxCodes turns : Nat} {pd : Pending} {codes codes' : List (BitVec 8)}
    (h : q.emitLoop maxCodes turns pd codes = some codes') (hturns : pd.items.length ≤ turns) (heven : codes.length % 2 = 0)
    (hroom : codes.length ≤ 2 * maxCodes) :
    ∃ items : List EmitItem, items.Perm pd.items ∧ codes' = codes ++ items.flatMap q.slots ∧ codes'.length ≤ 2 * maxCodes := by
  induction turns generalizing pd codes with
  | zero =>
    have hnil := List.length_eq_zero_iff.1 (Nat.le_zero.1 hturns)
    obtain rfl := Option.some.inj h
    exact ⟨[], by rw [hnil], (List.append_nil _).symm, hroom⟩
  | succ turns ih =>
    rw [ParsedPrologue.emitLoop] at h
    split at h
    · rename_i hnone
      obtain rfl := Option.some.inj h
      exact ⟨[], by rw [next_eq_none hnone], (List.append_nil _).symm, hroom⟩
    · rename_i e pd' hnext
      have hperm := next_perm hnext
      have hlen := hperm.length_eq
      have heven' := even_slots q e
      rw [List.length_cons] at hlen
      split at h
      · exact absurd h (Option.some_ne_none _).symm
      · obtain ⟨items, hitems, rfl, hle⟩ := ih h (by omega) (by rw [List.length_append]; omega) (by rw [List.length_append]; omega)
        refine ⟨e :: items, (hitems.cons e).trans hperm.symm, ?_, hle⟩
        rw [List.flatMap_cons, List.append_assoc]

/-- The codes, where there are any, are those of all items. -/
theorem codes_perm {q : ParsedPrologue} {maxCodes : Nat} (h : q.codes maxCodes ≠ []) :
    ∃ items : List EmitItem, items.Perm q.pending.items ∧ q.codes maxCodes = items.flatMap q.slots ∧
      (q.codes maxCodes).length ≤ 2 * maxCodes := by
  rw [ParsedPrologue.codes] at h ⊢
  cases hloop : q.emitLoop maxCodes q.pending.count q.pending [] with
  | none =>
    rw [hloop] at h
    exact absurd rfl h
  | some codes => exact emitLoop_perm hloop (count_eq _).ge rfl (Nat.zero_le _)

/-! ## The items of a prologue -/

/-- Items in the order of their offsets, after the offset `x` and up to `y`. -/
structure Ascending (q : ParsedPrologue) (x y : Nat) (items : List EmitItem) : Prop where
  le : x ≤ y
  sorted : items.Pairwise fun e e' => itemOff q e < itemOff q e'
  bound : ∀ e ∈ items, x < itemOff q e ∧ itemOff q e ≤ y

section

variable {q : ParsedPrologue} {x y z : Nat} {items items' : List EmitItem}

theorem Ascending.nil (h : x ≤ y) : Ascending q x y [] := ⟨h, List.Pairwise.nil, fun _ he => absurd he List.not_mem_nil⟩

theorem Ascending.single {e : EmitItem} (h : x < itemOff q e) (h' : itemOff q e ≤ y) : Ascending q x y [e] := by
  refine ⟨by omega, List.pairwise_singleton _ _, fun e' he' => ?_⟩
  rw [List.mem_singleton.1 he']
  exact ⟨h, h'⟩

theorem Ascending.append (h : Ascending q x y items) (h' : Ascending q y z items') : Ascending q x z (items ++ items') := by
  refine ⟨h.le.trans h'.le, List.pairwise_append.2 ⟨h.sorted, h'.sorted, fun e he e' he' => ?_⟩, fun e he => ?_⟩
  · exact Nat.lt_of_le_of_lt (h.bound e he).2 (h'.bound e' he').1
  · rcases List.mem_append.1 he with he | he
    · exact ⟨(h.bound e he).1, (h.bound e he).2.trans h'.le⟩
    · exact ⟨Nat.lt_of_le_of_lt h.le (h'.bound e he).1, (h'.bound e he).2⟩

/-- The pushes end one after the other. -/
theorem ascending_pushRecs {pos : Nat} {rs : List (BitVec 4)} (h : pos + pushesLen rs < 256) :
    Ascending q pos (pos + pushesLen rs) ((pushRecs pos rs).map .push) := by
  induction rs generalizing pos with
  | nil => exact Ascending.nil (Nat.le_refl _)
  | cons r rs ih =>
    have hlen : 1 ≤ pushLen r := by
      unfold pushLen
      split <;> decide
    rw [pushesLen] at h
    have hoff : itemOff q (.push ⟨r, pos⟩) = pos + 1 := Nat.mod_eq_of_lt (by dsimp only; omega)
    have hone : Ascending q pos (pos + pushLen r) [.push ⟨r, pos⟩] := Ascending.single (by omega) (by omega)
    rw [pushRecs, List.map_cons, pushesLen, ← Nat.add_assoc]
    exact hone.append (ih (by omega))

/-- The saves that are kept end one after the other. -/
theorem ascending_saveRecs (size : Nat) {pos : Nat} (ss : List (BitVec 8 × BitVec 4)) :
    Ascending q pos (pos + 4 * ss.length) ((saveRecs size pos ss).map .save) := by
  induction ss generalizing pos with
  | nil => exact Ascending.nil (Nat.le_refl _)
  | cons s ss ih =>
    obtain ⟨disp, r⟩ := s
    have hend : pos + 4 * ((disp, r) :: ss).length = pos + 4 + 4 * ss.length := by rw [List.length_cons]; omega
    rw [saveRecs, hend]
    split
    · have hone : Ascending q pos (pos + 4) [.save ⟨r, ((size : ℤ) - 8 + disp.toInt).toNat, pos + 4⟩] :=
        Ascending.single (Nat.lt_add_of_pos_right (by decide)) (Nat.le_refl _)
      rw [List.map_cons]
      exact hone.append ih
    · have hnone : Ascending q pos (pos + 4) [] := Ascending.nil (Nat.le_add_right _ _)
      exact hnone.append ih

end

variable (p : Prologue)

/-- The items of the pushes, with that of the `MOV RBP, RSP`. -/
def headItems : List EmitItem :=
  (pushRecs (startPos p) p.pushes).map .push ++ if p.frame.isSome then .fpreg :: (pushRecs (framePos p) p.latePushes).map .push else []

/-- The item of the allocation. -/
def allocItems : List EmitItem := if p.size = 0 then [] else [.alloc]

/-- The items of the frame setup of MIR. -/
def mirItems : List EmitItem := if p.mir.isSome then (rbpRec p).map .save ++ [.fpreg] else []

/-- The items of a prologue, in the order of its instructions. -/
def items : List EmitItem := headItems p ++ (allocItems p ++ (mirItems p ++ (saveRecs p.size (mirPos p) p.saves).map .save))

theorem mir_of_frame {f : Bool × List (BitVec 4)} (hf : p.frame = some f) : p.mir = none := by
  cases hmir : p.mir with
  | none => rfl
  | some m =>
    have hnone := p.frame_once (by rw [hmir]; rfl)
    exact absurd (hf.symm.trans hnone) (Option.some_ne_none f)

/-- The items of the head end between its first byte and its last. -/
theorem ascending_headItems : Ascending (parsed p) (startPos p) (headPos p) (headItems p) := by
  have hpos := headPos_le p
  rw [headPos] at hpos
  rw [headItems, headPos]
  cases hf : p.frame with
  | none =>
    rw [hf, if_neg (by decide)] at hpos
    exact (ascending_pushRecs (by omega)).append (Ascending.nil (Nat.le_refl _))
  | some f =>
    have hset : itemOff (parsed p) .fpreg = framePos p := by
      rw [itemOff, parsed, mir_of_frame p hf, hf]
      rfl
    rw [hf, Option.isSome_some, if_pos rfl] at hpos
    rw [Option.isSome_some, if_pos rfl, if_pos rfl]
    have hframe : framePos p = startPos p + pushesLen p.pushes + 3 := rfl
    have hmov : Ascending (parsed p) (startPos p + pushesLen p.pushes) (framePos p) [.fpreg] := Ascending.single (by omega) (by omega)
    exact (ascending_pushRecs (by omega)).append (hmov.append (ascending_pushRecs (by omega)))

theorem alloc_of_size (h : p.size ≠ 0) : ∃ wide, p.alloc = some (wide, p.size) := by
  cases halloc : p.alloc with
  | none => exact absurd (by rw [PrologShape.size, halloc]; rfl) h
  | some a =>
    refine ⟨a.1, ?_⟩
    rw [PrologShape.size, halloc]
    rfl

/-- The allocation ends where its instructions do. -/
theorem ascending_allocItems : Ascending (parsed p) (headPos p) (allocPos p) (allocItems p) := by
  have hle : headPos p ≤ allocPos p := by
    rw [allocPos]
    omega
  rw [allocItems]
  split
  · exact Ascending.nil hle
  · rename_i hsize
    obtain ⟨wide, halloc⟩ := alloc_of_size p hsize
    have hoff : itemOff (parsed p) .alloc = allocPos p := by
      rw [itemOff, parsed, halloc]
      rfl
    have hlen : 1 ≤ subLen wide := by cases wide <;> decide
    refine Ascending.single ?_ (by omega)
    rw [hoff, allocPos, halloc, Option.map_some, Option.getD_some]
    dsimp only
    omega

/-- The items of the frame setup end between the allocation and the saves. -/
theorem ascending_mirItems : Ascending (parsed p) (allocPos p) (mirPos p) (mirItems p) := by
  rw [mirItems]
  cases hmir : p.mir with
  | none =>
    rw [mirPos, hmir]
    exact Ascending.nil (Nat.le_refl _)
  | some m =>
    obtain ⟨t, disp⟩ := m
    have hset : itemOff (parsed p) .fpreg = mirPos p := by
      rw [itemOff, parsed, hmir]
      rfl
    have hlen : 1 ≤ (PrologInsn.saveRbp disp).encode.length := by
      cases disp <;> exact Nat.succ_le_succ (Nat.zero_le _)
    have hrbp : rbpPos p = allocPos p + (PrologInsn.saveRbp disp).encode.length := by rw [rbpPos, hmir]; rfl
    have hmirPos : mirPos p = rbpPos p + 3 := by rw [mirPos, hmir]; rfl
    have hrec : rbpRec p = [⟨rbp, (disp.getD 0#8).toNat, rbpPos p⟩] := by rw [rbpRec, hmir]; rfl
    have hsave : Ascending (parsed p) (allocPos p) (rbpPos p) [.save ⟨rbp, (disp.getD 0#8).toNat, rbpPos p⟩] :=
      Ascending.single (by dsimp only [itemOff]; omega) (Nat.le_refl _)
    have hmov : Ascending (parsed p) (rbpPos p) (mirPos p) [.fpreg] := Ascending.single (by omega) (by omega)
    rw [Option.isSome_some, if_pos rfl, hrec]
    exact hsave.append hmov

/-- The items of a prologue are in the order of their offsets. -/
theorem ascending_items : Ascending (parsed p) (startPos p) p.bytes.length (items p) := by
  rw [items, length_bytes]
  exact (ascending_headItems p).append ((ascending_allocItems p).append ((ascending_mirItems p).append (ascending_saveRecs _ _)))

theorem filterMap_push_push (rs : List PushRec) : (rs.map EmitItem.push).filterMap itemPush = rs := by
  rw [List.filterMap_map]
  exact List.filterMap_some

theorem filterMap_save_push (rs : List PushRec) : (rs.map EmitItem.push).filterMap itemSave = [] := by
  rw [List.filterMap_map]
  exact List.filterMap_eq_nil_iff.2 fun _ _ => rfl

theorem filterMap_save_save (ss : List SaveRec) : (ss.map EmitItem.save).filterMap itemSave = ss := by
  rw [List.filterMap_map]
  exact List.filterMap_some

theorem filterMap_push_save (ss : List SaveRec) : (ss.map EmitItem.save).filterMap itemPush = [] := by
  rw [List.filterMap_map]
  exact List.filterMap_eq_nil_iff.2 fun _ _ => rfl

/-- The pushes among the items are the recorded ones, in their order. -/
theorem pushes_items : (items p).filterMap itemPush = allRecs p := by
  have hhead : (headItems p).filterMap itemPush = allRecs p := by
    rw [headItems, List.filterMap_append, filterMap_push_push, allRecs]
    cases hf : p.frame with
    | none =>
      rw [latePushes_of_none p hf]
      rfl
    | some f =>
      rw [Option.isSome_some, if_pos rfl, List.filterMap_cons, filterMap_push_push]
      rfl
  have halloc : (allocItems p).filterMap itemPush = [] := by
    rw [allocItems]
    split <;> rfl
  have hmir : (mirItems p).filterMap itemPush = [] := by
    rw [mirItems]
    split
    · rw [List.filterMap_append, filterMap_push_save]
      rfl
    · rfl
  rw [items, List.filterMap_append, List.filterMap_append, List.filterMap_append, hhead, halloc, hmir, filterMap_push_save, List.append_nil,
    List.append_nil, List.append_nil]

/-- The saves among the items are the recorded ones, in their order. -/
theorem saves_items : (items p).filterMap itemSave = rbpRec p ++ saveRecs p.size (mirPos p) p.saves := by
  have hhead : (headItems p).filterMap itemSave = [] := by
    rw [headItems, List.filterMap_append, filterMap_save_push]
    split
    · rw [List.filterMap_cons, filterMap_save_push]
      rfl
    · rfl
  have halloc : (allocItems p).filterMap itemSave = [] := by
    rw [allocItems]
    split <;> rfl
  have hmir : (mirItems p).filterMap itemSave = rbpRec p := by
    rw [mirItems]
    split
    · rw [List.filterMap_append, filterMap_save_save]
      exact List.append_nil _
    · rename_i hnone
      rw [rbpRec, Option.not_isSome_iff_eq_none.1 hnone]
      rfl
  rw [items, List.filterMap_append, List.filterMap_append, List.filterMap_append, hhead, halloc, hmir, filterMap_save_save, List.nil_append,
    List.nil_append]

/-- There is an allocation to describe when the size is not zero. -/
theorem alloc_mem_items : .alloc ∈ items p ↔ p.size ≠ 0 := by
  have hhead : .alloc ∉ headItems p := by
    rw [headItems]
    split <;> simp
  have hmir : .alloc ∉ mirItems p := by
    rw [mirItems]
    split <;> simp
  have hsaves : .alloc ∉ (saveRecs p.size (mirPos p) p.saves).map EmitItem.save := by simp
  simp only [items, List.mem_append, hhead, hmir, hsaves, or_false, false_or]
  rw [allocItems]
  split
  · rename_i h
    simp [h]
  · rename_i h
    simp [h]

/-- There is a frame register to describe when the prologue sets one. -/
theorem fpreg_mem_items : .fpreg ∈ items p ↔ p.setsFrame = true := by
  have halloc : .fpreg ∉ allocItems p := by
    rw [allocItems]
    split <;> simp
  have hsaves : .fpreg ∉ (saveRecs p.size (mirPos p) p.saves).map EmitItem.save := by simp
  simp only [items, List.mem_append, halloc, hsaves, or_false, false_or]
  rw [headItems, mirItems, PrologShape.setsFrame]
  cases p.frame <;> cases p.mir <;> simp

/-- The offset zero stands for no frame register: none is set at the first byte. -/
theorem setFpregOffset_eq_zero : (parsed p).setFpregOffset = 0 ↔ p.setsFrame = false := by
  rw [parsed, PrologShape.setsFrame]
  dsimp only
  cases hmir : p.mir with
  | some m =>
    have hpos : mirPos p ≠ 0 := by
      rw [mirPos, hmir, Option.isSome_some, if_pos rfl]
      omega
    simpa using hpos
  | none =>
    cases hf : p.frame with
    | some f =>
      have hpos : framePos p ≠ 0 := by
        rw [framePos]
        omega
      simpa using hpos
    | none => simp

/-- The loop over the codes starts with the items of the prologue. -/
theorem pending_parsed : (parsed p).pending = pendingOf (items p).reverse := by
  have hrbp : (rbpRec p).reverse = rbpRec p := by
    rw [rbpRec]
    cases p.mir <;> rfl
  have halloc : decide (.alloc ∈ (items p).reverse) = ((parsed p).allocSize != 0) := by
    rw [Bool.eq_iff_iff, decide_eq_true_eq, List.mem_reverse, alloc_mem_items, bne_iff_ne]
    rfl
  have hfpreg : decide (.fpreg ∈ (items p).reverse) = ((parsed p).setFpregOffset != 0) := by
    rw [Bool.eq_iff_iff, decide_eq_true_eq, List.mem_reverse, fpreg_mem_items, bne_iff_ne, Ne, setFpregOffset_eq_zero, Bool.not_eq_false]
  rw [pendingOf, halloc, hfpreg, List.filterMap_reverse, List.filterMap_reverse, pushes_items, saves_items, List.reverse_append, hrbp]
  rfl

/-! ## What is registered -/

theorem length_flatMap_pushes (q : ParsedPrologue) (rs : List PushRec) :
    ((rs.map EmitItem.push).flatMap q.slots).length = 2 * rs.length := by
  induction rs with
  | nil => rfl
  | cons r rs ih =>
    rw [List.map_cons, List.flatMap_cons, List.length_append, ih, length_slots_push, List.length_cons]
    omega

theorem length_flatMap_saves (q : ParsedPrologue) (ss : List SaveRec) :
    ((ss.map EmitItem.save).flatMap q.slots).length = 4 * ss.length := by
  induction ss with
  | nil => rfl
  | cons s ss ih =>
    rw [List.map_cons, List.flatMap_cons, List.length_append, ih, length_slots_save, List.length_cons]
    omega

/-- Only stores that are there are kept. -/
theorem length_saveRecs_le (size pos : Nat) (ss : List (BitVec 8 × BitVec 4)) : (saveRecs size pos ss).length ≤ ss.length := by
  induction ss generalizing pos with
  | nil => exact Nat.le_refl _
  | cons s ss ih =>
    have hrest := ih (pos + 4)
    rw [saveRecs]
    split
    · rw [List.length_cons, List.length_cons]
      omega
    · rw [List.length_cons]
      omega

theorem even_flatMap (q : ParsedPrologue) (items : List EmitItem) : (items.flatMap q.slots).length % 2 = 0 := by
  induction items with
  | nil => rfl
  | cons e items ih =>
    have heven := even_slots q e
    rw [List.flatMap_cons, List.length_append]
    omega

/-- The codes of a prologue have room in the array. -/
theorem length_slots_items : ((items p).flatMap (parsed p).slots).length ≤ 2 * maxUnwindCodes := by
  have hsaved := length_saved p
  have hlocal := length_localCells p
  have hrecs := length_saveRecs_le p.size (mirPos p) p.saves
  rw [PrologShape.localCells, List.length_append, length_saveCells] at hsaved hlocal
  rw [PrologShape.allPushes, List.length_append] at hsaved
  have hhead : ((headItems p).flatMap (parsed p).slots).length ≤
      2 * (p.pushes.length + p.latePushes.length) + if p.frame.isSome then 2 else 0 := by
    rw [headItems, List.flatMap_append, List.length_append, length_flatMap_pushes, length_pushRecs]
    split
    · rw [List.flatMap_cons, List.length_append, length_slots_fpreg, length_flatMap_pushes, length_pushRecs]
      omega
    · rw [List.flatMap_nil, List.length_nil]
      omega
  have halloc : ((allocItems p).flatMap (parsed p).slots).length ≤ 6 := by
    rw [allocItems]
    split
    · exact Nat.zero_le _
    · rw [List.flatMap_singleton]
      rcases length_slots_alloc (parsed p) with h | h | h <;> omega
  have hmir : ((mirItems p).flatMap (parsed p).slots).length ≤ 4 * p.rbpCell.length + if p.mir.isSome then 2 else 0 := by
    rw [mirItems, rbpRec, PrologShape.rbpCell]
    cases p.mir with
    | none => exact Nat.le_refl _
    | some m =>
      rw [Option.isSome_some, if_pos rfl, if_pos rfl, List.flatMap_append, List.length_append, length_flatMap_saves, List.flatMap_singleton,
        length_slots_fpreg]
      exact Nat.le_refl _
  rw [items, List.flatMap_append, List.flatMap_append, List.flatMap_append, List.length_append, List.length_append, List.length_append,
    length_flatMap_saves, maxUnwindCodes]
  split at hhead <;> split at hmir <;> omega

/-- The codes that are written for items in the order of their offsets. -/
theorem codes_eq {q : ParsedPrologue} {x y : Nat} {items : List EmitItem} (hasc : Ascending q x y items)
    (hpending : q.pending = pendingOf items.reverse) (hroom : (items.flatMap q.slots).length ≤ 2 * maxUnwindCodes) :
    q.codes maxUnwindCodes = items.reverse.flatMap q.slots := by
  have hsorted : items.reverse.Pairwise fun e e' => itemOff q e' < itemOff q e := List.pairwise_reverse.2 hasc.sorted
  have hpos : ∀ e ∈ items.reverse, 0 < itemOff q e :=
    fun e he => Nat.lt_of_le_of_lt (Nat.zero_le _) (hasc.bound e (List.mem_reverse.1 he)).1
  have hreverse : (items.reverse.flatMap q.slots).length = (items.flatMap q.slots).length :=
    ((List.reverse_perm _).flatMap_right _).length_eq
  rw [ParsedPrologue.codes, hpending, count_pendingOf hsorted,
    emitLoop_eq hsorted hpos rfl (by rw [List.length_nil, Nat.zero_add, hreverse]; exact hroom)]
  rfl

/-- The byte of the frame register and its offset. -/
def frameByte (q : ParsedPrologue) : BitVec 8 := (q.frameReg &&& 0x0F#8) ||| ((q.frameOffset &&& 0x0F#8) <<< 4)

/-- What Windows reads of some items. -/
def infoFrom (q : ParsedPrologue) (items : List EmitItem) : UnwindInfo where
  prologSize := q.prologSize % 256
  frameReg := (frameByte q).extractLsb' 0 4
  frameOffset := ((frameByte q).extractLsb' 4 4).toNat
  codes := items.map (codeOf q)

theorem codes_ne_nil {code info : List (BitVec 8)} (h : registerUnwind code = some info) :
    (parseInsns code).codes maxUnwindCodes ≠ [] := by
  intro hnil
  rw [registerUnwind, hnil] at h
  exact absurd h (Option.some_ne_none _).symm

/-- What is registered is read back. -/
theorem decode_registered {code info : List (BitVec 8)} (h : registerUnwind code = some info) {q : ParsedPrologue}
    (hparse : parseInsns code = q) {items : List EmitItem} (hcodes : q.codes maxUnwindCodes = items.flatMap q.slots)
    (hroom : (items.flatMap q.slots).length ≤ 2 * maxUnwindCodes)
    (hsize : .alloc ∈ items → 0 < q.allocSize ∧ q.allocSize < 2 ^ 32) : decodeInfo info = some (infoFrom q items) := by
  have heven := even_flatMap q items
  rw [maxUnwindCodes] at hroom
  rw [registerUnwind, hparse] at h
  dsimp only at h
  rw [hcodes] at h
  split at h
  · exact absurd h (Option.some_ne_none _).symm
  · obtain rfl := Option.some.inj h
    have hcount : (BitVec.ofNat 8 ((items.flatMap q.slots).length / 2)).toNat = (items.flatMap q.slots).length / 2 := by
      rw [BitVec.toNat_ofNat, Nat.mod_eq_of_lt (by omega)]
    rw [List.cons_append, List.cons_append, List.cons_append, List.cons_append, List.nil_append, decodeInfo, hcount, BitVec.toNat_ofNat,
      List.take_of_length_le (by omega), decodeCodes_flatMap hsize]
    rfl

/-- What Windows reads of a prologue. -/
def infoOf : UnwindInfo where
  prologSize := p.bytes.length
  frameReg := if p.setsFrame then rbp else 0#4
  frameOffset := if p.mir.isSome then (p.size - 8) / 16 % 16 else 0
  codes := (items p).reverse.map (codeOf (parsed p))

theorem frame_bits : ∀ off : BitVec 8,
    (((5#8 &&& 0x0F#8) ||| ((off &&& 0x0F#8) <<< 4)).extractLsb' 0 4 = rbp ∧
      ((0#8 &&& 0x0F#8) ||| ((off &&& 0x0F#8) <<< 4)).extractLsb' 0 4 = 0#4) ∧
    (((5#8 &&& 0x0F#8) ||| ((off &&& 0x0F#8) <<< 4)).extractLsb' 4 4).toNat = off.toNat % 16 ∧
      (((0#8 &&& 0x0F#8) ||| ((off &&& 0x0F#8) <<< 4)).extractLsb' 4 4).toNat = off.toNat % 16 := by decide

/-- The byte of the frame register of a prologue. -/
theorem frameByte_parsed {q : ParsedPrologue} (hreg : q.frameReg = (parsed p).frameReg) (hoff : q.frameOffset = (parsed p).frameOffset) :
    (frameByte q).extractLsb' 0 4 = (infoOf p).frameReg ∧ ((frameByte q).extractLsb' 4 4).toNat = (infoOf p).frameOffset := by
  obtain ⟨⟨hrbp, hnone⟩, hoff₁, hoff₂⟩ := frame_bits (parsed p).frameOffset
  have hmod : (parsed p).frameOffset.toNat % 16 = if p.mir.isSome then (p.size - 8) / 16 % 16 else 0 := by
    rw [parsed]
    dsimp only
    split
    · rw [BitVec.toNat_ofNat]
      omega
    · rfl
  have hparsed : (parsed p).frameReg = if p.setsFrame then 5#8 else 0#8 := rfl
  rw [frameByte, hreg, hoff, infoOf, hparsed]
  cases hset : p.setsFrame with
  | true => exact ⟨hrbp, hoff₁.trans hmod⟩
  | false => exact ⟨hnone, hoff₂.trans hmod⟩

end Win64Aux
end PgJitter
