import PgJitter.Lib.Assembly
import Mathlib.Algebra.Order.Ring.Nat
import Mathlib.Data.List.Nodup

/-!
# Code emitted in blocks, with the jumps between them bound at the end

A compiler of one pass emits a block of code after another. A jump inside a block goes to a mark of the block; a jump out of a block is
recorded with the number of the block it goes to, and is bound when all the code is there, from the table of the labels of the blocks.
A block is run item by item: `runItems` says where that comes out, and `runs_items` that the assembled code does the same.
-/

namespace Backpatch

open Assembly

variable {I S : Type}

/-! ## Blocks -/

/-- What a block is made of: an instruction, a jump to a mark of the block, a jump to another block, or a mark. -/
inductive Item (I : Type) where
  | op (i : I)
  | jumpTo (i : I) (mark : Nat)
  | jumpOut (i : I) (block : Nat)
  | mark (k : Nat)

/-- The instructions without jumps. -/
def ops (is : List I) : List (Item I) := is.map Item.op

/-- How many instructions an item is. -/
def Item.size : Item I → Nat
  | op _ => 1
  | jumpTo _ _ => 1
  | jumpOut _ _ => 1
  | mark _ => 0

/-- How many instructions a block is. -/
def size (items : List (Item I)) : Nat := (items.map Item.size).sum

/-- The mark that an item is. -/
def Item.name : Item I → Option Nat
  | mark k => some k
  | _ => none

/-- The marks of a block. -/
def marks (items : List (Item I)) : List Nat := items.filterMap Item.name

/-- How many instructions of a block stand before a mark. -/
def markAt (k : Nat) : List (Item I) → Nat
  | [] => 0
  | item :: items => if item.name = some k then 0 else item.size + markAt k items

/-- A block: its number, its code, and numbers of blocks without code after it. -/
structure Block (I : Type) where
  first : Nat
  items : List (Item I)
  rest : List Nat

@[simp] theorem size_nil : size ([] : List (Item I)) = 0 := rfl

@[simp] theorem size_cons (item : Item I) (items : List (Item I)) : size (item :: items) = item.size + size items := rfl

@[simp] theorem size_append (a b : List (Item I)) : size (a ++ b) = size a + size b := by
  simp only [size, List.map_append, List.sum_append]

@[simp] theorem marks_append (a b : List (Item I)) : marks (a ++ b) = marks a ++ marks b := List.filterMap_append

@[simp] theorem marks_nil : marks ([] : List (Item I)) = [] := rfl

@[simp] theorem marks_cons_mark (k : Nat) (items : List (Item I)) : marks (.mark k :: items) = k :: marks items := rfl

@[simp] theorem marks_cons_op (i : I) (items : List (Item I)) : marks (.op i :: items) = marks items := rfl

@[simp] theorem marks_cons_jumpTo (i : I) (k : Nat) (items : List (Item I)) : marks (.jumpTo i k :: items) = marks items := rfl

@[simp] theorem marks_cons_jumpOut (i : I) (b : Nat) (items : List (Item I)) : marks (.jumpOut i b :: items) = marks items := rfl

@[simp] theorem marks_ops (is : List I) : marks (ops is) = [] := by
  induction is with
  | nil => rfl
  | cons i is ih => exact ih

/-! ## Emission -/

/-- What has been emitted: the code, the labels of the blocks, and the jumps out of blocks, each with the block it goes to. -/
structure Emitter (I : Type) where
  prog : Program I
  labels : Nat → Option Nat
  pending : List (Nat × Nat)

namespace Emitter

/-- Nothing. -/
def init : Emitter I := ⟨.empty, fun _ => none, []⟩

/-- Label the position that the code has come to. -/
def label (e : Emitter I) (b : Nat) : Emitter I := { e with labels := Function.update e.labels b (some e.prog.here) }

@[simp] theorem labels_label_self (e : Emitter I) (b : Nat) : (e.label b).labels b = some e.prog.here := Function.update_self ..

theorem labels_label_of_ne {b n : Nat} (h : n ≠ b) (e : Emitter I) : (e.label b).labels n = e.labels n := Function.update_of_ne h ..

/-- Emit an item, where the marks of its block are at `loc`. -/
def emitItem (loc : Nat → Nat) (e : Emitter I) : Item I → Emitter I
  | .op i => { e with prog := e.prog.emit [i] }
  | .jumpTo i k => { e with prog := (e.prog.emit [i]).setLabel e.prog.here (loc k) }
  | .jumpOut i b => { e with prog := e.prog.emit [i], pending := e.pending ++ [(e.prog.here, b)] }
  | .mark _ => e

/-- Emit a block of code. -/
def emitItems (e : Emitter I) (items : List (Item I)) : Emitter I :=
  items.foldl (emitItem fun k => e.prog.here + markAt k items) e

/-- Emit a block under its labels. -/
def emitBlock (e : Emitter I) (b : Block I) : Emitter I := b.rest.foldl label ((e.label b.first).emitItems b.items)

/-- Bind the recorded jumps: a jump to a block without a label stays unbound. -/
def patch (e : Emitter I) : Program I :=
  e.pending.foldl (fun P jb => match e.labels jb.2 with
    | some l => P.setLabel jb.1 l
    | none => P) e.prog

end Emitter

/-- The blocks, emitted one after another. -/
def emitBlocks (bs : List (Block I)) : Emitter I := bs.foldl Emitter.emitBlock .init

/-- The code of the blocks. -/
def assemble (bs : List (Block I)) : Program I := (emitBlocks bs).patch

/-- The labels of the blocks. -/
def labels (bs : List (Block I)) : Nat → Option Nat := (emitBlocks bs).labels

/-! ## The code that was emitted -/

/-- Some items stand at a position: `code` says what stands where, `inner` where a jump inside the block is bound, and `outer` which
block a jump goes to. -/
def Stands (code : Nat → I → Prop) (inner outer : Nat → Nat → Prop) (loc : Nat → Nat) : Nat → List (Item I) → Prop
  | _, [] => True
  | pos, .op i :: r => code pos i ∧ Stands code inner outer loc (pos + 1) r
  | pos, .jumpTo i k :: r => code pos i ∧ inner pos (loc k) ∧ Stands code inner outer loc (pos + 1) r
  | pos, .jumpOut i b :: r => code pos i ∧ outer pos b ∧ Stands code inner outer loc (pos + 1) r
  | pos, .mark k :: r => loc k = pos ∧ Stands code inner outer loc pos r

/-- Some items stand in a program, with their jumps bound. -/
def At (P : Program I) (labels : Nat → Option Nat) (loc : Nat → Nat) : Nat → List (Item I) → Prop :=
  Stands (fun pos i => P.code[pos]? = some i) (fun pos l => P.target pos = some l) (fun pos b => P.target pos = labels b) loc

/-- Some items stand in what has been emitted, with their jumps out recorded. -/
def Emitted (e : Emitter I) (loc : Nat → Nat) : Nat → List (Item I) → Prop :=
  Stands (fun pos i => e.prog.code[pos]? = some i) (fun pos l => e.prog.target pos = some l) (fun pos b => (pos, b) ∈ e.pending) loc

section Stands

variable {code code' : Nat → I → Prop} {inner inner' outer outer' : Nat → Nat → Prop} {loc : Nat → Nat}

theorem Stands.mono (hcode : ∀ pos i, code pos i → code' pos i) (hinner : ∀ pos l, inner pos l → inner' pos l)
    (houter : ∀ pos b, outer pos b → outer' pos b) {pos : Nat} {items : List (Item I)} (h : Stands code inner outer loc pos items) :
    Stands code' inner' outer' loc pos items := by
  induction items generalizing pos with
  | nil => trivial
  | cons item items ih =>
    cases item with
    | op i => exact ⟨hcode _ _ h.1, ih h.2⟩
    | jumpTo i k => exact ⟨hcode _ _ h.1, hinner _ _ h.2.1, ih h.2.2⟩
    | jumpOut i b => exact ⟨hcode _ _ h.1, houter _ _ h.2.1, ih h.2.2⟩
    | mark k => exact ⟨h.1, ih h.2⟩

/-- Items stand one after the other. -/
theorem stands_append {pos : Nat} {a b : List (Item I)} :
    Stands code inner outer loc pos (a ++ b) ↔ Stands code inner outer loc pos a ∧ Stands code inner outer loc (pos + size a) b := by
  induction a generalizing pos with
  | nil => exact ⟨fun h => ⟨trivial, h⟩, And.right⟩
  | cons item a ih =>
    cases item with
    | op i =>
      simp only [List.cons_append, Stands, ih, size_cons, Item.size, and_assoc, Nat.add_assoc]
    | jumpTo i k =>
      simp only [List.cons_append, Stands, ih, size_cons, Item.size, and_assoc, Nat.add_assoc]
    | jumpOut i b =>
      simp only [List.cons_append, Stands, ih, size_cons, Item.size, and_assoc, Nat.add_assoc]
    | mark k =>
      simp only [List.cons_append, Stands, ih, size_cons, Item.size, and_assoc, Nat.zero_add]

end Stands

/-- What holds between two blocks: no jump is bound or recorded beyond the code, and no recorded jump is bound. -/
structure Emitter.Open (e : Emitter I) : Prop where
  fresh : ∀ j, e.prog.here ≤ j → e.prog.target j = none
  below : ∀ jb ∈ e.pending, jb.1 < e.prog.here
  unbound : ∀ jb ∈ e.pending, e.prog.target jb.1 = none
  once : (e.pending.map Prod.fst).Nodup

/-- What is emitted later leaves what was emitted before. -/
structure Emitter.Extends (e e' : Emitter I) : Prop where
  code : ∀ (pos : Nat) (i : I), e.prog.code[pos]? = some i → e'.prog.code[pos]? = some i
  target : ∀ j l, e.prog.target j = some l → e'.prog.target j = some l
  pending : ∀ jb ∈ e.pending, jb ∈ e'.pending

namespace Emitter

theorem open_init : (init : Emitter I).Open :=
  ⟨fun _ _ => rfl, fun _ h => absurd h List.not_mem_nil, fun _ h => absurd h List.not_mem_nil, List.nodup_nil⟩

theorem Extends.refl (e : Emitter I) : e.Extends e := ⟨fun _ _ h => h, fun _ _ h => h, fun _ h => h⟩

theorem Extends.trans {a b c : Emitter I} (h : a.Extends b) (h' : b.Extends c) : a.Extends c :=
  ⟨fun pos i hi => h'.code pos i (h.code pos i hi), fun j l hj => h'.target j l (h.target j l hj),
    fun jb hjb => h'.pending jb (h.pending jb hjb)⟩

/-- A label changes nothing that stands. -/
theorem extends_label (e : Emitter I) (b : Nat) : e.Extends (e.label b) := ⟨fun _ _ h => h, fun _ _ h => h, fun _ h => h⟩

/-- Labels leave the program. -/
theorem prog_foldl_label (bs : List Nat) (e : Emitter I) : (bs.foldl label e).prog = e.prog := by
  induction bs generalizing e with
  | nil => rfl
  | cons b bs ih => exact ih (e.label b)

/-- Labels leave the recorded jumps. -/
theorem pending_foldl_label (bs : List Nat) (e : Emitter I) : (bs.foldl label e).pending = e.pending := by
  induction bs generalizing e with
  | nil => rfl
  | cons b bs ih => exact ih (e.label b)

section Item

variable {e : Emitter I} (loc : Nat → Nat)

/-- An item is emitted at the end of the code. -/
theorem here_emitItem (it : Item I) : (e.emitItem loc it).prog.here = e.prog.here + it.size := by
  cases it with
  | op i => exact Program.here_emit e.prog [i]
  | jumpTo i k => exact Program.here_emit e.prog [i]
  | jumpOut i b => exact Program.here_emit e.prog [i]
  | mark k => rfl

/-- An item binds its own jump and records its own jump, and no other. -/
theorem Open.item (h : e.Open) (it : Item I) : (e.emitItem loc it).Open := by
  cases it with
  | op i =>
    refine ⟨fun j hj => h.fresh j ?_, fun jb hjb => ?_, h.unbound, h.once⟩
    · rw [here_emitItem, Item.size] at hj
      omega
    · rw [here_emitItem]
      exact Nat.lt_add_right _ (h.below jb hjb)
  | jumpTo i k =>
    refine ⟨fun j hj => ?_, fun jb hjb => ?_, fun jb hjb => ?_, h.once⟩
    · rw [here_emitItem, Item.size] at hj
      have hne : j ≠ e.prog.here := by omega
      exact (Program.target_setLabel_of_ne _ hne _).trans (h.fresh j (by omega))
    · rw [here_emitItem]
      exact Nat.lt_add_right _ (h.below jb hjb)
    · exact (Program.target_setLabel_of_ne _ (Nat.ne_of_lt (h.below jb hjb)) _).trans (h.unbound jb hjb)
  | jumpOut i b =>
    have hmem : ∀ jb ∈ (e.emitItem loc (.jumpOut i b)).pending, jb ∈ e.pending ∨ jb = (e.prog.here, b) := fun jb hjb =>
      (List.mem_append.1 hjb).imp_right List.mem_singleton.1
    refine ⟨fun j hj => h.fresh j ?_, fun jb hjb => ?_, fun jb hjb => ?_, ?_⟩
    · rw [here_emitItem, Item.size] at hj
      omega
    · rw [here_emitItem, Item.size]
      rcases hmem jb hjb with hjb | rfl
      · exact Nat.lt_succ_of_lt (h.below jb hjb)
      · exact Nat.lt_succ_self _
    · rcases hmem jb hjb with hjb | rfl
      · exact h.unbound jb hjb
      · exact h.fresh _ (Nat.le_refl _)
    · change ((e.pending ++ [(e.prog.here, b)]).map Prod.fst).Nodup
      rw [List.map_append, List.map_singleton]
      refine List.nodup_append.2 ⟨h.once, List.pairwise_singleton _ _, fun j hj j' hj' heq => ?_⟩
      obtain ⟨jb, hjb, rfl⟩ := List.mem_map.1 hj
      rw [List.mem_singleton.1 hj'] at heq
      exact Nat.ne_of_lt (h.below jb hjb) heq
  | mark k => exact h

/-- An item leaves what was emitted before it. -/
theorem Open.extends_item (h : e.Open) (it : Item I) : e.Extends (e.emitItem loc it) := by
  cases it with
  | op i => exact ⟨fun pos i' hi => Program.getElem?_emit_left hi _, fun _ _ hj => hj, fun _ hjb => hjb⟩
  | jumpTo i k =>
    refine ⟨fun pos i' hi => Program.getElem?_emit_left hi _, fun j l hj => ?_, fun _ hjb => hjb⟩
    have hne : j ≠ e.prog.here := by
      rintro rfl
      exact Option.some_ne_none l (hj.symm.trans (h.fresh _ (Nat.le_refl _)))
    exact (Program.target_setLabel_of_ne _ hne _).trans hj
  | jumpOut i b =>
    exact ⟨fun pos i' hi => Program.getElem?_emit_left hi _, fun _ _ hj => hj, fun jb hjb => List.mem_append_left _ hjb⟩
  | mark k => exact .refl e

end Item

section Items

variable {e : Emitter I} {loc : Nat → Nat}

/-- The code grows by the items. -/
theorem here_foldl_item (its : List (Item I)) : (its.foldl (emitItem loc) e).prog.here = e.prog.here + size its := by
  induction its generalizing e with
  | nil => rfl
  | cons it its ih => rw [List.foldl_cons, ih, here_emitItem, size_cons, Nat.add_assoc]

/-- Items leave the labels. -/
theorem labels_foldl_item (its : List (Item I)) : (its.foldl (emitItem loc) e).labels = e.labels := by
  induction its generalizing e with
  | nil => rfl
  | cons it its ih =>
    rw [List.foldl_cons, ih]
    cases it <;> rfl

theorem Open.foldl_item (h : e.Open) (its : List (Item I)) : (its.foldl (emitItem loc) e).Open := by
  induction its generalizing e with
  | nil => exact h
  | cons it its ih => exact ih (h.item loc it)

theorem Open.extends_foldl_item (h : e.Open) (its : List (Item I)) : e.Extends (its.foldl (emitItem loc) e) := by
  induction its generalizing e with
  | nil => exact .refl e
  | cons it its ih => exact (h.extends_item loc it).trans (ih (h.item loc it))

/-- What an extension keeps. -/
theorem Extends.emitted {e' : Emitter I} (h : e.Extends e') {pos : Nat} {its : List (Item I)} (hits : Emitted e loc pos its) :
    Emitted e' loc pos its :=
  Stands.mono h.code h.target (fun _ _ hjb => h.pending _ hjb) hits

/-- The items are emitted at the end of the code, where the marks of those to come are where they are said to be. -/
theorem emitted_foldl_item (h : e.Open) {its : List (Item I)} (hmarks : (marks its).Nodup)
    (hloc : ∀ k ∈ marks its, loc k = e.prog.here + markAt k its) : Emitted (its.foldl (emitItem loc) e) loc e.prog.here its := by
  induction its generalizing e with
  | nil => trivial
  | cons it its ih =>
    have hrest := fun hnodup hloc' => here_emitItem (e := e) loc it ▸ ih (h.item loc it) hnodup hloc'
    have hext : (e.emitItem loc it).Extends (its.foldl (emitItem loc) (e.emitItem loc it)) := (h.item loc it).extends_foldl_item its
    have hlast : ∀ i : I, (e.prog.emit [i]).code[e.prog.here]? = some i := fun i => Program.getElem?_emit_right e.prog [i] 0
    have hlater : ∀ k, it.name ≠ some k → loc k = e.prog.here + markAt k (it :: its) →
        loc k = (e.emitItem loc it).prog.here + markAt k its := by
      intro k hne hk
      rw [hk, markAt, if_neg hne, here_emitItem, Nat.add_assoc]
    cases it with
    | op i => exact ⟨hext.code _ _ (hlast i), hrest hmarks fun k hk => hlater k (Option.some_ne_none k).symm (hloc k hk)⟩
    | jumpTo i k' =>
      refine ⟨hext.code _ _ (hlast i), hext.target _ _ (Program.target_setLabel_self _ _ _), hrest hmarks fun k hk => ?_⟩
      exact hlater k (Option.some_ne_none k).symm (hloc k hk)
    | jumpOut i b =>
      refine ⟨hext.code _ _ (hlast i), hext.pending _ (List.mem_append_right _ List.mem_cons_self), hrest hmarks fun k hk => ?_⟩
      exact hlater k (Option.some_ne_none k).symm (hloc k hk)
    | mark k' =>
      obtain ⟨hnew, hnodup⟩ := List.nodup_cons.1 hmarks
      refine ⟨?_, hrest hnodup fun k hk => ?_⟩
      · rw [hloc k' List.mem_cons_self, markAt, Item.name, if_pos rfl, Nat.add_zero]
      · have hne : k' ≠ k := fun heq => hnew (heq ▸ hk)
        exact hlater k (fun heq => hne (Option.some.inj heq)) (hloc k (List.mem_cons_of_mem _ hk))

end Items

section Block

variable {e : Emitter I}

/-- The code grows by the code of the block. -/
theorem here_block (b : Block I) : (e.emitBlock b).prog.here = e.prog.here + size b.items := by
  rw [emitBlock, prog_foldl_label]
  exact here_foldl_item b.items

theorem Open.block (h : e.Open) (b : Block I) : (e.emitBlock b).Open := by
  have hlabel : (e.label b.first).Open := ⟨h.fresh, h.below, h.unbound, h.once⟩
  have hitems : ((e.label b.first).emitItems b.items).Open := hlabel.foldl_item b.items
  obtain ⟨hfresh, hbelow, hunbound, honce⟩ := hitems
  exact ⟨by rw [Emitter.emitBlock, prog_foldl_label]; exact hfresh,
    by rw [Emitter.emitBlock, prog_foldl_label, pending_foldl_label]; exact hbelow,
    by rw [Emitter.emitBlock, prog_foldl_label, pending_foldl_label]; exact hunbound,
    by rw [Emitter.emitBlock, pending_foldl_label]; exact honce⟩

theorem Open.extends_block (h : e.Open) (b : Block I) : e.Extends (e.emitBlock b) := by
  have hlabel : (e.label b.first).Open := ⟨h.fresh, h.below, h.unbound, h.once⟩
  have hitems : e.Extends ((e.label b.first).emitItems b.items) := (extends_label e b.first).trans (hlabel.extends_foldl_item b.items)
  exact ⟨by rw [Emitter.emitBlock, prog_foldl_label]; exact hitems.code, by rw [Emitter.emitBlock, prog_foldl_label]; exact hitems.target,
    by rw [Emitter.emitBlock, pending_foldl_label]; exact hitems.pending⟩

/-- A block is emitted at the end of the code. -/
theorem emitted_block (h : e.Open) {b : Block I} (hmarks : (marks b.items).Nodup) :
    Emitted (e.emitBlock b) (fun k => e.prog.here + markAt k b.items) e.prog.here b.items := by
  have hlabel : (e.label b.first).Open := ⟨h.fresh, h.below, h.unbound, h.once⟩
  have hitems : Emitted ((e.label b.first).emitItems b.items) (fun k => e.prog.here + markAt k b.items) e.prog.here b.items :=
    emitted_foldl_item hlabel hmarks fun _ _ => rfl
  unfold Emitted
  rw [Emitter.emitBlock, prog_foldl_label, pending_foldl_label]
  exact hitems

end Block

end Emitter

open Emitter

theorem open_foldl_block (bs : List (Block I)) {e : Emitter I} (h : e.Open) : (bs.foldl Emitter.emitBlock e).Open := by
  induction bs generalizing e with
  | nil => exact h
  | cons b bs ih => exact ih (h.block b)

theorem extends_foldl_block (bs : List (Block I)) {e : Emitter I} (h : e.Open) : e.Extends (bs.foldl Emitter.emitBlock e) := by
  induction bs generalizing e with
  | nil => exact .refl e
  | cons b bs ih => exact (h.extends_block b).trans (ih (h.block b))

/-- The code of some blocks. -/
def sizes (bs : List (Block I)) : Nat := (bs.map fun b => size b.items).sum

theorem sizes_snoc (bs : List (Block I)) (b : Block I) : sizes (bs ++ [b]) = sizes bs + size b.items := by
  rw [sizes, List.map_append, List.sum_append]
  exact congrArg _ (Nat.add_zero _)

theorem here_foldl_block (bs : List (Block I)) (e : Emitter I) : (bs.foldl Emitter.emitBlock e).prog.here = e.prog.here + sizes bs := by
  induction bs generalizing e with
  | nil => rfl
  | cons b bs ih =>
    rw [List.foldl_cons, ih, here_block, Nat.add_assoc]
    rfl

/-! ## The recorded jumps -/

/-- The jumps of a list, bound to the labels of their blocks. -/
def bindAll (labels : Nat → Option Nat) (l : List (Nat × Nat)) (P : Program I) : Program I :=
  l.foldl (fun P jb => match labels jb.2 with
    | some l => P.setLabel jb.1 l
    | none => P) P

theorem code_bindAll (labels : Nat → Option Nat) (l : List (Nat × Nat)) (P : Program I) : (bindAll labels l P).code = P.code := by
  induction l generalizing P with
  | nil => rfl
  | cons jb l ih =>
    rw [bindAll, List.foldl_cons, ← bindAll, ih]
    split <;> rfl

theorem target_bindAll_of_not_mem (labels : Nat → Option Nat) {l : List (Nat × Nat)} {j : Nat} (h : j ∉ l.map Prod.fst)
    (P : Program I) : (bindAll labels l P).target j = P.target j := by
  induction l generalizing P with
  | nil => rfl
  | cons jb l ih =>
    rw [List.map_cons, List.mem_cons, not_or] at h
    rw [bindAll, List.foldl_cons, ← bindAll, ih h.2]
    split
    · exact Program.target_setLabel_of_ne P h.1 _
    · rfl

/-- A recorded jump that is not bound yet is bound to the label of its block. -/
theorem target_bindAll_of_mem (labels : Nat → Option Nat) {l : List (Nat × Nat)} (hl : (l.map Prod.fst).Nodup) {j b : Nat}
    (hjb : (j, b) ∈ l) (P : Program I) (h : P.target j = none) : (bindAll labels l P).target j = labels b := by
  induction l generalizing P with
  | nil => exact absurd hjb List.not_mem_nil
  | cons jb l ih =>
    obtain ⟨hnew, hnodup⟩ := List.nodup_cons.1 hl
    rw [bindAll, List.foldl_cons, ← bindAll]
    rcases List.mem_cons.1 hjb with rfl | hjb
    · rw [target_bindAll_of_not_mem labels hnew]
      cases hlabel : labels b with
      | some l' => simp only [Program.target_setLabel_self]
      | none => exact h
    · have hne : j ≠ jb.1 := fun heq => hnew (heq ▸ List.mem_map_of_mem hjb)
      refine ih hnodup hjb _ ?_
      split
      · rw [Program.target_setLabel_of_ne P hne]
        exact h
      · exact h

/-- What stands in the emitted code stands in the patched code, with its jumps bound. -/
theorem Emitter.Open.at_patch {e : Emitter I} (h : e.Open) {loc : Nat → Nat} {pos : Nat} {items : List (Item I)}
    (hitems : Emitted e loc pos items) : At e.patch e.labels loc pos items := by
  have hpatch : e.patch = bindAll e.labels e.pending e.prog := rfl
  refine Stands.mono (fun pos i hi => ?_) (fun pos l hl => ?_) (fun pos b hb => ?_) hitems
  · rw [hpatch, code_bindAll]
    exact hi
  · have hnot : pos ∉ e.pending.map Prod.fst := by
      intro hmem
      obtain ⟨jb, hjb, rfl⟩ := List.mem_map.1 hmem
      exact Option.some_ne_none l (hl.symm.trans (h.unbound jb hjb))
    rw [hpatch, target_bindAll_of_not_mem _ hnot]
    exact hl
  · rw [hpatch]
    exact target_bindAll_of_mem _ h.once hb _ (h.unbound (pos, b) hb)

/-- **The assembled code**: every block stands after those before it, with its jumps bound. -/
theorem at_assemble {bs pre post : List (Block I)} {b : Block I} (hbs : bs = pre ++ b :: post) (hmarks : (marks b.items).Nodup) :
    At (assemble bs) (labels bs) (fun k => sizes pre + markAt k b.items) (sizes pre) b.items := by
  have hpre : (emitBlocks pre).Open := open_foldl_block pre open_init
  have hhere : (emitBlocks pre).prog.here = sizes pre := by
    rw [emitBlocks, here_foldl_block]
    exact Nat.zero_add _
  have hblock := emitted_block hpre hmarks
  have hsplit : emitBlocks bs = post.foldl Emitter.emitBlock ((emitBlocks pre).emitBlock b) := by
    rw [hbs, emitBlocks, List.foldl_append, List.foldl_cons]
    rfl
  have hemitted : Emitted (emitBlocks bs) (fun k => sizes pre + markAt k b.items) (sizes pre) b.items := by
    rw [hsplit, ← hhere]
    exact (extends_foldl_block post (hpre.block b)).emitted hblock
  exact (open_foldl_block bs open_init).at_patch hemitted

/-! ## The labels -/

/-- The labels that a block sets. -/
def Block.numbers (b : Block I) : List Nat := b.first :: b.rest

/-- Labels of other numbers stay. -/
theorem labels_foldl_label {bs : List Nat} {n : Nat} (h : n ∉ bs) (e : Emitter I) : (bs.foldl label e).labels n = e.labels n := by
  induction bs generalizing e with
  | nil => rfl
  | cons b bs ih =>
    rw [List.mem_cons, not_or] at h
    rw [List.foldl_cons, ih h.2, labels_label_of_ne h.1]

/-- A block leaves the labels of other blocks. -/
theorem labels_block {b : Block I} {n : Nat} (h : n ∉ b.numbers) (e : Emitter I) : (e.emitBlock b).labels n = e.labels n := by
  rw [Block.numbers, List.mem_cons, not_or] at h
  rw [Emitter.emitBlock, labels_foldl_label h.2, Emitter.emitItems, labels_foldl_item, labels_label_of_ne h.1]

/-- Blocks leave the labels of other blocks. -/
theorem labels_foldl_block {bs : List (Block I)} {n : Nat} (h : ∀ b ∈ bs, n ∉ b.numbers) (e : Emitter I) :
    (bs.foldl Emitter.emitBlock e).labels n = e.labels n := by
  induction bs generalizing e with
  | nil => rfl
  | cons b bs ih =>
    rw [List.foldl_cons, ih fun b' hb' => h b' (List.mem_cons_of_mem b hb'), labels_block (h b List.mem_cons_self)]

/-- **The label of a block**: where its code begins, if its number is not used again. -/
theorem labels_first {bs pre post : List (Block I)} {b : Block I} (hbs : bs = pre ++ b :: post) (hrest : b.first ∉ b.rest)
    (hpost : ∀ b' ∈ post, b.first ∉ b'.numbers) : labels bs b.first = some (sizes pre) := by
  have hhere : (emitBlocks pre).prog.here = sizes pre := by
    rw [emitBlocks, here_foldl_block]
    exact Nat.zero_add _
  rw [labels, hbs, emitBlocks, List.foldl_append, List.foldl_cons, labels_foldl_block hpost, Emitter.emitBlock, labels_foldl_label hrest,
    Emitter.emitItems, labels_foldl_item, labels_label_self, ← hhere]
  rfl

/-! ## Runs -/

/-- Where the run of a block is: at the item to come, on the way to a mark, out of the block, or stuck. -/
inductive Status (S : Type) where
  | running (s : S)
  | skipping (k : Nat) (s : S)
  | left (b : Nat) (s : S)
  | stuck

/-- One item of a block. -/
def Status.item (exec : I → S → Outcome S) : Status S → Item I → Status S
  | .running s, .op i =>
    match exec i s with
    | .next s' => .running s'
    | _ => .stuck
  | .running s, .jumpTo i k =>
    match exec i s with
    | .next s' => .running s'
    | .jump s' => .skipping k s'
    | .halt => .stuck
  | .running s, .jumpOut i b =>
    match exec i s with
    | .next s' => .running s'
    | .jump s' => .left b s'
    | .halt => .stuck
  | .skipping k s, .mark k' => if k' = k then .running s else .skipping k s
  | st, _ => st

/-- The items of a block, one after another. -/
def runItems (exec : I → S → Outcome S) (st : Status S) (items : List (Item I)) : Status S := items.foldl (Status.item exec) st

/-- Where the assembled code is. -/
def Status.place (labels : Nat → Option Nat) (loc : Nat → Nat) (pos : Nat) : Status S → Option (Nat × S)
  | running s => some (pos, s)
  | skipping k s => some (loc k, s)
  | left b s => (labels b).map fun l => (l, s)
  | stuck => none

/-- Instructions that fall through, one after another. -/
def execOps (exec : I → S → Outcome S) : List I → S → Option S
  | [], s => some s
  | i :: is, s =>
    match exec i s with
    | .next s' => execOps exec is s'
    | _ => none

section Run

variable {exec : I → S → Outcome S} {P : Program I} {labels : Nat → Option Nat} {loc : Nat → Nat} {pos : Nat} {s s' : S}

@[simp] theorem runItems_nil (st : Status S) : runItems exec st [] = st := rfl

@[simp] theorem runItems_cons (st : Status S) (item : Item I) (items : List (Item I)) :
    runItems exec st (item :: items) = runItems exec (st.item exec item) items := rfl

@[simp] theorem runItems_append (st : Status S) (a b : List (Item I)) :
    runItems exec st (a ++ b) = runItems exec (runItems exec st a) b := List.foldl_append

@[simp] theorem runItems_stuck (items : List (Item I)) : runItems exec .stuck items = .stuck := by
  induction items with
  | nil => rfl
  | cons item items ih => exact ih

@[simp] theorem runItems_left (b : Nat) (s : S) (items : List (Item I)) : runItems exec (.left b s) items = .left b s := by
  induction items with
  | nil => rfl
  | cons item items ih => exact ih

section Status

variable {st : Status S} {i : I} {k k' b : Nat}

attribute [local simp] Status.item

@[simp] theorem item_running_mark : (Status.running s).item exec (.mark k) = .running s := rfl

@[simp] theorem item_skipping_op : (Status.skipping k s).item exec (.op i) = .skipping k s := rfl

@[simp] theorem item_skipping_jumpTo : (Status.skipping k s).item exec (.jumpTo i k') = .skipping k s := rfl

@[simp] theorem item_skipping_jumpOut : (Status.skipping k s).item exec (.jumpOut i b) = .skipping k s := rfl

@[simp] theorem item_skipping_mark_self : (Status.skipping k s).item exec (.mark k) = .running s := if_pos rfl

theorem item_skipping_mark_of_ne (h : k' ≠ k) : (Status.skipping k s).item exec (.mark k') = .skipping k s := if_neg h

@[simp] theorem item_left (item : Item I) : (Status.left b s).item exec item = .left b s := rfl

theorem item_op_next (h : exec i s = .next s') : (Status.running s).item exec (.op i) = .running s' := by
  simp [h]

theorem item_jumpTo_next (h : exec i s = .next s') : (Status.running s).item exec (.jumpTo i k) = .running s' := by
  simp [h]

theorem item_jumpTo_jump (h : exec i s = .jump s') : (Status.running s).item exec (.jumpTo i k) = .skipping k s' := by
  simp [h]

theorem item_jumpOut_next (h : exec i s = .next s') : (Status.running s).item exec (.jumpOut i b) = .running s' := by
  simp [h]

theorem item_jumpOut_jump (h : exec i s = .jump s') : (Status.running s).item exec (.jumpOut i b) = .left b s' := by
  simp [h]

end Status

/-- On the way to a mark nothing is done. -/
theorem runItems_skipping {k : Nat} {items : List (Item I)} (h : k ∉ marks items) (s : S) :
    runItems exec (.skipping k s) items = .skipping k s := by
  induction items with
  | nil => rfl
  | cons item items ih =>
    cases item with
    | op i => exact ih h
    | jumpTo i k' => exact ih h
    | jumpOut i b => exact ih h
    | mark k' =>
      rw [marks_cons_mark, List.mem_cons, not_or] at h
      rw [runItems_cons, Status.item, if_neg fun heq => h.1 heq.symm]
      exact ih h.2

@[simp] theorem runItems_skipping_ops (k : Nat) (s : S) (is : List I) :
    runItems exec (.skipping k s) (ops is) = .skipping k s := runItems_skipping (by simp) s

@[simp] theorem execOps_nil (s : S) : execOps exec [] s = some s := rfl

/-- An instruction that falls through. -/
theorem execOps_cons {i : I} (h : exec i s = .next s') (is : List I) : execOps exec (i :: is) s = execOps exec is s' := by
  simp only [execOps, h]

theorem execOps_append (a b : List I) (s : S) : execOps exec (a ++ b) s = (execOps exec a s).bind (execOps exec b) := by
  induction a generalizing s with
  | nil => rfl
  | cons i a ih =>
    rw [List.cons_append, execOps, execOps]
    cases exec i s with
    | next s' => exact ih s'
    | jump s' => rfl
    | halt => rfl

/-- One list of instructions after another. -/
theorem execOps_trans {a b : List I} {c : Option S} (ha : execOps exec a s = some s') (hb : execOps exec b s' = c) :
    execOps exec (a ++ b) s = c := by
  rw [execOps_append, ha]
  exact hb

/-- The run of instructions that fall through. -/
theorem runItems_ops {is : List I} (h : execOps exec is s = some s') : runItems exec (.running s) (ops is) = .running s' := by
  induction is generalizing s with
  | nil => exact congrArg Status.running (Option.some.inj h)
  | cons i is ih =>
    rw [execOps] at h
    cases hexec : exec i s with
    | next s₁ =>
      rw [hexec] at h
      rw [ops, List.map_cons, runItems_cons, Status.item, hexec]
      exact ih h
    | jump s₁ => simp only [hexec, reduceCtorEq] at h
    | halt => simp only [hexec, reduceCtorEq] at h

/-- One item, in the assembled code. -/
theorem runs_item {item : Item I} (h : At P labels loc pos [item]) {st : Status S} {a b : Nat × S}
    (ha : st.place labels loc pos = some a) (hb : (st.item exec item).place labels loc (pos + item.size) = some b) :
    Runs exec P a b := by
  have hsame : ∀ {c : Nat × S}, some a = some c → some c = some b → Runs exec P a b := by
    rintro c hac hcb
    obtain rfl := Option.some.inj (hac.trans hcb)
    exact .refl
  cases st with
  | running s =>
    obtain rfl := Option.some.inj ha
    cases item with
    | op i =>
      cases hexec : exec i s with
      | next s₁ =>
        simp only [Status.item, hexec] at hb
        exact .next h.1 hexec (Option.some.inj hb ▸ .refl)
      | jump s₁ => simp only [Status.item, hexec, Status.place, reduceCtorEq] at hb
      | halt => simp only [Status.item, hexec, Status.place, reduceCtorEq] at hb
    | jumpTo i k =>
      cases hexec : exec i s with
      | next s₁ =>
        simp only [Status.item, hexec] at hb
        exact .next h.1 hexec (Option.some.inj hb ▸ .refl)
      | jump s₁ =>
        simp only [Status.item, hexec] at hb
        exact .jump h.1 hexec h.2.1 (Option.some.inj hb ▸ .refl)
      | halt => simp only [Status.item, hexec, Status.place, reduceCtorEq] at hb
    | jumpOut i n =>
      cases hexec : exec i s with
      | next s₁ =>
        simp only [Status.item, hexec] at hb
        exact .next h.1 hexec (Option.some.inj hb ▸ .refl)
      | jump s₁ =>
        simp only [Status.item, hexec] at hb
        obtain ⟨l, hl, rfl⟩ := Option.map_eq_some_iff.1 hb
        exact .jump h.1 hexec (h.2.1.trans hl) .refl
      | halt => simp only [Status.item, hexec, Status.place, reduceCtorEq] at hb
    | mark k => exact hsame rfl hb
  | skipping k s =>
    obtain rfl := Option.some.inj ha
    cases item with
    | op i => exact hsame rfl hb
    | jumpTo i k' => exact hsame rfl hb
    | jumpOut i n => exact hsame rfl hb
    | mark k' =>
      rw [Status.item] at hb
      split at hb
      · rename_i heq
        have hpos : loc k = pos := heq ▸ h.1
        exact hsame rfl (hpos ▸ hb)
      · exact hsame rfl hb
  | left n s =>
    have hb' : Status.place labels loc pos (.left n s) = some b := hb
    exact hsame rfl (ha.symm.trans hb')
  | stuck => exact absurd ha (Option.some_ne_none a).symm

/-- A run that is stuck comes from no place. -/
theorem place_of_run {items : List (Item I)} {st : Status S} {pos' : Nat} {b : Nat × S}
    (hlabels : ∀ n s, st = .left n s → (labels n).isSome) (hb : (runItems exec st items).place labels loc pos' = some b) (pos : Nat) :
    ∃ a, st.place labels loc pos = some a := by
  cases st with
  | running s => exact ⟨_, rfl⟩
  | skipping k s => exact ⟨_, rfl⟩
  | left n s =>
    obtain ⟨l, hl⟩ := Option.isSome_iff_exists.1 (hlabels n s rfl)
    exact ⟨(l, s), by rw [Status.place, hl, Option.map_some]⟩
  | stuck =>
    rw [runItems_stuck] at hb
    exact absurd hb (Option.some_ne_none b).symm

/-- **The assembled code does what the items do.** -/
theorem runs_items {items : List (Item I)} (h : At P labels loc pos items) {st : Status S} {a b : Nat × S}
    (ha : st.place labels loc pos = some a) (hb : (runItems exec st items).place labels loc (pos + size items) = some b) :
    Runs exec P a b := by
  induction items generalizing pos st a with
  | nil =>
    obtain rfl := Option.some.inj (ha.symm.trans hb)
    exact .refl
  | cons item items ih =>
    obtain ⟨hitem, hrest⟩ := stands_append (a := [item]) |>.1 h
    rw [runItems_cons, size_cons, ← Nat.add_assoc] at hb
    have hleft : ∀ n s, st.item exec item = .left n s → (labels n).isSome := by
      intro n s heq
      rw [heq, runItems_left] at hb
      obtain ⟨l, hl, -⟩ := Option.map_eq_some_iff.1 hb
      rw [hl]
      rfl
    obtain ⟨c, hc⟩ := place_of_run hleft hb (pos + item.size)
    exact (runs_item hitem ha hc).trans (ih hrest hc hb)

/-- A block that is run to its end. -/
theorem runs_through {items : List (Item I)} (h : At P labels loc pos items) (hrun : runItems exec (.running s) items = .running s') :
    Runs exec P (pos, s) (pos + size items, s') :=
  runs_items h (show Status.place labels loc pos (.running s) = some (pos, s) from rfl) (by rw [hrun]; rfl)

/-- A block that is left for another one. -/
theorem runs_out {items : List (Item I)} (h : At P labels loc pos items) {b l : Nat}
    (hrun : runItems exec (.running s) items = .left b s') (hl : labels b = some l) : Runs exec P (pos, s) (l, s') :=
  runs_items h (show Status.place labels loc pos (.running s) = some (pos, s) from rfl) (by rw [hrun, Status.place, hl, Option.map_some])

/-- A loop that comes back to its mark. -/
theorem runs_back {items : List (Item I)} {k : Nat} (h : At P labels loc pos items)
    (hrun : runItems exec (.running s) items = .skipping k s') : Runs exec P (pos, s) (loc k, s') :=
  runs_items h (show Status.place labels loc pos (.running s) = some (pos, s) from rfl) (by rw [hrun]; rfl)

end Run

end Backpatch
