import PgJitter.Lemmas.Pcre2Compile

/-!
# The pattern cache over whole runs

From the empty cache on, through any calls on any contexts: the counts are the pins, the slots are distinct, entries are freed
once and only when nothing holds them, and what a call returned is what it was asked for.
-/

namespace PgJitter

open Pcre2CacheAux

namespace Pcre2State

/-- What is promised of the cache between two calls. -/
structure Sound (s : Pcre2State) : Prop where
  /-- The count of an entry is the number of pins that live contexts have on it. -/
  refcount : ∀ e, s.Live e → (s.entries e).refcount = s.pins.count e
  /-- No two slots hold the same flags and pattern, and what a slot holds is not freed. -/
  distinct : ∀ i j e f, s.cache i = some e → s.cache j = some f → (s.entries e).key = (s.entries f).key → i = j
  slots : ∀ i e, s.cache i = some e → s.Live e
  /-- An entry is freed once when neither a slot nor a pin holds it any more, and not before. -/
  freedOnce : ∀ e < s.nextEntry, s.frees e = if (∃ i, s.cache i = some e) ∨ e ∈ s.pins then 0 else 1
  /-- Each time an entry was freed, its count was zero and it was in no slot. -/
  freedUnheld : ∀ f ∈ s.freed, f.refcount = 0 ∧ f.inCache = false ∧ f.inSlot = false
  /-- What a live context pins is not freed, in the cache or not. -/
  pinned : ∀ c e, PinnedBy s c e → s.Live e

end Pcre2State

namespace Pcre2CacheAux

open Pcre2State

/-- The invariant holds at the start. -/
theorem held_init : Held init.pins [] init where
  refcount e he := absurd he.1 (Nat.not_lt_zero e)
  pinned _ he := nomatch he
  slot _ _ hi := nomatch hi
  cached e he _ := absurd he.1 (Nat.not_lt_zero e)
  distinct _ _ _ _ hi _ _ := nomatch hi
  held e he := absurd he.1 (Nat.not_lt_zero e)
  unheld _ he := nomatch he
  nodup := List.nodup_nil
  once _ := Nat.zero_le 1
  unborn _ _ := rfl
  freed _ hf := nomatch hf

/-- Every step keeps the invariant and the keys. -/
theorem held_step {env : Pcre2Env} {s t : Pcre2State} (hstep : Step env s t) (h : Held s.pins [] s) :
    Held t.pins [] t ∧ Keeps s t := by
  cases hstep with
  | create =>
    have hpins : s.createContext.pins = s.pins := by
      unfold Pcre2State.pins createContext
      simp
    rw [hpins]
    exact ⟨h.congr rfl rfl rfl rfl, le_rfl, fun _ _ => rfl⟩
  | compile call hctx =>
    rcases hc : call.ctx with _ | c
    · have hnull : pcre2Compile env s call = (s, .null) := by
        unfold pcre2Compile
        rw [if_pos hc]
      rw [hnull]
      exact ⟨h, Keeps.refl s⟩
    · have hdone := pcre2Compile_done env h hc (hctx c hc)
      exact ⟨hdone.held, hdone.keeps⟩
  | release c => exact releaseContext_held h c

/-- So does every run. -/
theorem held_steps {env : Pcre2Env} {s t : Pcre2State} (hsteps : Steps env s t) (h : Held s.pins [] s) :
    Held t.pins [] t ∧ Keeps s t := by
  induction hsteps with
  | refl => exact ⟨h, Keeps.refl s⟩
  | tail _ hstep ih =>
    obtain ⟨hheld, hkeeps⟩ := held_step hstep ih.1
    exact ⟨hheld, ih.2.trans hkeeps⟩

/-- The pin of a context is one of the pins. -/
theorem mem_pins_of_pinnedBy {s : Pcre2State} {c e : Nat} (h : PinnedBy s c e) : e ∈ s.pins := by
  obtain ⟨l, hl, he⟩ := h
  exact List.mem_flatMap.mpr ⟨some l, List.mem_of_getElem? hl, he⟩

/-- With nothing loose, the invariant is what is promised. -/
theorem Held.sound {s : Pcre2State} (h : Held s.pins [] s) : s.Sound where
  refcount := h.refcount
  distinct := h.distinct
  slots i e hi := (h.slot i e hi).1
  freedOnce e he := by
    split
    · rename_i hheld
      rcases hheld with ⟨i, hi⟩ | hpin
      · exact (h.slot i e hi).1.2
      · exact (h.pinned e hpin).2
    · rename_i hfree
      rw [not_or] at hfree
      have honce := h.once e
      have hpos : s.frees e ≠ 0 := by
        intro hzero
        rcases h.held e ⟨he, hzero⟩ with hin | hpin | hloose
        · exact hfree.1 (h.cached e ⟨he, hzero⟩ hin)
        · exact hfree.2 hpin
        · nomatch hloose
      omega
  freedUnheld := h.freed
  pinned c e hpin := h.pinned e (mem_pins_of_pinnedBy hpin)

end Pcre2CacheAux

open Pcre2State

/-- In every state that calls and releases lead to, the cache is sound; and an entry that a call returned is pinned by its
context and has, now and in every later state, the flags and the translated pattern that the call asked for. -/
theorem pcre2_cache_sound (env : Pcre2Env) (s : Pcre2State) (hs : Steps env init s) :
    s.Sound ∧ ∀ call c e, call.ctx = some c → s.LiveContext c → (pcre2Compile env s call).2 = .entry e →
      PinnedBy (pcre2Compile env s call).1 c e ∧ ∀ t, Steps env (pcre2Compile env s call).1 t →
        (t.entries e).flags = pcre2CompileFlags env.encoding call.caseInsensitive ∧
        (t.entries e).pattern.map (·.bytes) = env.translate call := by
  have hheld := (held_steps hs held_init).1
  refine ⟨hheld.sound, ?_⟩
  intro call c e hc hctx he
  have hdone := pcre2Compile_done env hheld hc hctx
  obtain ⟨hlt, hkey, hpin⟩ := hdone.entry e he
  refine ⟨hpin, ?_⟩
  intro t ht
  have hlater := ((held_steps ht hdone.held).2.key e hlt).trans hkey
  exact ⟨congrArg Prod.fst hlater, congrArg Prod.snd hlater⟩

namespace Pcre2CacheWitness

/-- A UTF-8 database with deterministic collations, and no raw regex translated. -/
def utf8Env : Pcre2Env := ⟨⟨4, true⟩, fun _ => true, fun _ => false, fun _ _ => none⟩

/-- `LIKE` of a letter and a `%` for a context, everything it calls succeeding. -/
def likeCall (ctx : Nat) (letter : Byte) : Pcre2CompileCall :=
  ⟨some ctx, [letter, 0x25], true, false, 100, fun _ => true, true, true, true, true, true, false, true⟩

/-- There are two contexts, and the first has compiled `'a%'`. -/
def compiled : Pcre2State := (pcre2Compile utf8Env init.createContext.createContext (likeCall 0 0x61)).1

/-- The first context is released. -/
def released : Pcre2State := compiled.releaseContext 0

/-- The second context has compiled `'a%'` too. -/
def hit : Pcre2State := (pcre2Compile utf8Env released (likeCall 1 0x61)).1

/-- And then `'b%'`. -/
def missed : Pcre2State := (pcre2Compile utf8Env hit (likeCall 1 0x62)).1

theorem contexts_compiled : compiled.contexts = [some [0], some []] := by decide +kernel

theorem contexts_hit : hit.contexts = [none, some [0]] := by decide +kernel

theorem liveContext_compiled : compiled.LiveContext 0 := ⟨[0], by rw [contexts_compiled]; rfl⟩

theorem liveContext_released : released.LiveContext 1 := by
  refine ⟨[], ?_⟩
  rw [released, releaseContext, contexts_compiled]
  rfl

theorem liveContext_hit : hit.LiveContext 1 := ⟨[0], by rw [contexts_hit]; rfl⟩

theorem steps_released : Steps utf8Env init released := by
  have hcreated : Steps utf8Env init init.createContext.createContext := (Relation.ReflTransGen.single (.create init)).tail (.create _)
  refine (hcreated.tail (.compile _ (likeCall 0 0x61) fun c hc => ?_)).tail (.release compiled 0 liveContext_compiled)
  obtain rfl := Option.some.inj hc
  exact ⟨[], rfl⟩

theorem steps_missed : Steps utf8Env hit missed := by
  refine .single (.compile hit (likeCall 1 0x62) fun c hc => ?_)
  obtain rfl := Option.some.inj hc
  exact liveContext_hit

/-- The second context is given the entry that the first one has left in the cache, pins it, and still has the regex `^a` in it when another
pattern has been compiled. -/
theorem second_context_hits :
    released.Sound ∧ (pcre2Compile utf8Env released (likeCall 1 0x61)).2 = .entry 0 ∧ PinnedBy hit 1 0 ∧
      (missed.entries 0).pattern.map (·.bytes) = some [0x5e, 0x61] := by
  obtain ⟨hsound, hreturned⟩ := pcre2_cache_sound utf8Env released steps_released
  have hcall : (pcre2Compile utf8Env released (likeCall 1 0x61)).2 = .entry 0 := by decide +kernel
  obtain ⟨hpin, hlater⟩ := hreturned (likeCall 1 0x61) 1 0 rfl liveContext_released hcall
  exact ⟨hsound, hcall, hpin, (hlater missed steps_missed).2.trans (by decide +kernel)⟩

end Pcre2CacheWitness

end PgJitter
