import PgJitter.LikeRegex
import Mathlib.Logic.Function.Basic
import Mathlib.Logic.Relation
import Mathlib.Data.List.FinRange

/-!
# The PCRE2 pattern cache

`pg_jitter_pcre2_compile` and the cache behind it (`src/pg_jitter_pcre2.c`), with the part of a JIT context that owns pins
(`pg_jitter_register_compiled`, `pg_jitter_release_context` in `src/pg_jitter_common.c`).

An entry is a number that is given out once, so a number that comes back can not hide a use after free. The contents of an entry
stay in `entries` when it is freed, as they do in memory; what was freed is in the log `freed`. What a call has no say in (which
allocations succeed, which PCRE2 calls do) is part of the call.
-/

namespace PgJitter

/-! ## Entries and the state of the process -/

/-- `PCRE2_CACHE_SIZE`. -/
def pcre2CacheSize : Nat := 64

/-- `PCRE2_MAX_PATTERN_BYTES`. -/
def pcre2MaxPatternBytes : Nat := 65536

/-- A translated pattern in memory: the object and the bytes it holds. -/
structure Pcre2Pattern where
  object : Nat
  bytes : List Byte
  deriving DecidableEq, Repr

/-- `Pcre2CacheEntry`. The fields that point to PCRE2 objects hold the number of the object. -/
structure Pcre2CacheEntry where
  /-- `pattern` and `pattern_len`. -/
  pattern : Option Pcre2Pattern
  flags : Pcre2Flags
  code : Option Nat
  matchData : Option Nat
  matchContext : Option Nat
  jitStack : Option Nat
  jitFast : Option Nat
  refcount : Int
  inCache : Bool
  lruCounter : UInt64
  deriving DecidableEq, Repr

/-- An entry as `MCXT_ALLOC_ZERO` leaves it. -/
def Pcre2CacheEntry.zero : Pcre2CacheEntry :=
  ⟨none, ⟨false, false, false, false⟩, none, none, none, none, none, 0, false, 0⟩

/-- What `pg_jitter_pcre2_free_entry` frees before the entry, in its order. -/
def Pcre2CacheEntry.objects (entry : Pcre2CacheEntry) : List Nat :=
  [entry.jitFast, entry.matchContext, entry.jitStack, entry.matchData, entry.code, entry.pattern.map (·.object)].filterMap id

/-- What is looked for in the cache: the flags and the bytes of the pattern. -/
def Pcre2CacheEntry.key (entry : Pcre2CacheEntry) : Pcre2Flags × Option (List Byte) :=
  (entry.flags, entry.pattern.map (·.bytes))

/-- One `pfree` of an entry, with what held of the entry at that moment. -/
structure FreedEntry where
  entry : Nat
  refcount : Int
  inCache : Bool
  /-- A slot of the cache pointed to it. -/
  inSlot : Bool
  deriving DecidableEq, Repr

/-- The memory that the cache lives in. -/
structure Pcre2State where
  entries : Nat → Pcre2CacheEntry
  nextEntry : Nat
  freed : List FreedEntry
  /-- The live objects that are not entries: pattern strings and PCRE2 objects. -/
  objects : List Nat
  nextObject : Nat
  /-- `pcre2_cache`. -/
  cache : Fin pcre2CacheSize → Option Nat
  /-- `pcre2_lru_clock`. -/
  lruClock : UInt64
  /-- `pg_jitter_pcre2_compile_counter`. -/
  compileCounter : UInt64
  /-- The contexts created so far: the pins in `compiled_list`, or `none` once released. -/
  contexts : List (Option (List Nat))

namespace Pcre2State

/-- The process before its first context. -/
def init : Pcre2State := ⟨fun _ => .zero, 0, [], [], 0, fun _ => none, 0, 0, []⟩

/-- Change the entry that a pointer points to. -/
def modify (s : Pcre2State) (e : Nat) (f : Pcre2CacheEntry → Pcre2CacheEntry) : Pcre2State :=
  { s with entries := Function.update s.entries e (f (s.entries e)) }

/-- `pcre2_cache[slot] = p`. -/
def setSlot (s : Pcre2State) (slot : Fin pcre2CacheSize) (p : Option Nat) : Pcre2State :=
  { s with cache := Function.update s.cache slot p }

/-- An object of PCRE2, or a pattern string. -/
def allocObject (s : Pcre2State) : Nat × Pcre2State :=
  (s.nextObject, { s with objects := s.nextObject :: s.objects, nextObject := s.nextObject + 1 })

/-- An object that may not come to be. -/
def allocIf (s : Pcre2State) (ok : Bool) : Option Nat × Pcre2State :=
  if ok then (some s.allocObject.1, s.allocObject.2) else (none, s)

/-- Free such an object. -/
def freeObject (s : Pcre2State) (o : Nat) : Pcre2State := { s with objects := s.objects.erase o }

/-- The zeroed entry of a miss. -/
def allocEntry (s : Pcre2State) : Nat × Pcre2State :=
  (s.nextEntry, { s with entries := Function.update s.entries s.nextEntry .zero, nextEntry := s.nextEntry + 1 })

/-- `pfree(entry)`. -/
def pfreeEntry (s : Pcre2State) (e : Nat) : Pcre2State :=
  { s with freed := ⟨e, (s.entries e).refcount, (s.entries e).inCache, decide (∃ i, s.cache i = some e)⟩ :: s.freed }

/-! ## Pins -/

/-- `pg_jitter_pcre2_free_entry`. -/
def freeEntry (s : Pcre2State) (e : Nat) : Pcre2State := ((s.entries e).objects.foldl freeObject s).pfreeEntry e

/-- `pg_jitter_pcre2_unpin_entry`. -/
def unpinEntry (s : Pcre2State) (e : Nat) : Pcre2State :=
  let s := s.modify e fun entry => { entry with refcount := entry.refcount - 1 }
  if (s.entries e).refcount = 0 ∧ (s.entries e).inCache = false then s.freeEntry e else s

/-- `pg_jitter_register_compiled`: `none` is the error its allocation reports. -/
def registerCompiled (s : Pcre2State) (ctx e : Nat) (allocOk : Bool) : Option Pcre2State :=
  if allocOk then some { s with contexts := s.contexts.modify ctx (Option.map (e :: ·)) } else none

/-- `pg_jitter_pcre2_pin_entry`: `none` is an error thrown out of it. -/
def pinEntry (s : Pcre2State) (ctx : Option Nat) (e : Nat) (allocOk : Bool) : Option (Bool × Pcre2State) :=
  match ctx with
  | none => some (false, s)
  | some c =>
    (s.registerCompiled c e allocOk).map fun s =>
      (true, s.modify e fun entry => { entry with refcount := entry.refcount + 1 })

/-- Take an entry out of the cache again and free it, as both failing ends of `pg_jitter_pcre2_publish_and_pin_entry` do. -/
def withdraw (s : Pcre2State) (slot : Fin pcre2CacheSize) (e : Nat) : Pcre2State :=
  let s := if s.cache slot = some e then s.setSlot slot none else s
  (s.modify e fun entry => { entry with inCache := false }).freeEntry e

/-- Put an entry into a slot, as the newest one. -/
def publish (s : Pcre2State) (slot : Fin pcre2CacheSize) (e : Nat) : Pcre2State :=
  let s := { s with lruClock := s.lruClock + 1 }
  (s.modify e fun entry => { entry with inCache := true, lruCounter := s.lruClock }).setSlot slot (some e)

/-- `pg_jitter_pcre2_publish_and_pin_entry`: `none` is the error it throws on. -/
def publishAndPinEntry (s : Pcre2State) (ctx : Option Nat) (slot : Fin pcre2CacheSize) (e : Nat) (allocOk : Bool) :
    Option Bool × Pcre2State :=
  let s := s.publish slot e
  match s.pinEntry ctx e allocOk with
  | none => (none, s.withdraw slot e)
  | some (true, s) => (some true, s)
  | some (false, s) => (some false, s.withdraw slot e)

/-! ## Slots -/

/-- The oldest entry of one kind seen so far: its slot and its `lru_counter`. -/
abbrev Oldest := Option (Fin pcre2CacheSize × UInt64)

/-- Keep the older of what was seen and this slot. -/
def Oldest.note (o : Oldest) (slot : Fin pcre2CacheSize) (lruCounter : UInt64) : Oldest :=
  match o with
  | none => some (slot, lruCounter)
  | some (other, oldest) => if lruCounter < oldest then some (slot, lruCounter) else some (other, oldest)

/-- The loop of `pg_jitter_pcre2_choose_slot` over the slots that are left. -/
def chooseLoop (s : Pcre2State) : List (Fin pcre2CacheSize) → (unpinned pinned : Oldest) → Option (Fin pcre2CacheSize)
  | [], unpinned, pinned =>
    match unpinned with
    | some (slot, _) => some slot
    | none => pinned.map (·.1)
  | i :: rest, unpinned, pinned =>
    match s.cache i with
    | none => some i
    | some e =>
      if (s.entries e).refcount = 0 then s.chooseLoop rest (unpinned.note i (s.entries e).lruCounter) pinned
      else s.chooseLoop rest unpinned (pinned.note i (s.entries e).lruCounter)

/-- `pg_jitter_pcre2_choose_slot`; `none` is `-1`. -/
def chooseSlot (s : Pcre2State) : Option (Fin pcre2CacheSize) := s.chooseLoop (List.finRange pcre2CacheSize) none none

/-- `pg_jitter_pcre2_evict_slot`. -/
def evictSlot (s : Pcre2State) (slot : Fin pcre2CacheSize) : Pcre2State :=
  match s.cache slot with
  | none => s
  | some e =>
    let s := (s.modify e fun entry => { entry with inCache := false }).setSlot slot none
    if (s.entries e).refcount = 0 then s.freeEntry e else s

/-- The scan for a cached entry: the first slot whose entry has these flags and this pattern. -/
def findCached (s : Pcre2State) (flags : Pcre2Flags) (regex : List Byte) : Option Nat :=
  (List.finRange pcre2CacheSize).findSome? fun i =>
    match s.cache i with
    | none => none
    | some e => if (s.entries e).key = (flags, some regex) then some e else none

end Pcre2State

/-! ## Compiling a pattern -/

/-- What does not change while the process runs. -/
structure Pcre2Env where
  /-- `GetDatabaseEncoding()` and `pg_database_encoding_max_length()`. -/
  encoding : DatabaseEncoding
  /-- `pg_jitter_collation_is_deterministic`. -/
  collationIsDeterministic : Nat → Bool
  /-- `pg_jitter_collation_is_c`. -/
  collationIsC : Nat → Bool
  /-- `raw_regex_to_pcre2`, given which allocations succeed. -/
  rawRegexToPcre2 : (Nat → Bool) → List Byte → Option (List Byte)

/-- One call of `pg_jitter_pcre2_compile`: its arguments, and how what it calls turns out. -/
structure Pcre2CompileCall where
  ctx : Option Nat
  /-- `pattern` and `patlen`. -/
  pattern : List Byte
  isLike : Bool
  caseInsensitive : Bool
  collid : Nat
  /-- The allocations of the translation. -/
  alloc : Nat → Bool
  /-- The allocation of the entry. -/
  entryOk : Bool
  /-- `pcre2_compile`. -/
  codeOk : Bool
  /-- `pcre2_match_data_create_from_pattern`. -/
  matchDataOk : Bool
  /-- `pcre2_jit_stack_create`. -/
  jitStackOk : Bool
  /-- `pg_jitter_pcre2_create_match_context`. -/
  matchContextOk : Bool
  /-- `pcre2_jit_fast_context_create`; `false` as well where the fast API is not built in. -/
  jitFastOk : Bool
  /-- The allocation of the cleanup record, which reports an error when it fails. -/
  registerOk : Bool

/-- How a call ends. -/
inductive Pcre2Compiled where
  | null
  | entry (e : Nat)
  /-- An error is thrown. -/
  | error
  deriving DecidableEq, Repr

/-- `pg_jitter_pcre2_is_eligible`. -/
def Pcre2Env.isEligible (env : Pcre2Env) (collid : Nat) (isLike caseInsensitive : Bool) : Bool :=
  if env.collationIsDeterministic collid = false then false
  else if env.encoding.isUtf8 then
    if caseInsensitive then false
    else if isLike then true
    else env.collationIsC collid
  else if env.encoding.maxLength ≠ 1 then false
  else if isLike && !caseInsensitive then true
  else env.collationIsC collid

/-- The conversion a call asks for. -/
def Pcre2Env.translate (env : Pcre2Env) (call : Pcre2CompileCall) : Option (List Byte) :=
  if call.isLike then likeToRegex call.alloc call.pattern else env.rawRegexToPcre2 call.alloc call.pattern

namespace Pcre2State

/-- The lookup found an entry; `regexObj` is the string it was looked up with. -/
def compileHit (s : Pcre2State) (call : Pcre2CompileCall) (regexObj e : Nat) : Pcre2State × Pcre2Compiled :=
  let s := { s with lruClock := s.lruClock + 1 }
  let s := s.modify e fun entry => { entry with lruCounter := s.lruClock }
  let s := s.freeObject regexObj
  match s.pinEntry call.ctx e call.registerOk with
  | none => (s, .error)
  | some (false, s) => (s, .null)
  | some (true, s) => ({ s with compileCounter := s.compileCounter + 1 }, .entry e)

/-- The end of a miss: the objects are made, and a slot is chosen and empty. -/
def installEntry (s : Pcre2State) (call : Pcre2CompileCall) (slot : Fin pcre2CacheSize) (pattern : Pcre2Pattern)
    (flags : Pcre2Flags) (e code matchData : Nat) : Pcre2State × Pcre2Compiled :=
  let (jitStack, s) := s.allocIf call.jitStackOk
  let s := s.modify e fun entry =>
    { entry with pattern := some pattern, flags, code := some code, matchData := some matchData, matchContext := none,
                 jitStack, jitFast := none }
  if call.matchContextOk = false then
    let s := match jitStack with
      | some o => (s.freeObject o).modify e fun entry => { entry with jitStack := none }
      | none => s
    ((((s.freeObject matchData).freeObject code).pfreeEntry e).freeObject pattern.object, .null)
  else
    let (matchContext, s) := s.allocObject
    let s := s.modify e fun entry => { entry with matchContext := some matchContext }
    let (jitFast, s) := s.allocIf (jitStack.isSome && call.jitFastOk)
    let s := s.modify e fun entry => { entry with jitFast }
    match s.publishAndPinEntry call.ctx slot e call.registerOk with
    | (none, s) => (s, .error)
    | (some false, s) => (s, .null)
    | (some true, s) => ({ s with compileCounter := s.compileCounter + 1 }, .entry e)

/-- The lookup found nothing. -/
def compileMiss (s : Pcre2State) (call : Pcre2CompileCall) (pattern : Pcre2Pattern) (flags : Pcre2Flags) :
    Pcre2State × Pcre2Compiled :=
  if call.entryOk = false then (s.freeObject pattern.object, .null)
  else
    let (e, s) := s.allocEntry
    if call.codeOk = false then ((s.pfreeEntry e).freeObject pattern.object, .null)
    else
      let (code, s) := s.allocObject
      if call.matchDataOk = false then (((s.freeObject code).pfreeEntry e).freeObject pattern.object, .null)
      else
        let (matchData, s) := s.allocObject
        match s.chooseSlot with
        | none => ((((s.freeObject matchData).freeObject code).pfreeEntry e).freeObject pattern.object, .null)
        | some slot => (s.evictSlot slot).installEntry call slot pattern flags e code matchData

/-- `pg_jitter_pcre2_compile`. -/
def pcre2Compile (env : Pcre2Env) (s : Pcre2State) (call : Pcre2CompileCall) : Pcre2State × Pcre2Compiled :=
  if call.ctx = none then (s, .null)
  else if env.isEligible call.collid call.isLike call.caseInsensitive = false then (s, .null)
  else if call.pattern.length > pcre2MaxPatternBytes then (s, .null)
  else
    let flags := pcre2CompileFlags env.encoding call.caseInsensitive
    match env.translate call with
    | none => (s, .null)
    | some regex =>
      let (regexObj, s) := s.allocObject
      if regex.length > pcre2MaxPatternBytes then (s.freeObject regexObj, .null)
      else
        match s.findCached flags regex with
        | some e => s.compileHit call regexObj e
        | none => s.compileMiss call ⟨regexObj, regex⟩ flags

/-! ## Contexts -/

/-- A new context owns nothing. -/
def createContext (s : Pcre2State) : Pcre2State := { s with contexts := s.contexts ++ [some []] }

/-- The walk of `pg_jitter_release_context` over the pins in `compiled_list`. -/
def releaseContext (s : Pcre2State) (ctx : Nat) : Pcre2State :=
  match s.contexts[ctx]? with
  | some (some compiledList) =>
    let s := compiledList.foldl unpinEntry s
    { s with contexts := s.contexts.set ctx none }
  | _ => s

/-- The context is created and not released yet. -/
def LiveContext (s : Pcre2State) (ctx : Nat) : Prop := ∃ compiledList, s.contexts[ctx]? = some (some compiledList)

/-- One thing that happens to the cache; a context that a call names is alive. -/
inductive Step (env : Pcre2Env) : Pcre2State → Pcre2State → Prop where
  | create (s : Pcre2State) : Step env s s.createContext
  | compile (s : Pcre2State) (call : Pcre2CompileCall) (hctx : ∀ c, call.ctx = some c → s.LiveContext c) :
      Step env s (pcre2Compile env s call).1
  | release (s : Pcre2State) (ctx : Nat) (hctx : s.LiveContext ctx) : Step env s (s.releaseContext ctx)

/-- Some sequence of steps leads from one state to the other. -/
def Steps (env : Pcre2Env) : Pcre2State → Pcre2State → Prop := Relation.ReflTransGen (Step env)

/-! ## What is said about the states -/

/-- The pins of the live contexts, with repetitions. -/
def pins (s : Pcre2State) : List Nat := s.contexts.flatMap (·.getD [])

/-- How often an entry was freed. -/
def frees (s : Pcre2State) (e : Nat) : Nat := s.freed.countP (·.entry == e)

/-- The entry is allocated and not freed. -/
def Live (s : Pcre2State) (e : Nat) : Prop := e < s.nextEntry ∧ s.frees e = 0

end Pcre2State

end PgJitter
