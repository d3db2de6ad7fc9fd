import PgJitter.HashedSaop
import PgJitter.Lib.KeyedArray
import Mathlib.Algebra.Order.Field.Rat

/-!
# Adaptive selection of a backend

The meta provider's statistics (`src/pg_jitter_meta.c`): what a compilation, a timed execution and the release of a context do to the
table of profiles, and how `adaptive_select` chooses a backend by it.

What an event has no say in (clocks, random numbers, which backends load) is part of the event. The settings may change between two events.
-/

namespace PgJitter

/-! ## Profiles -/

/-- The backends, in the order of their enum and of the adaptive indices, so `adaptive_backend_to_idx` and `adaptive_idx_to_backend` leave
them. -/
inductive MetaBackend where
  | sljit
  | asmjit
  | mir
  deriving DecidableEq, Repr

/-- The indices below `ADAPTIVE_NUM_BACKENDS`. -/
def MetaBackend.all : List MetaBackend := [.sljit, .asmjit, .mir]

/-- `ExprProfile`. -/
structure ExprProfile where
  nsteps : BitVec 16
  fetchsomeNatts : BitVec 16
  nHashdatum : BitVec 8
  nFuncexpr : BitVec 8
  nQual : BitVec 8
  nAgg : BitVec 8
  deriving DecidableEq, Repr

/-- `empty_profile`. -/
def ExprProfile.empty : ExprProfile := ⟨0, 0, 0, 0, 0, 0⟩

/-- What `meta_build_profile` tells apart. -/
inductive ProfiledStep where
  /-- `EEOP_INNER_FETCHSOME`, `EEOP_OUTER_FETCHSOME`, `EEOP_SCAN_FETCHSOME`. -/
  | fetchsome (lastVar : Nat)
  /-- `EEOP_HASHDATUM_...`. -/
  | hashdatum
  /-- `EEOP_FUNCEXPR`, `EEOP_FUNCEXPR_STRICT`, `EEOP_FUNCEXPR_FUSAGE`, `EEOP_FUNCEXPR_STRICT_FUSAGE`. -/
  | funcexpr
  | qual
  /-- `EEOP_AGG_PLAIN_TRANS_BYVAL`, `EEOP_AGG_PLAIN_TRANS_STRICT_BYVAL`. -/
  | aggPlainTransByval
  | other
  deriving DecidableEq, Repr

/-- Count a step. -/
def ExprProfile.count (p : ExprProfile) : ProfiledStep → ExprProfile
  | .fetchsome lastVar => { p with fetchsomeNatts := p.fetchsomeNatts + BitVec.ofNat 16 lastVar }
  | .hashdatum => { p with nHashdatum := p.nHashdatum + 1 }
  | .funcexpr => { p with nFuncexpr := p.nFuncexpr + 1 }
  | .qual => { p with nQual := p.nQual + 1 }
  | .aggPlainTransByval => { p with nAgg := p.nAgg + 1 }
  | .other => p

/-- `meta_build_profile`. -/
def metaBuildProfile (steps : List ProfiledStep) : ExprProfile :=
  steps.foldl ExprProfile.count { ExprProfile.empty with nsteps := BitVec.ofNat 16 (min steps.length 65535) }

/-- The bytes of a profile in memory. -/
def ExprProfile.bytes (p : ExprProfile) : List (BitVec 8) :=
  [p.nsteps.setWidth 8, (p.nsteps >>> 8).setWidth 8, p.fetchsomeNatts.setWidth 8, (p.fetchsomeNatts >>> 8).setWidth 8, p.nHashdatum,
    p.nFuncexpr, p.nQual, p.nAgg]

/-- `meta_profile_hash`: `INIT_CRC32C`, `COMP_CRC32C`, `FIN_CRC32C`. -/
def metaProfileHash (p : ExprProfile) : BitVec 32 := crc32cSwRaw 0xFFFFFFFF p.bytes ^^^ 0xFFFFFFFF

/-! ## The table -/

/-- `AdaptiveStatsEntry`. The six fields of the profile are set once, together. -/
structure AdaptiveStatsEntry where
  profileHash : BitVec 32
  profile : ExprProfile
  callCount : MetaBackend → BitVec 32
  compileNs : MetaBackend → BitVec 64
  execNs : MetaBackend → BitVec 64

/-- An entry of zeros. -/
def AdaptiveStatsEntry.zero : AdaptiveStatsEntry := ⟨0, .empty, fun _ => 0, fun _ => 0, fun _ => 0⟩

/-- A sample of a backend: times that are not positive are not added. -/
def AdaptiveStatsEntry.add (e : AdaptiveStatsEntry) (b : MetaBackend) (compileNs execNs : BitVec 64) (callCount : Nat) :
    AdaptiveStatsEntry :=
  { e with
    callCount := Function.update e.callCount b (e.callCount b + BitVec.ofNat 32 callCount)
    compileNs := if 0 < compileNs.toInt then Function.update e.compileNs b (e.compileNs b + compileNs) else e.compileNs
    execNs := if 0 < execNs.toInt then Function.update e.execNs b (e.execNs b + execNs) else e.execNs }

/-- `AdaptiveStatsTable`. -/
structure AdaptiveStatsTable where
  numEntries : Nat
  maxEntries : Nat
  entries : Nat → AdaptiveStatsEntry

namespace AdaptiveStatsTable

/-- `adaptive_stats_init`: `ADAPTIVE_STATS_MAX_ENTRIES` entries of zeros. -/
def init : AdaptiveStatsTable := ⟨0, 256, fun _ => .zero⟩

variable (t : AdaptiveStatsTable)

/-- `adaptive_stats_lookup`; `none` is -1. -/
def adaptiveStatsLookup (profileHash : BitVec 32) : Option Nat :=
  KeyedArray.lookup AdaptiveStatsEntry.profileHash t.entries t.numEntries profileHash

/-- `adaptive_stats_insert`. -/
def adaptiveStatsInsert (profileHash : BitVec 32) (profile : ExprProfile) : Option Nat × AdaptiveStatsTable :=
  match t.adaptiveStatsLookup profileHash with
  | some existing => (some existing, t)
  | none =>
    if t.maxEntries ≤ t.numEntries then (none, t)
    else
      (some t.numEntries,
        { t with
          numEntries := t.numEntries + 1
          entries := Function.update t.entries t.numEntries { t.entries t.numEntries with profileHash, profile } })

/-- Change an entry. -/
def modify (slot : Nat) (f : AdaptiveStatsEntry → AdaptiveStatsEntry) : AdaptiveStatsTable :=
  { t with entries := Function.update t.entries slot (f (t.entries slot)) }

/-- `adaptive_stats_record`; `profile` may be `NULL`. -/
def adaptiveStatsRecord (profileHash : BitVec 32) (b : MetaBackend) (compileNs execNs : BitVec 64) (callCount : Nat)
    (profile : Option ExprProfile) : AdaptiveStatsTable :=
  match t.adaptiveStatsLookup profileHash with
  | some slot => t.modify slot fun e => e.add b compileNs execNs callCount
  | none =>
    match t.adaptiveStatsInsert profileHash (profile.getD .empty) with
    | (some slot, t) => t.modify slot fun e => e.add b compileNs execNs callCount
    | (none, t) => t

/-- The entries of `pg_jitter_adaptive_stats_reset`. -/
def reset : AdaptiveStatsTable :=
  { t with numEntries := 0, entries := fun i => if i < t.numEntries then .zero else t.entries i }

end AdaptiveStatsTable

/-! ## Selection -/

/-- The settings: `pg_jitter.backend` (`none` for `auto`), `pg_jitter.adaptive`, `pg_jitter.adaptive_samples`, and of
`pg_jitter.adaptive_epsilon` for which `n` the comparison `(double) n / 10000.0 < meta_adaptive_epsilon` holds. -/
structure MetaSettings where
  backend : Option MetaBackend
  adaptive : Bool
  adaptiveSamples : Nat
  belowEpsilon : Nat → Bool
  samplesRange : 4 ≤ adaptiveSamples ∧ adaptiveSamples ≤ 10000

/-- A natural number as the nearest `double`, the even one of two: 53 bits are kept. -/
def roundDouble (n : Nat) : Nat :=
  let k := n.log2 + 1 - 53
  let q := n / 2 ^ k
  let r := n % 2 ^ k
  if 2 ^ k < 2 * r ∨ (2 ^ k = 2 * r ∧ q % 2 = 1) then (q + 1) * 2 ^ k else q * 2 ^ k

/-- `(double) comp + (double) exec`. -/
def AdaptiveStatsEntry.totalCost (e : AdaptiveStatsEntry) (b : MetaBackend) : Nat :=
  roundDouble (roundDouble (e.compileNs b).toNat + roundDouble (e.execNs b).toNat)

/-- The backend has been called often enough. -/
def AdaptiveStatsEntry.measured (e : AdaptiveStatsEntry) (samples : Nat) (b : MetaBackend) : Bool :=
  decide (samples ≤ (e.callCount b).toNat)

/-- The loop for the lowest total cost over the backends that are left: the first of the measured ones. -/
def AdaptiveStatsEntry.bestLoop (e : AdaptiveStatsEntry) (samples : Nat) : List MetaBackend → MetaBackend → MetaBackend
  | [], best => best
  | b :: rest, best =>
    if e.measured samples b = true ∧ e.totalCost b < e.totalCost best then e.bestLoop samples rest b else e.bestLoop samples rest best

/-- The table has data enough of a backend for a profile. -/
def AdaptiveStatsTable.enough (t : AdaptiveStatsTable) (samples : Nat) (profileHash : BitVec 32) (b : MetaBackend) : Bool :=
  match t.adaptiveStatsLookup profileHash with
  | some slot => (t.entries slot).measured samples b
  | none => false

/-- One of the candidates by a random number. -/
def pickBackend (candidates : List MetaBackend) (n : Nat) : Option MetaBackend := candidates[n % candidates.length]?

/-- `adaptive_select`; `none` is -1. The random number is drawn at most once. -/
def adaptiveSelect (settings : MetaSettings) (available : MetaBackend → Bool) (stats : Option AdaptiveStatsTable) (profileHash : BitVec 32)
    (rand : BitVec 32) : Option MetaBackend :=
  match stats with
  | none => none
  | some t =>
    match t.adaptiveStatsLookup profileHash with
    | none => none
    | some slot =>
      let e := t.entries slot
      let measured := e.measured settings.adaptiveSamples
      if measured .sljit = false ∨ (MetaBackend.all.filter measured).length < 2 then
        -- data for the primary backend alone: try one that was never called
        if e.callCount .sljit ≠ 0 ∧ rand.toNat % 64 = 0 then
          pickBackend (MetaBackend.all.filter fun b => e.callCount b == 0 && available b) (rand.toNat / 64)
        else none
      else
        let best := e.bestLoop settings.adaptiveSamples MetaBackend.all .sljit
        if settings.belowEpsilon (rand.toNat % 10000) then
          (pickBackend (MetaBackend.all.filter fun b => b != best && measured b) (rand.toNat / 10000)).or (some best)
        else some best

/-- `meta_default_backend`. -/
def metaDefaultBackend (available : MetaBackend → Bool) : MetaBackend :=
  if available .sljit then .sljit else if available .asmjit then .asmjit else if available .mir then .mir else .sljit

/-- `meta_auto_select_backend`, for a profile; `wideNatts` is 10 on ARM64 and 20 elsewhere. -/
def metaAutoSelectBackend (settings : MetaSettings) (wideNatts : Nat) (available : MetaBackend → Bool) (stats : Option AdaptiveStatsTable)
    (profile : ExprProfile) (rand : BitVec 32) : MetaBackend :=
  let selected :=
    if available .asmjit then
      if 0 < profile.nHashdatum.toNat ∧ 0 < profile.fetchsomeNatts.toNat then .asmjit
      else if wideNatts ≤ profile.fetchsomeNatts.toNat ∧ profile.nsteps.toNat < profile.fetchsomeNatts.toNat * 3 then .asmjit
      else .sljit
    else metaDefaultBackend available
  if settings.adaptive then
    match adaptiveSelect settings available stats (metaProfileHash profile) rand with
    | some choice => if available choice then choice else selected
    | none => selected
  else selected

/-! ## The provider -/

/-- `AdaptiveTimingCtx`. -/
structure AdaptiveTimingCtx where
  profileHash : BitVec 32
  profile : ExprProfile
  backendIdx : MetaBackend
  callCount : Nat
  execNs : BitVec 64
  compileNs : BitVec 64
  done : Bool
  deriving DecidableEq, Repr

/-- The provider: its table, and of each JIT context the timing contexts that are active (`adaptive_timings`). -/
structure MetaState where
  stats : Option AdaptiveStatsTable
  timings : Nat → List AdaptiveTimingCtx

/-- A call of `meta_compile_expr`: the JIT context of the parent (`none` without a parent), the steps, and how what it calls turns out. -/
structure MetaCompile where
  ctx : Option Nat
  steps : List ProfiledStep
  wideNatts : Nat
  /-- `backends[..].available` and the results of `meta_load_backend`. -/
  available : MetaBackend → Bool
  loads : MetaBackend → Bool
  rand : BitVec 32
  /-- What `compile_expr` returns, and whether `evalfunc` is set then. -/
  ok : Bool
  evalfunc : Bool
  /-- The time between the two readings of the clock. -/
  compileNs : BitVec 64

namespace MetaState

/-- The provider before its first event. -/
def init : MetaState := ⟨none, fun _ => []⟩

variable (s : MetaState)

/-- The table, created when there is none. -/
def statsInit : MetaState := { s with stats := some (s.stats.getD .init) }

/-- `meta_install_timing_wrapper`. -/
def metaInstallTimingWrapper (settings : MetaSettings) (c : MetaCompile) (b : MetaBackend) (profileHash : BitVec 32)
    (profile : ExprProfile) :
    MetaState :=
  match c.ctx, s.stats with
  | some ctx, some t =>
    if c.evalfunc = false then s
    else
      if t.enough settings.adaptiveSamples profileHash b then s
      else
        { s with
          timings := Function.update s.timings ctx
            ({ profileHash, profile, backendIdx := b, callCount := 0, execNs := 0, compileNs := c.compileNs, done := false } ::
              s.timings ctx) }
  | _, _ => s

/-- `meta_compile_expr`, as far as the statistics go: in `auto` mode the table is created, a backend is selected, and when it compiles the
expression the wrapper is installed. -/
def metaCompileExpr (settings : MetaSettings) (c : MetaCompile) : MetaState :=
  match settings.backend with
  | some _ => s
  | none =>
    let s := if settings.adaptive then s.statsInit else s
    let profile := metaBuildProfile c.steps
    let b := metaAutoSelectBackend settings c.wideNatts c.available s.stats profile c.rand
    if c.loads b && c.ok && settings.adaptive then s.metaInstallTimingWrapper settings c b (metaProfileHash profile) profile else s

/-- `meta_adaptive_timing_wrapper`, for the timing context at a place of the list of a JIT context: the call took `elapsed`. -/
def metaAdaptiveTimingWrapper (settings : MetaSettings) (ctx pos : Nat) (elapsed : BitVec 64) : MetaState :=
  match (s.timings ctx)[pos]? with
  | none => s
  | some tctx =>
    if tctx.done then s
    else
      let tctx := { tctx with callCount := tctx.callCount + 1, execNs := tctx.execNs + elapsed }
      if settings.adaptiveSamples ≤ tctx.callCount then
        { stats := s.stats.map fun t => t.adaptiveStatsRecord tctx.profileHash tctx.backendIdx tctx.compileNs tctx.execNs tctx.callCount
            (some tctx.profile)
          timings := Function.update s.timings ctx ((s.timings ctx).set pos { tctx with done := true }) }
      else { s with timings := Function.update s.timings ctx ((s.timings ctx).set pos tctx) }

/-- The flush of a timing context that is not done. -/
def flushTiming (t : AdaptiveStatsTable) (tctx : AdaptiveTimingCtx) : AdaptiveStatsTable :=
  if tctx.done = false ∧ 0 < tctx.callCount then
    t.adaptiveStatsRecord tctx.profileHash tctx.backendIdx tctx.compileNs tctx.execNs tctx.callCount none
  else t

/-- `meta_release_context`, as far as the statistics go. -/
def metaReleaseContext (ctx : Nat) : MetaState :=
  { stats := s.stats.map fun t => (s.timings ctx).foldl flushTiming t, timings := Function.update s.timings ctx [] }

/-- `pg_jitter_adaptive_stats_reset`. -/
def adaptiveStatsReset : MetaState := { s with stats := some (s.stats.getD .init).reset }

end MetaState

/-- What happens to the provider. -/
inductive MetaEvent where
  | compile (settings : MetaSettings) (c : MetaCompile)
  | call (settings : MetaSettings) (ctx pos : Nat) (elapsed : BitVec 64)
  | release (ctx : Nat)
  | reset

namespace MetaState

/-- One event. -/
def step (s : MetaState) : MetaEvent → MetaState
  | .compile settings c => s.metaCompileExpr settings c
  | .call settings ctx pos elapsed => s.metaAdaptiveTimingWrapper settings ctx pos elapsed
  | .release ctx => s.metaReleaseContext ctx
  | .reset => s.adaptiveStatsReset

/-- A run. -/
def run (s : MetaState) (events : List MetaEvent) : MetaState := events.foldl step s

end MetaState

/-! ## What is said about the table -/

/-- The hashes of the entries are different, and there is room for the entries. -/
structure AdaptiveStatsTable.Keyed (t : AdaptiveStatsTable) : Prop where
  distinct : ∀ i j, i < t.numEntries → j < t.numEntries → (t.entries i).profileHash = (t.entries j).profileHash → i = j
  bounded : t.numEntries ≤ t.maxEntries

/-- The profile of every entry has the hash of the entry. -/
def AdaptiveStatsTable.ProfilesMatch (t : AdaptiveStatsTable) : Prop :=
  ∀ i < t.numEntries, metaProfileHash (t.entries i).profile = (t.entries i).profileHash

/-- A flush of a timing context that is not done would make no entry: there is one for its hash, or no room. -/
def AdaptiveStatsTable.Flushable (t : AdaptiveStatsTable) (tctx : AdaptiveTimingCtx) : Prop :=
  tctx.done = false → 0 < tctx.callCount →
    (∃ i < t.numEntries, (t.entries i).profileHash = tctx.profileHash) ∨ t.maxEntries ≤ t.numEntries

namespace MetaState

/-- A release makes no entry; any other event may. -/
def ReleaseFlushable (s : MetaState) : MetaEvent → Prop
  | .release ctx => ∀ t, s.stats = some t → ∀ tctx ∈ s.timings ctx, t.Flushable tctx
  | _ => True

/-- So in every step of a run. -/
def RunFlushable : MetaState → List MetaEvent → Prop
  | _, [] => True
  | s, event :: events => s.ReleaseFlushable event ∧ (s.step event).RunFlushable events

end MetaState

/-! ## What is said about a selection -/

/-- The index of a backend. -/
def MetaBackend.index : MetaBackend → Nat
  | .sljit => 0
  | .asmjit => 1
  | .mir => 2

namespace AdaptiveStatsEntry

variable (e : AdaptiveStatsEntry)

/-- The execution time of a backend per call. -/
def nsPerCall (b : MetaBackend) : ℚ := (e.execNs b).toNat / (e.callCount b).toNat

/-- A backend took less time to compile and takes less time per call. -/
def Dominates (b a : MetaBackend) : Prop := (e.compileNs b).toNat < (e.compileNs a).toNat ∧ e.nsPerCall b < e.nsPerCall a

/-- A backend has a smaller total cost, or the same and a smaller index. -/
def Cheaper (b a : MetaBackend) : Prop := e.totalCost b < e.totalCost a ∨ (e.totalCost b = e.totalCost a ∧ b.index < a.index)

end AdaptiveStatsEntry

/-- The entry of a profile, if the table has one. -/
def adaptiveEntry (stats : Option AdaptiveStatsTable) (profileHash : BitVec 32) : Option AdaptiveStatsEntry :=
  stats.bind fun t => (t.adaptiveStatsLookup profileHash).map t.entries

end PgJitter
