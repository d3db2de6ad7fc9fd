import PgJitter.DeformLoop

/-!
# Which deform function a dispatch runs

`pg_jitter_compiled_deform_dispatch` with its caches, `pg_jitter_deform_dispatch_reset_fastpath`, and the part of
`pg_jitter_compile_shared_deform`, `pg_jitter_attach_shared_deform` and `pg_jitter_reset_shared_deform` that these read
(`src/pg_jitter_deform_jit.c`). Tuple descriptors live at addresses, and an address can be used again. The checksum over the
attributes is PostgreSQL's and a parameter here.
-/

namespace PgJitter

deriving instance DecidableEq for CompactAttribute

/-! ## Descriptors and compiled functions -/

/-- What is at the address of a tuple descriptor. -/
structure DescriptorData where
  tdtypeid : Nat
  tdtypmod : Int
  desc : TupleDesc
  /-- The bytes of an attribute from `attlen` on that its other fields do not determine. -/
  rest : Nat → List (BitVec 8)

/-- The bytes of the first attributes that are hashed and compared: all from `attlen` on. -/
def DescriptorData.attrs (d : DescriptorData) (natts : Nat) : List (CompactAttribute × List (BitVec 8)) :=
  (List.range natts).map fun k => (d.desc.att k, d.rest k)

/-- The columns, as the compilers read them. -/
def DescriptorData.layout (d : DescriptorData) (natts : Nat) : List CompactAttribute := (List.range natts).map d.desc.att

/-- `COMP_CRC32C` over attributes. -/
abbrev AttrsHash := List (CompactAttribute × List (BitVec 8)) → BitVec 32

/-- The code of a compiled function. -/
inductive DeformBody where
  | unrolled (code : DeformCode)
  | loop (code : DeformLoopCode)
  deriving DecidableEq, Repr

/-- A compiled function, and what it was compiled for. -/
structure CompiledDeform where
  natts : Nat
  ops : TupleTableSlotOps
  layout : List CompactAttribute
  body : DeformBody
  deriving DecidableEq

/-- `shared_deform_slot_ops_kind`; `none` is `SHARED_DEFORM_OPS_INVALID`. -/
def sharedDeformSlotOpsKind : TupleTableSlotOps → Option TupleTableSlotOps
  | .heapTuple => some .heapTuple
  | .bufferHeapTuple => some .bufferHeapTuple
  | .minimalTuple => some .minimalTuple
  | _ => none

/-! ## The caches -/

/-- `DispatchFastEntry`. -/
structure DispatchFastEntry where
  /-- The address of the descriptor. -/
  desc : Nat
  ops : TupleTableSlotOps
  natts : Nat
  attrsHash : BitVec 32
  tdtypeid : Nat
  tdtypmod : Int
  fn : CompiledDeform
  deriving DecidableEq

/-- `DeformDispatchEntry`. -/
structure DeformDispatchEntry where
  attrsHash : BitVec 32
  natts : Nat
  ops : TupleTableSlotOps
  fn : CompiledDeform
  attrs : List (CompactAttribute × List (BitVec 8))
  deriving DecidableEq

/-- The `shared_deform_` variables while `shared_deform_fn` is set. -/
structure SharedDeform where
  fn : CompiledDeform
  natts : Nat
  attrsHash : BitVec 32
  opsKind : Option TupleTableSlotOps
  tdtypeid : Nat
  tdtypmod : Int
  validDesc : Option Nat
  validOps : Option TupleTableSlotOps
  deriving DecidableEq

/-- The process: the live descriptors and the caches. -/
structure DeformCacheState where
  descs : Nat → Option DescriptorData
  /-- `dispatch_fast`, the most recently used first. -/
  fast : List DispatchFastEntry
  /-- `deform_dispatch_cache`. -/
  cache : List DeformDispatchEntry
  shared : Option SharedDeform

/-- `DISPATCH_FASTPATH_SIZE`. -/
def dispatchFastpathSize : Nat := 4

/-- `DEFORM_DISPATCH_CACHE_SIZE`. -/
def deformDispatchCacheSize : Nat := 32

/-- `DEFORM_MAX_CACHED_ATTRS`. -/
def deformMaxCachedAttrs : Nat := 16

/-- The comparison of the first lookup in the fast entries. -/
def DispatchFastEntry.isFor (fe : DispatchFastEntry) (addr : Nat) (d : DescriptorData) (ops : TupleTableSlotOps) (natts : Nat) :
    Bool :=
  fe.desc == addr && fe.ops == ops && fe.natts == natts && fe.tdtypeid == d.tdtypeid && fe.tdtypmod == d.tdtypmod

/-- The comparison of the full lookup, with every attribute. -/
def DeformDispatchEntry.isFor (e : DeformDispatchEntry) (hash : AttrsHash) (d : DescriptorData) (ops : TupleTableSlotOps)
    (natts : Nat) : Bool :=
  e.natts == natts && e.ops == ops && e.attrsHash == hash (d.attrs natts) && e.attrs == d.attrs natts

/-- The shared function has this type. -/
def SharedDeform.sameType (sh : SharedDeform) (d : DescriptorData) : Bool :=
  d.tdtypeid == sh.tdtypeid && d.tdtypmod == sh.tdtypmod

/-- The two ways to the shared function: the descriptor it was last used for, or the kind, the type and the hash. -/
def SharedDeform.lookup (sh : SharedDeform) (hash : AttrsHash) (addr : Nat) (d : DescriptorData) (ops : TupleTableSlotOps)
    (natts : Nat) : Option SharedDeform :=
  if natts ≠ sh.natts then none
  else if sh.validDesc = some addr ∧ sh.validOps = some ops ∧ sh.sameType d = true then some sh
  else if sharedDeformSlotOpsKind ops = sh.opsKind ∧ sh.sameType d = true then
    if hash (d.attrs natts) = sh.attrsHash then some { sh with validDesc := some addr, validOps := some ops } else none
  else none

/-! ## The dispatch -/

/-- Compile for a dispatch; `memOk` says that there is memory for the code. -/
def compileForDispatch (limits : DeformLimits) (d : DescriptorData) (ops : TupleTableSlotOps) (natts : Nat) (memOk : Bool) :
    Option CompiledDeform :=
  if memOk = false then none
  else
    let body :=
      if deformDispatchUsesLoop limits d.desc natts then (pgJitterCompileDeformLoop d.desc ops natts false).map DeformBody.loop
      else (pgJitterCompileDeform d.desc ops natts).map DeformBody.unrolled
    body.map fun body => { natts, ops, layout := d.layout natts, body }

namespace DeformCacheState

/-- The process at its start. -/
def init : DeformCacheState := ⟨fun _ => none, [], [], none⟩

/-- The insertion at the front of the fast entries, after `found:`. -/
def noteFast (s : DeformCacheState) (hash : AttrsHash) (addr : Nat) (d : DescriptorData) (ops : TupleTableSlotOps) (natts : Nat)
    (fn : CompiledDeform) : DeformCacheState :=
  { s with
    fast := ({ desc := addr, ops, natts, attrsHash := hash (d.attrs natts), tdtypeid := d.tdtypeid, tdtypmod := d.tdtypmod, fn } ::
      s.fast).take dispatchFastpathSize }

/-- The insertion into the hashed cache, while there is room and the columns fit. -/
def noteCache (s : DeformCacheState) (hash : AttrsHash) (d : DescriptorData) (ops : TupleTableSlotOps) (natts : Nat)
    (fn : CompiledDeform) : DeformCacheState :=
  if s.cache.length < deformDispatchCacheSize ∧ natts ≤ deformMaxCachedAttrs then
    { s with cache := s.cache ++ [{ attrsHash := hash (d.attrs natts), natts, ops, fn, attrs := d.attrs natts }] }
  else s

/-- The part of the dispatch behind the shared function; `cacheOn` is `pg_jitter_deform_cache`. -/
def dispatchLocal (s : DeformCacheState) (limits : DeformLimits) (hash : AttrsHash) (addr : Nat) (d : DescriptorData)
    (ops : TupleTableSlotOps) (natts : Nat) (cacheOn memOk : Bool) : DeformCacheState × Option CompiledDeform :=
  if cacheOn then
    match s.fast.find? (·.isFor addr d ops natts) with
    | some fe => ({ s with fast := fe :: s.fast.eraseP (·.isFor addr d ops natts) }, some fe.fn)
    | none =>
      match s.cache.find? (·.isFor hash d ops natts) with
      | some e => (s.noteFast hash addr d ops natts e.fn, some e.fn)
      | none =>
        match compileForDispatch limits d ops natts memOk with
        | some fn => ((s.noteCache hash d ops natts fn).noteFast hash addr d ops natts fn, some fn)
        | none => (s, none)
  else (s, compileForDispatch limits d ops natts memOk)

/-- `pg_jitter_compiled_deform_dispatch` on a slot with the descriptor `d` at `addr`: the function that is run, or `none` for
`slot_getsomeattrs_int`. -/
def dispatch (s : DeformCacheState) (limits : DeformLimits) (hash : AttrsHash) (addr : Nat) (d : DescriptorData)
    (ops : TupleTableSlotOps) (natts : Nat) (cacheOn memOk : Bool) : DeformCacheState × Option CompiledDeform :=
  if natts > limits.wideDeformLimit then (s, none)
  else
    match s.shared.bind (·.lookup hash addr d ops natts) with
    | some sh => ({ s with shared := some sh }, some sh.fn)
    | none => s.dispatchLocal limits hash addr d ops natts cacheOn memOk

/-! ## The shared function -/

/-- What a leader publishes for a descriptor: the code in a shared buffer, and the keys. -/
def sharedFor (hash : AttrsHash) (d : DescriptorData) (ops : TupleTableSlotOps) (natts : Nat) : Option SharedDeform :=
  if sharedDeformSlotOpsKind ops = none then none
  else
    (pgJitterCompileDeformLoop d.desc ops natts true).map fun code =>
      { fn := { natts, ops, layout := d.layout natts, body := .loop code }, natts, attrsHash := hash (d.attrs natts)
        opsKind := sharedDeformSlotOpsKind ops, tdtypeid := d.tdtypeid, tdtypmod := d.tdtypmod, validDesc := none, validOps := none }

/-- `pg_jitter_compile_shared_deform`; `ok` says that there is room for the code, at an address that it can get. -/
def compileShared (s : DeformCacheState) (hash : AttrsHash) (addr : Nat) (d : DescriptorData) (ops : TupleTableSlotOps)
    (natts : Nat) (ok : Bool) : DeformCacheState :=
  match sharedFor hash d ops natts with
  | some sh => if ok then { s with shared := some { sh with validDesc := some addr, validOps := some ops } } else s
  | none => s

/-- `pg_jitter_attach_shared_deform` of what a leader published for a descriptor of its own. -/
def attachShared (s : DeformCacheState) (hash : AttrsHash) (leader : DescriptorData) (ops : TupleTableSlotOps) (natts : Nat)
    (ok : Bool) : DeformCacheState :=
  match sharedFor hash leader ops natts with
  | some sh => if s.shared.isNone ∧ ok = true then { s with shared := some sh } else s
  | none => s

end DeformCacheState

/-! ## Runs -/

/-- One thing that happens to the descriptors or the caches. -/
inductive DeformEvent where
  | create (addr : Nat) (d : DescriptorData)
  | free (addr : Nat)
  | dispatch (addr : Nat) (ops : TupleTableSlotOps) (natts : Nat) (cacheOn memOk : Bool)
  /-- `pg_jitter_deform_dispatch_reset_fastpath` -/
  | resetFastpath
  | compileShared (addr : Nat) (ops : TupleTableSlotOps) (natts : Nat) (ok : Bool)
  | attachShared (leader : DescriptorData) (ops : TupleTableSlotOps) (natts : Nat) (ok : Bool)
  /-- `pg_jitter_reset_shared_deform` -/
  | resetShared

/-- The state after an event; `none` when it can not happen: only a free address is given out, and only a live descriptor is
freed or used. -/
def DeformCacheState.next (s : DeformCacheState) (limits : DeformLimits) (hash : AttrsHash) : DeformEvent → Option DeformCacheState
  | .create addr d => if (s.descs addr).isNone then some { s with descs := Function.update s.descs addr (some d) } else none
  | .free addr => (s.descs addr).map fun _ => { s with descs := Function.update s.descs addr none }
  | .dispatch addr ops natts cacheOn memOk =>
    (s.descs addr).map fun d => (s.dispatch limits hash addr d ops natts cacheOn memOk).1
  | .resetFastpath => some { s with fast := [] }
  | .compileShared addr ops natts ok => (s.descs addr).map fun d => s.compileShared hash addr d ops natts ok
  | .attachShared leader ops natts ok => some (s.attachShared hash leader ops natts ok)
  | .resetShared => some { s with shared := none }

/-- The states of the runs whose every step is allowed. -/
inductive DeformCacheState.Reached (limits : DeformLimits) (hash : AttrsHash) (allowed : DeformCacheState → DeformEvent → Prop) :
    DeformCacheState → Prop where
  | init : Reached limits hash allowed DeformCacheState.init
  | step {s t : DeformCacheState} (event : DeformEvent) (hs : Reached limits hash allowed s) (hallowed : allowed s event)
      (hnext : s.next limits hash event = some t) : Reached limits hash allowed t

/-- In all of these runs, a dispatch runs only functions that were compiled for its number of columns, its kind of slot and the
columns of the descriptor that the slot has now. -/
def DispatchesRight (limits : DeformLimits) (hash : AttrsHash) (allowed : DeformCacheState → DeformEvent → Prop) : Prop :=
  ∀ s, DeformCacheState.Reached limits hash allowed s → ∀ addr d ops natts cacheOn memOk fn,
    allowed s (.dispatch addr ops natts cacheOn memOk) → s.descs addr = some d →
    (s.dispatch limits hash addr d ops natts cacheOn memOk).2 = some fn →
    fn.natts = natts ∧ fn.ops = ops ∧ fn.layout = d.layout natts

/-- No remembered pointer is met by other columns, and no checksum by other columns: a descriptor that is created where a fast
entry or the shared function remembers one of the same type has the columns it had, and a descriptor of the kind, the type and
the checksum of the shared function has its columns. -/
def KeepsColumns (hash : AttrsHash) (s : DeformCacheState) : DeformEvent → Prop
  | .create addr d =>
    (∀ fe ∈ s.fast, fe.desc = addr → fe.tdtypeid = d.tdtypeid → fe.tdtypmod = d.tdtypmod → d.layout fe.natts = fe.fn.layout) ∧
      ∀ sh, s.shared = some sh → sh.validDesc = some addr → sh.sameType d = true → d.layout sh.natts = sh.fn.layout
  | .dispatch addr ops natts _ _ =>
    ∀ d sh, s.descs addr = some d → s.shared = some sh → natts = sh.natts → sharedDeformSlotOpsKind ops = sh.opsKind →
      sh.sameType d = true → hash (d.attrs natts) = sh.attrsHash → d.layout natts = sh.fn.layout
  | _ => True

end PgJitter
