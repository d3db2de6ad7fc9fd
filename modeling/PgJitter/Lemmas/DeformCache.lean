import PgJitter.DeformCache

/-!
# What the deform caches remember

The invariant of the caches: every function is kept under the columns, the kind and the number of columns that it was compiled
for, and a pointer that is kept with it does not lead to a descriptor of the same type with other columns.
-/

namespace PgJitter

namespace DeformCacheAux

open DeformCacheState

/-- The function was compiled for this. -/
def IsFor (fn : CompiledDeform) (d : DescriptorData) (ops : TupleTableSlotOps) (natts : Nat) : Prop :=
  fn.natts = natts ∧ fn.ops = ops ∧ fn.layout = d.layout natts

/-- A fast entry is right for the descriptor at its address, if that has its type. -/
def FastRight (descs : Nat → Option DescriptorData) (fe : DispatchFastEntry) : Prop :=
  fe.fn.natts = fe.natts ∧ fe.fn.ops = fe.ops ∧
    ∀ d, descs fe.desc = some d → fe.tdtypeid = d.tdtypeid → fe.tdtypmod = d.tdtypmod → d.layout fe.natts = fe.fn.layout

/-- An entry of the hashed cache is right for the attributes it keeps. -/
def CacheRight (e : DeformDispatchEntry) : Prop :=
  e.fn.natts = e.natts ∧ e.fn.ops = e.ops ∧ e.attrs.map Prod.fst = e.fn.layout

/-- The shared function is right for its kind, and for the descriptor it was last used for. -/
structure SharedRight (descs : Nat → Option DescriptorData) (sh : SharedDeform) : Prop where
  natts : sh.fn.natts = sh.natts
  kind : sharedDeformSlotOpsKind sh.fn.ops = sh.opsKind
  valid : sh.opsKind ≠ none
  validOps : ∀ ops, sh.validOps = some ops → sharedDeformSlotOpsKind ops = sh.opsKind
  validDesc : ∀ addr d, sh.validDesc = some addr → descs addr = some d → sh.sameType d = true → d.layout sh.natts = sh.fn.layout

/-- The caches remember nothing wrong. -/
structure Remembers (s : DeformCacheState) : Prop where
  fast : ∀ fe ∈ s.fast, FastRight s.descs fe
  cache : ∀ e ∈ s.cache, CacheRight e
  shared : ∀ sh, s.shared = some sh → SharedRight s.descs sh

/-! ## Layouts and kinds -/

/-- The columns are the first parts of the attributes. -/
theorem map_fst_attrs (d : DescriptorData) (natts : Nat) : (d.attrs natts).map Prod.fst = d.layout natts := by
  unfold DescriptorData.attrs DescriptorData.layout
  rw [List.map_map]
  rfl

/-- A valid kind determines the slot operations. -/
theorem slotOpsKind_inj {ops ops' : TupleTableSlotOps} (h : sharedDeformSlotOpsKind ops = sharedDeformSlotOpsKind ops')
    (hvalid : sharedDeformSlotOpsKind ops ≠ none) : ops = ops' := by
  cases ops <;> cases ops' <;> simp_all [sharedDeformSlotOpsKind]

/-- A function compiled for a dispatch is for it. -/
theorem isFor_of_compile {limits : DeformLimits} {d : DescriptorData} {ops : TupleTableSlotOps} {natts : Nat} {memOk : Bool}
    {fn : CompiledDeform} (h : compileForDispatch limits d ops natts memOk = some fn) : IsFor fn d ops natts := by
  unfold compileForDispatch at h
  split at h
  · nomatch h
  · obtain ⟨body, -, rfl⟩ := Option.map_eq_some_iff.mp h
    exact ⟨rfl, rfl, rfl⟩

/-! ## What a match says -/

/-- A fast entry that matches is for this slot, as long as the descriptor is the live one. -/
theorem FastRight.isFor {descs : Nat → Option DescriptorData} {fe : DispatchFastEntry} (h : FastRight descs fe) {addr : Nat}
    {d : DescriptorData} {ops : TupleTableSlotOps} {natts : Nat} (hd : descs addr = some d)
    (hmatch : fe.isFor addr d ops natts = true) : IsFor fe.fn d ops natts := by
  simp only [DispatchFastEntry.isFor, Bool.and_eq_true, beq_iff_eq] at hmatch
  obtain ⟨⟨⟨⟨haddr, hops⟩, hnatts⟩, htype⟩, hmod⟩ := hmatch
  obtain ⟨hn, ho, hlayout⟩ := h
  subst haddr hops hnatts
  exact ⟨hn, ho, (hlayout d hd htype hmod).symm⟩

/-- An entry of the hashed cache that matches is for this slot: every attribute was compared. -/
theorem CacheRight.isFor {e : DeformDispatchEntry} (h : CacheRight e) {hash : AttrsHash} {d : DescriptorData}
    {ops : TupleTableSlotOps} {natts : Nat} (hmatch : e.isFor hash d ops natts = true) : IsFor e.fn d ops natts := by
  simp only [DeformDispatchEntry.isFor, Bool.and_eq_true, beq_iff_eq] at hmatch
  obtain ⟨⟨⟨hnatts, hops⟩, -⟩, hattrs⟩ := hmatch
  obtain ⟨hn, ho, hlayout⟩ := h
  rw [hattrs, map_fst_attrs] at hlayout
  exact ⟨hn.trans hnatts, ho.trans hops, hlayout.symm⟩

/-- The columns that the checksum stands for are those of the shared function. -/
def HashRight (hash : AttrsHash) (sh : SharedDeform) (d : DescriptorData) (ops : TupleTableSlotOps) (natts : Nat) : Prop :=
  natts = sh.natts → sharedDeformSlotOpsKind ops = sh.opsKind → sh.sameType d = true → hash (d.attrs natts) = sh.attrsHash →
    d.layout natts = sh.fn.layout

/-- The shared function is found only for what it was compiled for, and then stays right. -/
theorem SharedRight.lookup {descs : Nat → Option DescriptorData} {sh sh' : SharedDeform} (h : SharedRight descs sh)
    {hash : AttrsHash} {addr : Nat} {d : DescriptorData} {ops : TupleTableSlotOps} {natts : Nat} (hd : descs addr = some d)
    (hhash : HashRight hash sh d ops natts) (hfound : sh.lookup hash addr d ops natts = some sh') :
    SharedRight descs sh' ∧ IsFor sh'.fn d ops natts := by
  have hops {o : TupleTableSlotOps} (ho : sharedDeformSlotOpsKind o = sh.opsKind) : sh.fn.ops = o :=
    slotOpsKind_inj (h.kind.trans ho.symm) (by rw [h.kind]; exact h.valid)
  unfold SharedDeform.lookup at hfound
  split at hfound
  · nomatch hfound
  rename_i hnatts
  rw [not_not] at hnatts
  split at hfound
  · rename_i hpointer
    obtain ⟨hvd, hvo, htype⟩ := hpointer
    obtain rfl := Option.some.inj hfound
    subst hnatts
    exact ⟨h, h.natts, hops (h.validOps ops hvo), (h.validDesc addr d hvd hd htype).symm⟩
  split at hfound
  · rename_i hkey
    obtain ⟨hkind, htype⟩ := hkey
    split at hfound
    · rename_i hsame
      have hlayout := hhash hnatts hkind htype hsame
      obtain rfl := Option.some.inj hfound
      subst hnatts
      refine ⟨⟨h.natts, h.kind, h.valid, ?_, ?_⟩, h.natts, hops hkind, hlayout.symm⟩
      · intro o ho
        obtain rfl := Option.some.inj ho
        exact hkind
      · intro a d' ha hd' _
        obtain rfl := Option.some.inj ha
        obtain rfl := Option.some.inj (hd'.symm.trans hd)
        exact hlayout
    · nomatch hfound
  · nomatch hfound

/-! ## The dispatch -/

/-- A fast entry made now is right. -/
theorem Remembers.noteFast {s : DeformCacheState} (h : Remembers s) (hash : AttrsHash) {addr : Nat} {d : DescriptorData}
    {ops : TupleTableSlotOps} {natts : Nat} {fn : CompiledDeform} (hd : s.descs addr = some d) (hfn : IsFor fn d ops natts) :
    Remembers (s.noteFast hash addr d ops natts fn) := by
  refine ⟨?_, h.cache, h.shared⟩
  intro fe hfe
  rcases List.mem_cons.mp (List.mem_of_mem_take hfe) with rfl | hfe
  · refine ⟨hfn.1, hfn.2.1, ?_⟩
    intro d' hd' _ _
    obtain rfl := Option.some.inj (hd'.symm.trans hd)
    exact hfn.2.2.symm
  · exact h.fast fe hfe

/-- An entry of the hashed cache made now is right. -/
theorem Remembers.noteCache {s : DeformCacheState} (h : Remembers s) (hash : AttrsHash) {d : DescriptorData}
    {ops : TupleTableSlotOps} {natts : Nat} {fn : CompiledDeform} (hfn : IsFor fn d ops natts) :
    Remembers (s.noteCache hash d ops natts fn) := by
  unfold DeformCacheState.noteCache
  split
  · refine ⟨h.fast, ?_, h.shared⟩
    intro e he
    rcases List.mem_append.mp he with he | he
    · exact h.cache e he
    · obtain rfl := List.mem_singleton.mp he
      exact ⟨hfn.1, hfn.2.1, (map_fst_attrs d natts).trans hfn.2.2.symm⟩
  · exact h

theorem noteCache_descs (s : DeformCacheState) (hash : AttrsHash) (d : DescriptorData) (ops : TupleTableSlotOps) (natts : Nat)
    (fn : CompiledDeform) : (s.noteCache hash d ops natts fn).descs = s.descs := by
  unfold DeformCacheState.noteCache
  split <;> rfl

/-- A step of the dispatch is right: the caches stay right, and so is what it runs. -/
def DispatchRight (s : DeformCacheState) (d : DescriptorData) (ops : TupleTableSlotOps) (natts : Nat)
    (r : DeformCacheState × Option CompiledDeform) : Prop :=
  Remembers r.1 ∧ r.1.descs = s.descs ∧ ∀ fn, r.2 = some fn → IsFor fn d ops natts

/-- The caches of the process. -/
theorem dispatchLocal_right {s : DeformCacheState} (h : Remembers s) (limits : DeformLimits) (hash : AttrsHash) {addr : Nat}
    {d : DescriptorData} {ops : TupleTableSlotOps} {natts : Nat} (hd : s.descs addr = some d) (cacheOn memOk : Bool) :
    DispatchRight s d ops natts (s.dispatchLocal limits hash addr d ops natts cacheOn memOk) := by
  unfold DeformCacheState.dispatchLocal
  split
  · split
    · rename_i fe hfe
      have hmem := List.mem_of_find?_eq_some hfe
      have hmatch : fe.isFor addr d ops natts = true := by simpa using List.find?_some hfe
      refine ⟨⟨?_, h.cache, h.shared⟩, rfl, ?_⟩
      · intro x hx
        rcases List.mem_cons.mp hx with rfl | hx
        · exact h.fast _ hmem
        · exact h.fast x (List.mem_of_mem_eraseP hx)
      · intro fn hfn
        obtain rfl := Option.some.inj hfn
        exact (h.fast fe hmem).isFor hd hmatch
    split
    · rename_i e he
      have hmatch : e.isFor hash d ops natts = true := by simpa using List.find?_some he
      have hfor := (h.cache e (List.mem_of_find?_eq_some he)).isFor hmatch
      refine ⟨h.noteFast hash hd hfor, rfl, ?_⟩
      intro fn hfn
      obtain rfl := Option.some.inj hfn
      exact hfor
    split
    · rename_i fn hcompiled
      have hfor := isFor_of_compile hcompiled
      have hcached := h.noteCache hash hfor
      refine ⟨hcached.noteFast hash (by rw [noteCache_descs]; exact hd) hfor, noteCache_descs s hash d ops natts fn, ?_⟩
      intro fn' hfn'
      obtain rfl := Option.some.inj hfn'
      exact hfor
    · exact ⟨h, rfl, fun _ => nofun⟩
  · exact ⟨h, rfl, fun _ hfn => isFor_of_compile hfn⟩

/-- The whole dispatch. -/
theorem dispatch_right {s : DeformCacheState} (h : Remembers s) (limits : DeformLimits) (hash : AttrsHash) {addr : Nat}
    {d : DescriptorData} {ops : TupleTableSlotOps} {natts : Nat} (hd : s.descs addr = some d)
    (hhash : ∀ sh, s.shared = some sh → HashRight hash sh d ops natts) (cacheOn memOk : Bool) :
    DispatchRight s d ops natts (s.dispatch limits hash addr d ops natts cacheOn memOk) := by
  unfold DeformCacheState.dispatch
  split
  · exact ⟨h, rfl, fun _ => nofun⟩
  split
  · rename_i sh' hfound
    obtain ⟨sh, hsh, hlookup⟩ := Option.bind_eq_some_iff.mp hfound
    obtain ⟨hright, hfor⟩ := (h.shared sh hsh).lookup hd (hhash sh hsh) hlookup
    refine ⟨⟨h.fast, h.cache, ?_⟩, rfl, ?_⟩
    · intro x hx
      obtain rfl := Option.some.inj hx
      exact hright
    · intro fn hfn
      obtain rfl := Option.some.inj hfn
      exact hfor
  · exact dispatchLocal_right h limits hash hd cacheOn memOk

/-! ## The shared function -/

/-- What a leader publishes is right wherever it is installed without a descriptor. -/
theorem sharedRight_of_sharedFor {hash : AttrsHash} {d : DescriptorData} {ops : TupleTableSlotOps} {natts : Nat}
    {sh : SharedDeform} (h : sharedFor hash d ops natts = some sh) (descs : Nat → Option DescriptorData) :
    SharedRight descs sh ∧ IsFor sh.fn d ops natts ∧ sh.natts = natts ∧ sh.opsKind = sharedDeformSlotOpsKind ops := by
  unfold sharedFor at h
  split at h
  · nomatch h
  · rename_i hvalid
    obtain ⟨code, -, rfl⟩ := Option.map_eq_some_iff.mp h
    exact ⟨⟨rfl, rfl, hvalid, fun _ => nofun, fun _ _ => nofun⟩, ⟨rfl, rfl, rfl⟩, rfl, rfl⟩

/-- The leader's own use of it: with the descriptor it was compiled for. -/
theorem Remembers.compileShared {s : DeformCacheState} (h : Remembers s) (hash : AttrsHash) {addr : Nat} {d : DescriptorData}
    (ops : TupleTableSlotOps) (natts : Nat) (hd : s.descs addr = some d) (ok : Bool) :
    Remembers (s.compileShared hash addr d ops natts ok) := by
  unfold DeformCacheState.compileShared
  split
  · rename_i sh hsh
    split
    · obtain ⟨hright, hfor, hnatts, hkind⟩ := sharedRight_of_sharedFor hsh s.descs
      refine ⟨h.fast, h.cache, ?_⟩
      intro x hx
      obtain rfl := Option.some.inj hx
      refine ⟨hright.natts, hright.kind, hright.valid, ?_, ?_⟩
      · intro o ho
        obtain rfl := Option.some.inj ho
        exact hkind.symm
      · intro a d' ha hd' _
        obtain rfl := Option.some.inj ha
        obtain rfl := Option.some.inj (hd'.symm.trans hd)
        show d'.layout sh.natts = sh.fn.layout
        rw [hnatts, hfor.2.2]
    · exact h
  · exact h

/-- A worker installs it without a descriptor, and only when it has none yet. -/
theorem Remembers.attachShared {s : DeformCacheState} (h : Remembers s) (hash : AttrsHash) (leader : DescriptorData)
    (ops : TupleTableSlotOps) (natts : Nat) (ok : Bool) : Remembers (s.attachShared hash leader ops natts ok) := by
  unfold DeformCacheState.attachShared
  split
  · rename_i sh hsh
    split
    · refine ⟨h.fast, h.cache, ?_⟩
      intro x hx
      obtain rfl := Option.some.inj hx
      exact (sharedRight_of_sharedFor hsh s.descs).1
    · exact h
  · exact h

end DeformCacheAux

end PgJitter
