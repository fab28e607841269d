import MesaSim.Rt.Lower
import MesaSim.Nir.Build

/-!
# The code `brw_nir_lower_rt_intrinsics` inserts

What the preamble (`brw_nir_lower_rt_intrinsics.c:53–89`) and each case of the walk (`:102–370`)
insert, read off the code with the builder logic of `MesaSim.Nir.Build`: what the inserted code
reads and calls, and where each value handed back is defined. The helpers of
`brw_nir_rt_builder.h` are parameters of the model, so what the pass needs of them is a
hypothesis, `RtEnv.Ok`: each reads only what it is given and what it defines; the loaders of the
dispatch globals and of an instance leaf call no intrinsic the walk handles; the other helpers of
the preamble call at most the system values of the dispatch globals, as their bodies in Mesa do
(`brw_nir_rt_sw_hotzone_addr` reads `load_ray_base_mem_addr_intel`). The walk, which visits the
preamble, replaces those by the globals loaded first.
-/

namespace MesaSim.Rt
open MesaSim.Nir

/-! ### The values of the records -/

/-- The fields of the dispatch globals. -/
def RtGlobalsDefs.defs (g : RtGlobalsDefs) : List Def :=
  [g.baseMemAddr, g.hwStackSize, g.numDssRtStacks, g.hitSbtAddr, g.hitSbtStride, g.missSbtAddr,
    g.missSbtStride, g.swStackSize, g.launchSize, g.callSbtAddr, g.callSbtStride]

/-- The fields of a MemRay. -/
def MemRayDefs.defs (r : MemRayDefs) : List Def := [r.orig, r.dir, r.tNear, r.tFar, r.rayFlags]

/-- The fields of a MemHit. -/
def MemHitDefs.defs (h : MemHitDefs) : List Def :=
  [h.t, h.aabbHitKind, h.leafType, h.primLeafIndex, h.frontFace, h.primLeafPtr, h.instLeafPtr]

/-- The columns and ids of an instance leaf. -/
def InstanceLeafDefs.defs (l : InstanceLeafDefs) : List Def :=
  l.objectToWorld ++ l.worldToObject ++ [l.instanceId, l.instanceIndex]

/-- The fields of the records a stage loads. -/
def recordDefs (r : Option MemHitDefs × Option MemRayDefs × Option MemRayDefs) : List Def :=
  (r.1.map MemHitDefs.defs).getD [] ++ (r.2.1.map MemRayDefs.defs).getD [] ++
    (r.2.2.map MemRayDefs.defs).getD []

/-- The values the preamble hands the walk. -/
def RtPreamble.defs (P : RtPreamble) : List Def :=
  P.globals.defs ++ [P.hotzoneAddr, P.hotzone, P.threadStackBaseAddr] ++
    recordDefs (P.hitIn, P.objectRayIn, P.worldRayIn)

theorem RtPreamble.mem_defs_of_globals {P : RtPreamble} {v : Def} (hv : v ∈ P.globals.defs) :
    v ∈ P.defs := by
  simp [RtPreamble.defs, hv]

theorem RtPreamble.mem_defs_of_hit {P : RtPreamble} {hit : MemHitDefs} (h : P.hitIn = some hit)
    {v : Def} (hv : v ∈ hit.defs) : v ∈ P.defs := by
  simp [RtPreamble.defs, recordDefs, h, hv]

theorem RtPreamble.mem_defs_of_objectRay {P : RtPreamble} {ray : MemRayDefs}
    (h : P.objectRayIn = some ray) {v : Def} (hv : v ∈ ray.defs) : v ∈ P.defs := by
  simp [RtPreamble.defs, recordDefs, h, hv]

theorem RtPreamble.mem_defs_of_worldRay {P : RtPreamble} {ray : MemRayDefs}
    (h : P.worldRayIn = some ray) {v : Def} (hv : v ∈ ray.defs) : v ∈ P.defs := by
  simp [RtPreamble.defs, recordDefs, h, hv]

/-! ### What the helpers insert -/

/-- The intrinsics the walk leaves alone: none the `switch` handles. -/
def RtKeeps (op : IntrinsicOp) : Prop := rtHandles op = false

/-- The calls the walk inserts: of intrinsics it leaves alone. -/
def RtWalkCall (op : IntrinsicOp) (_ : Bool) : Prop := RtKeeps op

/-- The system values the walk replaces by a field of the dispatch globals (`:191–193`,
`:299–337`). -/
def rtGlobalsSysval : IntrinsicOp → Bool
  | .loadRayLaunchSize | .loadRayBaseMemAddrIntel | .loadRayHwStackSizeIntel
  | .loadRaySwStackSizeIntel | .loadRayNumDssRtStacksIntel | .loadRayHitSbtAddrIntel
  | .loadRayHitSbtStrideIntel | .loadRayMissSbtAddrIntel | .loadRayMissSbtStrideIntel
  | .loadCallableSbtAddrIntel | .loadCallableSbtStrideIntel => true
  | _ => false

/-- The calls the preamble inserts: the walk's, and system values of the dispatch globals that
define a value. -/
def RtPreambleCall (op : IntrinsicOp) (hasDest : Bool) : Prop :=
  RtKeeps op ∨ (rtGlobalsSysval op = true ∧ hasDest = true)

/-- What the pass needs of a helper making the calls `ok` and reading the values `reads`: run
under any invariant `Inserted R okOp` that allows those calls, from a builder where `R` holds of
what it reads, it keeps the invariant and defines every value `vals` lists of its result by an
instruction calling no intrinsic the walk handles. -/
def RtInserts {α : Type} (ok : IntrinsicOp → Bool → Prop) (reads : List Def) (m : BuildM α)
    (vals : α → List Def) : Prop :=
  ∀ (R : Nat → Prop) (okOp : IntrinsicOp → Bool → Prop), (∀ op b, ok op b → okOp op b) →
    (∀ v ∈ reads, R v.index) →
    BuildsIn (Inserted R okOp) (fun _ => False) RtKeeps m vals (fun d => R d.index)

/-- A helper used under a given invariant, its values listed among any given ones. -/
theorem RtInserts.run {α : Type} {ok : IntrinsicOp → Bool → Prop} {reads : List Def}
    {m : BuildM α} {vals : α → List Def} (h : RtInserts ok reads m vals) {R : Nat → Prop}
    {okOp : IntrinsicOp → Bool → Prop} {S : Def → Prop} (hok : ∀ op b, ok op b → okOp op b)
    (hr : ∀ v ∈ reads, R v.index) :
    BuildsIn (Inserted R okOp) S RtKeeps m vals (fun d => R d.index) :=
  (h R okOp hok hr).mono (fun _ h => h.elim) fun _ h => h

/-- The helpers of `brw_nir_rt_builder.h` insert code as `RtInserts` says, the instance leaf
loader reading the leaf's address, and an instance leaf has four columns per transform
(`struct brw_nir_rt_bvh_instance_leaf_defs`). -/
structure RtEnv.Ok (E : RtEnv) : Prop where
  loadGlobals : RtInserts RtWalkCall [] E.loadGlobals RtGlobalsDefs.defs
  swHotzoneAddr : RtInserts RtPreambleCall [] E.swHotzoneAddr ([·])
  loadMemHit : ∀ committed, RtInserts RtPreambleCall [] (E.loadMemHit committed) MemHitDefs.defs
  loadMemRay : ∀ level, RtInserts RtPreambleCall [] (E.loadMemRay level) MemRayDefs.defs
  swStackAddr : RtInserts RtPreambleCall [] E.swStackAddr ([·])
  loadBvhInstanceLeaf : ∀ p, RtInserts RtWalkCall [p] (E.loadBvhInstanceLeaf p) InstanceLeafDefs.defs
  columns : ∀ p b, (E.loadBvhInstanceLeaf p b).1.objectToWorld.length = 4 ∧
    (E.loadBvhInstanceLeaf p b).1.worldToObject.length = 4

/-- The walk's stack offset and base address satisfy `R`. -/
structure RtState.Avail (R : Nat → Prop) (st : RtState) : Prop where
  offset : R st.stackBaseOffset.index
  addr : R st.stackBaseAddr.index

/-! ### What the pass inserts -/

section Builds

variable {E : RtEnv} {stage : Stage} {R : Nat → Prop} {S : Def → Prop}

theorem rtWalkCall_preamble {op : IntrinsicOp} {b : Bool} (h : RtWalkCall op b) :
    RtPreambleCall op b :=
  .inl h

/-- The records of a stage are loaded by code defining all their fields. -/
theorem loadRecords_builds (hE : E.Ok) :
    BuildsIn (Inserted R RtPreambleCall) S RtKeeps (loadRecords E stage) recordDefs
      (fun d => R d.index) := by
  unfold loadRecords
  split
  all_goals first
    | exact .pure (by simp [recordDefs])
    | refine .bindIn ((hE.loadMemHit _).run (fun _ _ h => h) nofun) fun hit hh =>
        .bindIn ((hE.loadMemRay _).run (fun _ _ h => h) nofun) fun o ho =>
        .bindIn ((hE.loadMemRay _).run (fun _ _ h => h) nofun) fun w hw => .pure fun v hv => ?_
      simp only [recordDefs, Option.map_some', Option.getD_some, List.mem_append] at hv
      rcases hv with (h | h) | h
      · exact ⟨hh v h, .inl (.inl (.inr h))⟩
      · exact ⟨ho v h, .inl (.inr h)⟩
      · exact ⟨hw v h, .inr h⟩
    | refine .bindIn ((hE.loadMemRay _).run (fun _ _ h => h) nofun) fun w hw => .pure fun v hv => ?_
      simp only [recordDefs, Option.map_some', Option.getD_some, Option.map_none', Option.getD_none,
        List.nil_append] at hv
      exact ⟨hw v hv, .inr hv⟩

/-- The preamble after the dispatch globals defines every value it hands the walk but the
globals, and its initial stack offset and base address, each by an instruction calling no
intrinsic the walk handles. -/
theorem rtPreambleRecords_builds (hE : E.Ok) {g : RtGlobalsDefs} (hg : ∀ v ∈ g.defs, R v.index ∧ S v) :
    BuildsIn (Inserted R RtPreambleCall) S RtKeeps (rtPreambleRecords E stage g)
      (fun r => r.1.defs ++ [r.2.1, r.2.2]) (fun d => R d.index) := by
  unfold rtPreambleRecords
  refine .bindIn (hE.swHotzoneAddr.run (fun _ _ h => h) nofun) fun za hza =>
    .bindIn (Inserted.nirIntrinsicIn (.inl rfl) rfl (by simpa using hza)) fun hz hhz =>
    .bindIn (loadRecords_builds hE) fun r hr => .bindIn (hE.swStackAddr.run (fun _ _ h => h) nofun)
    fun t ht => .bindIn (Inserted.nirAluIn (by simpa using hhz)) fun off hoff =>
    .bindIn (Inserted.nirAluIn (by simpa using hoff)) fun u hu =>
    .bindIn (Inserted.nirAluIn (by simp_all)) fun addr haddr => .pure fun v hv => ?_
  simp only [RtPreamble.defs, List.mem_append, List.mem_cons, List.mem_singleton, List.not_mem_nil,
    or_false] at hv
  rcases hv with ((h | rfl | rfl | rfl) | h) | rfl | rfl
  · exact ⟨(hg v h).1, by simp [(hg v h).2]⟩
  · exact ⟨hza _ (List.mem_singleton_self _), by simp⟩
  · exact ⟨hhz _ (List.mem_singleton_self _), by simp⟩
  · exact ⟨ht _ (List.mem_singleton_self _), by simp⟩
  · exact ⟨hr v h, by simp [h]⟩
  · exact ⟨hoff _ (List.mem_singleton_self _), by simp⟩
  · exact ⟨haddr _ (List.mem_singleton_self _), by simp⟩

/-- The preamble defines every value it hands the walk, and its initial stack offset and base
address, each by an instruction calling no intrinsic the walk handles. -/
theorem rtPreamble_builds (hE : E.Ok) :
    BuildsIn (Inserted R RtPreambleCall) S RtKeeps (rtPreamble E stage)
      (fun r => r.1.defs ++ [r.2.1, r.2.2]) (fun d => R d.index) :=
  .bindIn (hE.loadGlobals.run (fun _ _ => rtWalkCall_preamble) nofun) fun _ hg =>
    rtPreambleRecords_builds hE fun v hv => ⟨hg v hv, .inr hv⟩

/-- The helpers of the system values define the value they return. -/
theorem buildLeafIsProcedural_builds {hit : MemHitDefs} (h : R hit.leafType.index) :
    BuildsIn (Inserted R RtWalkCall) S RtKeeps (buildLeafIsProcedural E stage hit) ([·])
      (fun d => R d.index) := by
  unfold buildLeafIsProcedural
  split
  · exact Inserted.nirImmIntNIn
  · exact Inserted.nirImmIntNIn
  · exact .bind Inserted.nirImmIntN fun c hc => Inserted.nirAluIn (by simp [h, hc])

theorem primitiveId_builds {hit : MemHitDefs} (hh : ∀ v ∈ hit.defs, R v.index) :
    BuildsIn (Inserted R RtWalkCall) S RtKeeps (primitiveId E stage hit) ([·]) (fun d => R d.index) := by
  unfold primitiveId
  exact .bind (buildLeafIsProcedural_builds (S := S) (hh _ (by simp [MemHitDefs.defs]))).toBuildsDef
    fun p hp => .bind (Inserted.nirIaddImm (hh _ (by simp [MemHitDefs.defs]))) fun a ha =>
    .bind Inserted.nirImmIntN fun c hc => .bind (Inserted.nirAlu (by simp [hp, ha, hc])) fun o ho =>
    .bind (Inserted.nirU2u64 ho) fun u hu => .bind (Inserted.nirAlu2 (hh _ (by simp [MemHitDefs.defs])) hu)
    fun addr haddr => Inserted.nirIntrinsicIn rfl rfl (by simp [haddr])

theorem hitKind_builds {hit : MemHitDefs} (hh : ∀ v ∈ hit.defs, R v.index) :
    BuildsIn (Inserted R RtWalkCall) S RtKeeps (hitKind E stage hit) ([·]) (fun d => R d.index) := by
  unfold hitKind
  exact .bind Inserted.nirImmIntN fun f hf => .bind Inserted.nirImmIntN fun k hk =>
    .bind (Inserted.nirAlu (by simp [hh hit.frontFace (by simp [MemHitDefs.defs]), hf, hk])) fun tri htri =>
    .bind (buildLeafIsProcedural_builds (S := S) (hh _ (by simp [MemHitDefs.defs]))).toBuildsDef fun p hp =>
    Inserted.nirAluIn (by simp [hp, hh hit.aabbHitKind (by simp [MemHitDefs.defs]), htri])

theorem primLeafDword1_builds {hit : MemHitDefs} (h : R hit.primLeafPtr.index) :
    BuildsIn (Inserted R RtWalkCall) S RtKeeps (primLeafDword1 hit) ([·]) (fun d => R d.index) := by
  unfold primLeafDword1
  exact .bind (Inserted.nirIaddImm h) fun a ha => Inserted.nirIntrinsicIn rfl rfl (by simp [ha])

theorem leafOpaque_builds {hit : MemHitDefs} (hh : ∀ v ∈ hit.defs, R v.index)
    (hS : S hit.frontFace) :
    BuildsIn (Inserted R RtWalkCall) S RtKeeps (leafOpaque stage hit) ([·]) (fun d => R d.index) := by
  unfold leafOpaque
  refine .ite (fun _ => .pure (by simp [hS, hh hit.frontFace (by simp [MemHitDefs.defs])])) fun _ =>
    .bind (primLeafDword1_builds (S := S) (hh _ (by simp [MemHitDefs.defs]))).toBuildsDef fun w hw =>
    .bind (BuildsIn.toBuildsDef (Inserted.nirIandImm (S := fun _ => False) hw : BuildsIn _ _ RtKeeps _ _ _))
    fun a ha => Inserted.nirAluIn (by simp [ha])

theorem instanceLeafField_builds (hE : E.Ok) {hit : Option MemHitDefs}
    (hh : ∀ h, hit = some h → R h.instLeafPtr.index) {field : InstanceLeafDefs → Option Def}
    (hf : ∀ leaf, ∀ v ∈ (field leaf).toList, v ∈ leaf.defs) :
    BuildsIn (Inserted R RtWalkCall) S RtKeeps (instanceLeafField E hit field) Option.toList
      (fun d => R d.index) := by
  unfold instanceLeafField
  split
  · exact .map (.bindIn ((hE.loadBvhInstanceLeaf _).run (fun _ _ h => h) (by simpa using hh _ rfl))
      fun leaf hl => (.pure fun v hv => ⟨hl v (hf leaf v hv), .inr (hf leaf v hv)⟩ :
        BuildsIn _ _ _ _ Option.toList _)) fun _ _ h => h
  · exact .pure (by simp)

/-- A system value is one of the preamble's values, or defined by the code computing it. -/
theorem rtSysval_builds (hE : E.Ok) {P : RtPreamble} (hP : ∀ v ∈ P.defs, R v.index)
    (op : IntrinsicOp) (ix : Indices) :
    BuildsIn (Inserted R RtWalkCall) (· ∈ P.defs) RtKeeps (rtSysval E stage P op ix) Option.toList
      (fun d => R d.index) := by
  have hpure : ∀ o : Option Def, (∀ x, o = some x → x ∈ P.defs) →
      BuildsIn (Inserted R RtWalkCall) (· ∈ P.defs) RtKeeps (pure o) Option.toList (fun d => R d.index) :=
    fun o h => .pure fun v hv => ⟨hP v (h v (Option.mem_toList.1 hv)), h v (Option.mem_toList.1 hv)⟩
  have hworld : ∀ f : MemRayDefs → Def, (∀ r, f r ∈ r.defs) → ∀ x, P.worldRayIn.map f = some x → x ∈ P.defs :=
    fun f hf x hx => by
      obtain ⟨r, hr, rfl⟩ := Option.map_eq_some'.1 hx
      exact P.mem_defs_of_worldRay hr (hf r)
  have hobject : ∀ f : MemRayDefs → Def, (∀ r, f r ∈ r.defs) → ∀ x, P.objectRayIn.map f = some x → x ∈ P.defs :=
    fun f hf x hx => by
      obtain ⟨r, hr, rfl⟩ := Option.map_eq_some'.1 hx
      exact P.mem_defs_of_objectRay hr (hf r)
  have hglobal : ∀ f : RtGlobalsDefs → Def, f P.globals ∈ P.globals.defs → ∀ x, some (f P.globals) = some x → x ∈ P.defs :=
    fun f hf x hx => Option.some_inj.1 hx ▸ P.mem_defs_of_globals hf
  have hhit : ∀ hit, P.hitIn = some hit → ∀ v ∈ hit.defs, R v.index :=
    fun hit h v hv => hP v (P.mem_defs_of_hit h hv)
  cases op <;> dsimp only [rtSysval]
  case loadRayLaunchId =>
    exact .map (Inserted.nirAluIn (by simpa using hP _ (by simp [RtPreamble.defs]))) fun _ _ h => h
  case loadRayLaunchSize => exact hpure _ (hglobal (·.launchSize) (by simp [RtGlobalsDefs.defs]))
  case loadRayWorldOrigin => exact hpure _ (hworld _ fun r => by simp [MemRayDefs.defs])
  case loadRayWorldDirection => exact hpure _ (hworld _ fun r => by simp [MemRayDefs.defs])
  case loadRayObjectOrigin => exact hpure _ (hobject _ fun r => by simp [MemRayDefs.defs])
  case loadRayObjectDirection => exact hpure _ (hobject _ fun r => by simp [MemRayDefs.defs])
  case loadRayTMin => exact hpure _ (hworld _ fun r => by simp [MemRayDefs.defs])
  case loadRayTMax =>
    refine hpure _ fun x hx => ?_
    split at hx
    · exact hworld _ (fun r => by simp [MemRayDefs.defs]) x hx
    · obtain ⟨hit, hh, rfl⟩ := Option.map_eq_some'.1 hx
      exact P.mem_defs_of_hit hh (by simp [MemHitDefs.defs])
  case loadPrimitiveId =>
    split
    · exact .map (primitiveId_builds (hhit _ ‹_›)) fun _ _ h => h
    · exact hpure none (by simp)
  case loadInstanceId =>
    exact instanceLeafField_builds hE (fun h hh => hhit h hh _ (by simp [MemHitDefs.defs]))
      fun leaf _ hv => List.mem_singleton.1 hv ▸ by simp [InstanceLeafDefs.defs]
  case loadRayObjectToWorld =>
    exact .ite (fun _ => instanceLeafField_builds hE (fun h hh => hhit h hh _ (by simp [MemHitDefs.defs]))
      fun leaf v hv => by simp [InstanceLeafDefs.defs, List.get?_mem (Option.mem_toList.1 hv)])
      fun _ => hpure none (by simp)
  case loadRayWorldToObject =>
    exact .ite (fun _ => instanceLeafField_builds hE (fun h hh => hhit h hh _ (by simp [MemHitDefs.defs]))
      fun leaf v hv => by simp [InstanceLeafDefs.defs, List.get?_mem (Option.mem_toList.1 hv)])
      fun _ => hpure none (by simp)
  case loadRayHitKind =>
    split
    · exact .map (hitKind_builds (hhit _ ‹_›)) fun _ _ h => h
    · exact hpure none (by simp)
  case loadRayFlags =>
    split
    · exact .map (Inserted.nirAluIn (by simpa using hP _ (P.mem_defs_of_worldRay ‹_› (by simp [MemRayDefs.defs]))))
        fun _ _ h => h
    · exact hpure none (by simp)
  case loadRayGeometryIndex =>
    split
    · exact .bindIn (primLeafDword1_builds (hhit _ ‹_› _ (by simp [MemHitDefs.defs]))) fun w hw =>
        .map ((Inserted.nirIandImm (hw w (List.mem_singleton_self _))).mono
          (fun v h => h.elim id fun h => .inr (h ▸ List.mem_singleton_self _)) fun _ h => h) fun _ _ h => h
    · exact hpure none (by simp)
  case loadRayInstanceCustomIndex =>
    exact instanceLeafField_builds hE (fun h hh => hhit h hh _ (by simp [MemHitDefs.defs]))
      fun leaf _ hv => List.mem_singleton.1 hv ▸ by simp [InstanceLeafDefs.defs]
  case loadShaderRecordPtr => exact .map (Inserted.nirIntrinsicIn rfl rfl (by simp)) fun _ _ h => h
  case loadRayBaseMemAddrIntel => exact hpure _ (hglobal (·.baseMemAddr) (by simp [RtGlobalsDefs.defs]))
  case loadRayHwStackSizeIntel =>
    have hm : P.globals.hwStackSize ∈ P.defs := P.mem_defs_of_globals (by simp [RtGlobalsDefs.defs])
    exact .map ((Inserted.nirImulImm (hP _ hm)).mono (fun v h => h.elim id fun h => h ▸ hm) fun _ h => h)
      fun _ _ h => h
  case loadRaySwStackSizeIntel =>
    have hm : P.globals.swStackSize ∈ P.defs := P.mem_defs_of_globals (by simp [RtGlobalsDefs.defs])
    exact .map ((Inserted.nirImulImm (hP _ hm)).mono (fun v h => h.elim id fun h => h ▸ hm) fun _ h => h)
      fun _ _ h => h
  case loadRayNumDssRtStacksIntel =>
    exact hpure _ (hglobal (·.numDssRtStacks) (by simp [RtGlobalsDefs.defs]))
  case loadRayHitSbtAddrIntel => exact hpure _ (hglobal (·.hitSbtAddr) (by simp [RtGlobalsDefs.defs]))
  case loadRayHitSbtStrideIntel => exact hpure _ (hglobal (·.hitSbtStride) (by simp [RtGlobalsDefs.defs]))
  case loadRayMissSbtAddrIntel => exact hpure _ (hglobal (·.missSbtAddr) (by simp [RtGlobalsDefs.defs]))
  case loadRayMissSbtStrideIntel =>
    exact hpure _ (hglobal (·.missSbtStride) (by simp [RtGlobalsDefs.defs]))
  case loadCallableSbtAddrIntel => exact hpure _ (hglobal (·.callSbtAddr) (by simp [RtGlobalsDefs.defs]))
  case loadCallableSbtStrideIntel =>
    exact hpure _ (hglobal (·.callSbtStride) (by simp [RtGlobalsDefs.defs]))
  case loadBtdResumeSbtAddrIntel =>
    exact .bind (Inserted.nirIntrinsic rfl (by simp)) fun a ha => .bind (Inserted.nirIntrinsic rfl (by simp))
      fun c hc => .map (Inserted.nirAluIn (by simp [ha, hc])) fun _ _ h => h
  case loadLeafProceduralIntel =>
    split
    · exact .map (buildLeafIsProcedural_builds (hhit _ ‹_› _ (by simp [MemHitDefs.defs]))) fun _ _ h => h
    · exact hpure none (by simp)
  case loadLeafOpaqueIntel =>
    split
    · exact .map (leafOpaque_builds (hhit _ ‹_›) (P.mem_defs_of_hit ‹_› (by simp [MemHitDefs.defs])))
        fun _ _ h => h
    · exact hpure none (by simp)
  all_goals exact hpure none (by simp)

/-- A push stores the callee's stack offset with code reading the walk's offset. -/
theorem stackPush_builds {P : RtPreamble} {st : RtState} (hz : R P.hotzoneAddr.index)
    (hs : R st.stackBaseOffset.index) (range : BitVec 32) :
    Builds (Inserted R RtWalkCall) (stackPush P st range) (fun _ => True) := by
  unfold stackPush
  exact .ite (fun _ => .bind (Inserted.nirIaddImm hs) fun _ ho => Inserted.nirStoreGlobal rfl hz ho)
    fun _ => .pure trivial

/-- A resume computes the new stack offset and base address from the walk's. -/
theorem resume_builds {P : RtPreamble} {st : RtState} (hz : R P.hotzoneAddr.index)
    (ht : R P.threadStackBaseAddr.index) (hs : st.Avail R) (range : BitVec 32) :
    Builds (Inserted R RtWalkCall) (resume P st range) (RtState.Avail R) := by
  unfold resume
  exact .ite (fun _ => .bind (Inserted.nirIaddImm hs.offset) fun _ ho =>
    .bind (Inserted.nirStoreGlobal rfl hz ho) fun _ _ => .bind (Inserted.nirU2u64 ho) fun _ hu =>
    .bind (Inserted.nirAlu2 ht hu) fun _ ha => .pure ⟨ho, ha⟩) fun _ => .pure hs

/-- After a resume the stack base address is the one before or a value its code defines. -/
theorem resume_addr {P : RtPreamble} {st : RtState} (hz : R P.hotzoneAddr.index)
    (ht : R P.threadStackBaseAddr.index) (hs : st.Avail R) (range : BitVec 32) :
    BuildsIn (Inserted R RtWalkCall) (· = st.stackBaseAddr) RtKeeps (resume P st range)
      (fun st' => [st'.stackBaseAddr]) (fun d => R d.index) := by
  unfold resume
  exact .ite (fun _ => .bind (Inserted.nirIaddImm hs.offset) fun _ ho =>
    .bind (Inserted.nirStoreGlobal rfl hz ho) fun _ _ => .bind (Inserted.nirU2u64 ho) fun _ hu =>
    .bindIn (Inserted.nirAluIn (by simp [ht, hu])) fun _ ha => .pure (by simpa using ha))
    fun _ => .pure (by simp [hs.addr])

/-- A block of push constants is loaded at an address the inserted code computes. -/
theorem loadPushBlock_builds (offset : Nat) :
    Builds (Inserted R RtWalkCall) (loadPushBlock offset) (fun d => R d.index) := by
  unfold loadPushBlock
  exact .bind (Inserted.nirIntrinsic rfl (by simp)) fun _ hg => .bind (Inserted.nirIaddImm hg) fun _ ha =>
    .bind Inserted.nirImmIntN fun _ ht => Inserted.nirIntrinsic rfl (by simp [ha, ht])

/-- `load_uniform` inserts code calling no handled intrinsic and defines the value it returns;
its code reads the offset `src` only if that is not a constant. -/
theorem lowerLoadUniform_builds {d : Def} {src : Nat} {c : Option Nat} {ix : Indices}
    (hsrc : c = none → R src) :
    BuildsIn (Inserted R RtWalkCall) S RtKeeps (lowerLoadUniform E d src c ix) ([·]) (fun d => R d.index) := by
  unfold lowerLoadUniform
  split
  · exact .bind (loadPushBlock_builds _) fun _ h₀ => .bind (loadPushBlock_builds _) fun _ h₁ =>
      Inserted.nirAluIn (by simp [h₀, h₁])
  · exact .bind (Inserted.nirIaddImm (hsrc rfl)) fun _ ho => .bind (Inserted.nirIntrinsic rfl (by simp))
      fun _ hg => .bind (Inserted.nirU2u64 ho) fun _ hu => .bind (Inserted.nirAlu2 hg hu) fun _ ha =>
      Inserted.nirIntrinsicIn rfl rfl (by simp [ha])

/-- `load_uniform` at an offset that is not a constant, renamed: its code reads `src` and values it
defines, and renaming `src` renames that read. -/
theorem lowerLoadUniform_none_rename {f : Nat → Nat} {n : Nat} (hf : ∀ x, n ≤ x → f x = x)
    (d : Def) (src : Nat) (ix : Indices) :
    lowerLoadUniform E d (f src) none ix ⟨n, []⟩ =
      ((lowerLoadUniform E d src none ix ⟨n, []⟩).1,
        ⟨(lowerLoadUniform E d src none ix ⟨n, []⟩).2.ssaAlloc,
          (lowerLoadUniform E d src none ix ⟨n, []⟩).2.emitted.map (·.mapSrcs f)⟩) := by
  simp only [lowerLoadUniform, nirIaddImm]
  split <;> simp (disch := omega) [bind, StateT.bind, pure, StateT.pure, nirIntrinsic, nirU2u64, nirIadd,
    nirAlu2, nirAlu, nirImmIntN, Instr.mapSrcs, hf]

/-- The value of a `load_uniform` at a computed offset is defined after the cursor it starts at. -/
theorem lowerLoadUniform_none_new (d : Def) (src : Nat) (ix : Indices) (n : Nat) :
    n ≤ (lowerLoadUniform E d src none ix ⟨n, []⟩).1.index := by
  simp only [lowerLoadUniform, nirIaddImm]
  split <;> simp [bind, StateT.bind, pure, StateT.pure, nirIntrinsic, nirU2u64, nirIadd, nirAlu2, nirAlu,
    nirImmIntN] <;> omega

end Builds

end MesaSim.Rt
