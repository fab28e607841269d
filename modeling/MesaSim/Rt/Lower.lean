import MesaSim.Nir.Walk

/-!
# `brw_nir_lower_rt_intrinsics`

The pass of `brw_nir_lower_rt_intrinsics.c:27–410` over the NIR model. At the top of the entry
block it loads the dispatch globals, the hotzone and, by stage, the hit and ray records, and
computes the stack base address from the hotzone's first dword (`:53–86`); then it walks every
block (`:88–378`), replacing each ray-tracing system value by a value of the records or by code
computing it, and turning `btd_stack_push_intel` and `btd_resume_intel` into stores to the
hotzone.

The helpers of `brw_nir_rt_builder.h` and the constants of `brw_rt.h`, which the sources do not
contain, are parameters (`RtEnv`), and so is `nir->options->lower_bitops`. The assertions are
not modelled: this is the pass of a release build. A record the stage does not load is missing;
where the C code reads a field of it the intrinsic is left alone, as the NULL `sysval` leaves
it, and where the C code would compute with such a field, or index a matrix past its fourth
column, the model leaves the intrinsic alone too. C leaves the order in which a call's
arguments are evaluated unspecified; nested builder calls are taken left to right.
-/

namespace MesaSim.Rt
open MesaSim.Nir

/-- `struct brw_nir_rt_globals_defs`: the fields of `RT_DISPATCH_GLOBALS` the pass reads. -/
structure RtGlobalsDefs where
  baseMemAddr : Def
  hwStackSize : Def
  numDssRtStacks : Def
  hitSbtAddr : Def
  hitSbtStride : Def
  missSbtAddr : Def
  missSbtStride : Def
  swStackSize : Def
  launchSize : Def
  callSbtAddr : Def
  callSbtStride : Def
  deriving Repr

/-- `struct brw_nir_rt_mem_ray_defs`: the fields of a MemRay the pass reads. -/
structure MemRayDefs where
  orig : Def
  dir : Def
  tNear : Def
  tFar : Def
  rayFlags : Def
  deriving Repr

/-- `struct brw_nir_rt_mem_hit_defs`: the fields of a MemHit the pass reads. -/
structure MemHitDefs where
  t : Def
  aabbHitKind : Def
  leafType : Def
  primLeafIndex : Def
  frontFace : Def
  primLeafPtr : Def
  instLeafPtr : Def
  deriving Repr

/-- `struct brw_nir_rt_bvh_instance_leaf_defs`: the instance's transforms, column by column,
and its ids. -/
structure InstanceLeafDefs where
  objectToWorld : List Def
  worldToObject : List Def
  instanceId : Def
  instanceIndex : Def
  deriving Repr

/-- `BRW_RT_BVH_LEVEL_WORLD` and `BRW_RT_BVH_LEVEL_OBJECT`. -/
inductive BvhLevel
  | world
  | object
  deriving DecidableEq, Repr

/-- What the pass calls or reads that its source file does not define: the builder helpers of
`brw_nir_rt_builder.h` (with the device info bound), constants of `brw_rt.h` and
`brw_compiler.h`, and the shader option `lower_bitops`. -/
structure RtEnv where
  /-- `brw_nir_rt_load_globals`. -/
  loadGlobals : BuildM RtGlobalsDefs
  /-- `brw_nir_rt_sw_hotzone_addr`. -/
  swHotzoneAddr : BuildM Def
  /-- `brw_nir_rt_load_mem_hit`, of the committed hit when the flag is set. -/
  loadMemHit : Bool → BuildM MemHitDefs
  /-- `brw_nir_rt_load_mem_ray`. -/
  loadMemRay : BvhLevel → BuildM MemRayDefs
  /-- `brw_nir_rt_sw_stack_addr`. -/
  swStackAddr : BuildM Def
  /-- `brw_nir_rt_load_bvh_instance_leaf`, at a leaf's address. -/
  loadBvhInstanceLeaf : Def → BuildM InstanceLeafDefs
  /-- `BRW_RT_BVH_NODE_TYPE_PROCEDURAL`. -/
  bvhNodeTypeProcedural : Nat
  /-- `BRW_RT_HIT_KIND_FRONT_FACE`. -/
  hitKindFrontFace : Nat
  /-- `BRW_RT_HIT_KIND_BACK_FACE`. -/
  hitKindBackFace : Nat
  /-- `BRW_RT_PUSH_CONST_OFFSET`. -/
  pushConstOffset : Nat
  /-- `BRW_SHADER_RELOC_RESUME_SBT_ADDR_LOW`. -/
  relocResumeSbtAddrLow : Nat
  /-- `BRW_SHADER_RELOC_RESUME_SBT_ADDR_HIGH`. -/
  relocResumeSbtAddrHigh : Nat
  /-- `nir->options->lower_bitops`. -/
  lowerBitops : Bool

/-! ### The preamble -/

/-- The values the preamble computes that the walk reads but never changes (`:55–83`); a
record is `none` if the stage does not load it. -/
structure RtPreamble where
  globals : RtGlobalsDefs
  hotzoneAddr : Def
  hotzone : Def
  worldRayIn : Option MemRayDefs
  objectRayIn : Option MemRayDefs
  hitIn : Option MemHitDefs
  threadStackBaseAddr : Def

/-- The records a stage loads (`:64–82`): MemHit and the object-space MemRay in any-hit,
closest-hit and intersection shaders, the world-space MemRay in those and in miss shaders. -/
def loadRecords (E : RtEnv) (stage : Stage) :
    BuildM (Option MemHitDefs × Option MemRayDefs × Option MemRayDefs) :=
  match stage with
  | .anyHit | .closestHit | .intersection => do
    let hit ← E.loadMemHit (stage == .closestHit)
    let objectRay ← E.loadMemRay .object
    let worldRay ← E.loadMemRay .world
    pure (some hit, some objectRay, some worldRay)
  | .miss => do
    let worldRay ← E.loadMemRay .world
    pure (none, none, some worldRay)
  | _ => pure (none, none, none)

/-- The preamble after the dispatch globals (`:60–89`): the hotzone, the records, and the
initial `stack_base_offset` and `stack_base_addr`. -/
def rtPreambleRecords (E : RtEnv) (stage : Stage) (globals : RtGlobalsDefs) :
    BuildM (RtPreamble × Def × Def) := do
  let hotzoneAddr ← E.swHotzoneAddr
  let hotzone ← nirLoadGlobal hotzoneAddr 4 32
  let records ← loadRecords E stage
  let threadStackBaseAddr ← E.swStackAddr
  let stackBaseOffset ← nirChannel hotzone 0
  let stackBaseAddr ← nirIadd threadStackBaseAddr (← nirU2u64 stackBaseOffset)
  pure (⟨globals, hotzoneAddr, hotzone, records.2.2, records.2.1, records.1, threadStackBaseAddr⟩,
    stackBaseOffset, stackBaseAddr)

/-- The code inserted at the top of the entry block before the walk (`:53–89`): the values the
walk reads, and the initial `stack_base_offset` and `stack_base_addr`, the dispatch globals
first. -/
def rtPreamble (E : RtEnv) (stage : Stage) : BuildM (RtPreamble × Def × Def) := do
  let globals ← E.loadGlobals
  rtPreambleRecords E stage globals

/-! ### The walk -/

/-- The state of the walk: `stack_base_offset` and `stack_base_addr`, which a resume moves, and
the constants of the code inserted so far, which with those of the input are the
`load_const` instructions `nir_src_is_const` can find. -/
structure RtState where
  stackBaseOffset : Def
  stackBaseAddr : Def
  consts : List (Nat × Nat)
  deriving Repr

/-- The values of the `load_const` instructions of some code, by value index. -/
def constsOf (code : List Instr) : List (Nat × Nat) :=
  code.filterMap fun
    | .loadConst d (c :: _) => some (d.index, c)
    | _ => none

/-- `nir_src_is_const` and `nir_src_as_uint` during the walk: the constant defining a value,
among the constants inserted so far or those of the input. -/
def RtState.srcConst (st : RtState) (input : Nat → Option Nat) (x : Nat) : Option Nat :=
  (st.consts.lookup x).orElse fun _ => input x

/-- `build_leaf_is_procedural` (`:27–44`): whether the hit leaf is procedural geometry; never
in an any-hit shader, always in an intersection shader, else read off the leaf type. -/
def buildLeafIsProcedural (E : RtEnv) (stage : Stage) (hit : MemHitDefs) : BuildM Def :=
  match stage with
  | .anyHit => nirImmFalse
  | .intersection => nirImmTrue
  | _ => do nirIeq hit.leafType (← nirImmInt E.bvhNodeTypeProcedural)

/-- A field of the BVH instance leaf of the current hit (`:238–256`, `:288–293`). -/
def instanceLeafField (E : RtEnv) (hit : Option MemHitDefs) (field : InstanceLeafDefs → Option Def) :
    BuildM (Option Def) :=
  match hit with
  | some hit => do
    let leaf ← E.loadBvhInstanceLeaf hit.instLeafPtr
    pure (field leaf)
  | none => pure none

/-- `primitive_id`: dword 3 of a procedural leaf, dword 2 of a quad leaf (`:220–236`). -/
def primitiveId (E : RtEnv) (stage : Stage) (hit : MemHitDefs) : BuildM Def := do
  let offset ← nirBcsel (← buildLeafIsProcedural E stage hit) (← nirIaddImm hit.primLeafIndex 12)
    (← nirImmInt 8)
  nirLoadGlobal (← nirIadd hit.primLeafPtr (← nirU2u64 offset)) 1 32

/-- The hit kind: the AABB hit kind of a procedural hit, else front or back face
(`:258–266`). -/
def hitKind (E : RtEnv) (stage : Stage) (hit : MemHitDefs) : BuildM Def := do
  let triHitKind ← nirBcsel hit.frontFace (← nirImmInt E.hitKindFrontFace)
    (← nirImmInt E.hitKindBackFace)
  nirBcsel (← buildLeafIsProcedural E stage hit) hit.aabbHitKind triHitKind

/-- Dword 1 of the primitive leaf, which holds the geometry index and flags (`:272–278`,
`:355–366`). -/
def primLeafDword1 (hit : MemHitDefs) : BuildM Def := do
  nirLoadGlobal (← nirIaddImm hit.primLeafPtr 4) 1 32

/-- The opaque bit: the front-face bit in an intersection shader, bit 30 of the leaf's flags
otherwise (`:348–367`). -/
def leafOpaque (stage : Stage) (hit : MemHitDefs) : BuildM Def :=
  if stage = .intersection then pure hit.frontFace
  else do nirI2b (← nirIandImm (← primLeafDword1 hit) (1 <<< 30))

/-- The value replacing a system-value intrinsic (`:187–370`), read from the preamble's records
or computed from them after the intrinsic; `none` where `sysval` stays NULL (`default:` and the
fields of records the stage does not load), or the C code would compute with such a field. -/
def rtSysval (E : RtEnv) (stage : Stage) (P : RtPreamble) (op : IntrinsicOp) (ix : Indices) :
    BuildM (Option Def) :=
  match op with
  | .loadRayLaunchId => some <$> nirChannels P.hotzone 0xe
  | .loadRayLaunchSize => pure (some P.globals.launchSize)
  | .loadRayWorldOrigin => pure (P.worldRayIn.map (·.orig))
  | .loadRayWorldDirection => pure (P.worldRayIn.map (·.dir))
  | .loadRayObjectOrigin => pure (P.objectRayIn.map (·.orig))
  | .loadRayObjectDirection => pure (P.objectRayIn.map (·.dir))
  | .loadRayTMin => pure (P.worldRayIn.map (·.tNear))
  | .loadRayTMax => pure (if stage = .miss then P.worldRayIn.map (·.tFar) else P.hitIn.map (·.t))
  | .loadPrimitiveId =>
    match P.hitIn with
    | some hit => some <$> primitiveId E stage hit
    | none => pure none
  | .loadInstanceId => instanceLeafField E P.hitIn fun leaf => some leaf.instanceIndex
  | .loadRayObjectToWorld =>
    if ix.column < 4 then instanceLeafField E P.hitIn (·.objectToWorld.get? ix.column)
    else pure none
  | .loadRayWorldToObject =>
    if ix.column < 4 then instanceLeafField E P.hitIn (·.worldToObject.get? ix.column)
    else pure none
  | .loadRayHitKind =>
    match P.hitIn with
    | some hit => some <$> hitKind E stage hit
    | none => pure none
  | .loadRayFlags =>
    match P.worldRayIn with
    | some ray => some <$> nirU2u32 ray.rayFlags
    | none => pure none
  | .loadRayGeometryIndex =>
    match P.hitIn with
    | some hit => do some <$> nirIandImm (← primLeafDword1 hit) (2 ^ 29 - 1)
    | none => pure none
  | .loadRayInstanceCustomIndex => instanceLeafField E P.hitIn fun leaf => some leaf.instanceId
  | .loadShaderRecordPtr => some <$> nirIntrinsic .loadBtdLocalArgAddrIntel 1 64 [] .none
  | .loadRayBaseMemAddrIntel => pure (some P.globals.baseMemAddr)
  | .loadRayHwStackSizeIntel => some <$> nirImulImm E.lowerBitops P.globals.hwStackSize 64
  | .loadRaySwStackSizeIntel => some <$> nirImulImm E.lowerBitops P.globals.swStackSize 64
  | .loadRayNumDssRtStacksIntel => pure (some P.globals.numDssRtStacks)
  | .loadRayHitSbtAddrIntel => pure (some P.globals.hitSbtAddr)
  | .loadRayHitSbtStrideIntel => pure (some P.globals.hitSbtStride)
  | .loadRayMissSbtAddrIntel => pure (some P.globals.missSbtAddr)
  | .loadRayMissSbtStrideIntel => pure (some P.globals.missSbtStride)
  | .loadCallableSbtAddrIntel => pure (some P.globals.callSbtAddr)
  | .loadCallableSbtStrideIntel => pure (some P.globals.callSbtStride)
  | .loadBtdResumeSbtAddrIntel => do
    some <$> nirPack64_2x32Split
      (← nirIntrinsic .loadRelocConstIntel 1 32 [] { Indices.none with base := E.relocResumeSbtAddrLow })
      (← nirIntrinsic .loadRelocConstIntel 1 32 [] { Indices.none with base := E.relocResumeSbtAddrHigh })
  | .loadLeafProceduralIntel =>
    match P.hitIn with
    | some hit => some <$> buildLeafIsProcedural E stage hit
    | none => pure none
  | .loadLeafOpaqueIntel =>
    match P.hitIn with
    | some hit => some <$> leafOpaque stage hit
    | none => pure none
  | _ => pure none

/-- One 64-byte block of the push constants, at `offset` past the global argument address
(`:160–165`). -/
def loadPushBlock (offset : Nat) : BuildM Def := do
  let addr ← nirIaddImm (← nirIntrinsic .loadBtdGlobalArgAddrIntel 1 64 [] .none) offset
  nirIntrinsic .loadGlobalConstBlockIntel 16 32 [addr, ← nirImmTrue] .none

/-- `load_uniform` outside the launch trampoline (`:144–185`), reading the push constants
`BRW_RT_PUSH_CONST_OFFSET` bytes past the global argument address: from the two 64-byte blocks
around a constant offset, or at an address computed from the 32-bit offset `src`. -/
def lowerLoadUniform (E : RtEnv) (d : Def) (src : Nat) (srcConst : Option Nat) (ix : Indices) :
    BuildM Def :=
  match srcConst with
  | some c => do
    let offset := (E.pushConstOffset + ix.base + c) % 2 ^ 64
    let suboffset := offset % 64
    let data0 ← loadPushBlock (offset - suboffset)
    let data1 ← loadPushBlock (offset - suboffset + 64)
    nirAlu (.extractBits (suboffset * 8)) [data0, data1] d.numComponents d.bitSize
  | none => do
    let offset32 ← nirIaddImm ⟨src, 1, 32⟩ (E.pushConstOffset + ix.base)
    let addr ← nirIadd (← nirIntrinsic .loadBtdGlobalArgAddrIntel 1 64 [] .none) (← nirU2u64 offset32)
    nirIntrinsic .loadGlobalConstant d.numComponents d.bitSize [addr] .none

/-- `btd_stack_push_intel` of a positive range `S` (`:108–117`): store `stack_base_offset + S`,
the callee's stack offset, to the first dword of the hotzone. -/
def stackPush (P : RtPreamble) (st : RtState) (range : BitVec 32) : BuildM Unit :=
  if 0 < range.toInt then do
    nirStoreGlobal P.hotzoneAddr (← nirIaddImm st.stackBaseOffset range.toNat) 1
  else pure ()

/-- `btd_resume_intel` of a positive range `S` (`:119–134`): move `stack_base_offset` down by
`S`, store it to the hotzone, and recompute `stack_base_addr`. -/
def resume (P : RtPreamble) (st : RtState) (range : BitVec 32) : BuildM RtState :=
  if 0 < range.toInt then do
    let offset ← nirIaddImm st.stackBaseOffset (2 ^ 64 - range.toNat)
    nirStoreGlobal P.hotzoneAddr offset 1
    let addr ← nirIadd P.threadStackBaseAddr (← nirU2u64 offset)
    pure { st with stackBaseOffset := offset, stackBaseAddr := addr }
  else pure st

/-- The cases of the `switch` of the walk (`:102–370`). -/
inductive RtCase
  | stackPush
  | resume
  | scratchBasePtr
  | uniform
  /-- A system value, or `default: continue`. -/
  | sysval
  deriving DecidableEq, Repr

/-- The intrinsics the `switch` has a case for (`:102–368`). -/
def rtHandles : IntrinsicOp → Bool
  | .loadScratchBasePtr | .btdStackPushIntel | .btdResumeIntel | .loadUniform | .loadRayLaunchId
  | .loadRayLaunchSize | .loadRayWorldOrigin | .loadRayWorldDirection | .loadRayObjectOrigin
  | .loadRayObjectDirection | .loadRayTMin | .loadRayTMax | .loadPrimitiveId | .loadInstanceId
  | .loadRayObjectToWorld | .loadRayWorldToObject | .loadRayHitKind | .loadRayFlags
  | .loadRayGeometryIndex | .loadRayInstanceCustomIndex | .loadShaderRecordPtr
  | .loadRayBaseMemAddrIntel | .loadRayHwStackSizeIntel | .loadRaySwStackSizeIntel
  | .loadRayNumDssRtStacksIntel | .loadRayHitSbtAddrIntel | .loadRayHitSbtStrideIntel
  | .loadRayMissSbtAddrIntel | .loadRayMissSbtStrideIntel | .loadCallableSbtAddrIntel
  | .loadCallableSbtStrideIntel | .loadBtdResumeSbtAddrIntel | .loadLeafProceduralIntel
  | .loadLeafOpaqueIntel => true
  | _ => false

/-- The case of the `switch` an intrinsic takes. -/
def rtCase : IntrinsicOp → RtCase
  | .btdStackPushIntel => .stackPush
  | .btdResumeIntel => .resume
  | .loadScratchBasePtr => .scratchBasePtr
  | .loadUniform => .uniform
  | _ => .sysval

/-- Removing an intrinsic whose value is now `sysval` (`:372–377`). -/
def replaced (d sysval : Def) : Visit := ⟨none, some (.all d.index sysval.index)⟩

/-- The body of the walk (`:94–377`), with `srcConst` for `nir_src_is_const`. -/
def lowerRtIntrinsicsInstr (E : RtEnv) (stage : Stage) (P : RtPreamble)
    (srcConst : Nat → Option Nat) (i : Instr) (st : RtState) : BuildM (Visit × RtState) :=
  match i with
  | .intrinsic op dest srcs ix =>
    match rtCase op, dest, srcs with
    | .stackPush, _, _ => do
      stackPush P st ix.range
      pure (⟨none, none⟩, st)
    | .resume, _, _ => do pure (⟨none, none⟩, ← resume P st ix.range)
    | .scratchBasePtr, some d, _ => pure (replaced d st.stackBaseAddr, st)
    | .uniform, some d, src :: _ =>
      if stage = .compute then pure (⟨some i, none⟩, st)
      else do pure (replaced d (← lowerLoadUniform E d src (srcConst src) ix), st)
    | .sysval, some d, _ => do
      match ← rtSysval E stage P op ix with
      | some v => pure (replaced d v, st)
      | none => pure (⟨some i, none⟩, st)
    | _, _, _ => pure (⟨some i, none⟩, st)
  | _ => pure (⟨some i, none⟩, st)

/-- A visit with the constants of the code it inserts added to the state. -/
def withInsertedConsts (m : BuildM (Visit × RtState)) : BuildM (Visit × RtState) := fun b =>
  let r := m b
  ((r.1.1, { r.1.2 with consts := r.1.2.consts ++ constsOf (r.2.emitted.drop b.emitted.length) }), r.2)

/-- The walk body, looking up constants among those inserted and those of the input. -/
def lowerRtIntrinsicsBody (E : RtEnv) (stage : Stage) (P : RtPreamble) (input : Nat → Option Nat)
    (i : Instr) (st : RtState) : BuildM (Visit × RtState) :=
  withInsertedConsts (lowerRtIntrinsicsInstr E stage P (st.srcConst input) i st)

/-- The constants of the `load_const` instructions of a function. -/
def inputConsts (impl : Impl) (x : Nat) : Option Nat := (constsOf impl.blocks.flatten).lookup x

/-- Code inserted before the first instruction of the entry block (or, over the recorded walk,
the pieces of that code before those of the entry block). -/
def insertAtStart {α : Type} (code : List α) : List (List α) → List (List α)
  | [] => [code]
  | b :: bs => (code ++ b) :: bs

/-- `lower_rt_intrinsics_impl` (`:46–381`): insert the preamble at the top of the entry block,
then walk the function with it, blocks in order, `stack_base_offset` carried across them. -/
def lowerRtIntrinsicsImpl (E : RtEnv) (stage : Stage) (impl : Impl) : Impl :=
  let r := rtPreamble E stage ⟨impl.ssaAlloc, []⟩
  (walkImpl (lowerRtIntrinsicsBody E stage r.1.1 (inputConsts impl)) id
    ⟨insertAtStart r.2.emitted impl.blocks, r.2.ssaAlloc⟩ ⟨r.1.2.1, r.1.2.2, constsOf r.2.emitted⟩).1

/-- `brw_nir_lower_rt_intrinsics` (`:402–410`): lower every function with an implementation. -/
def brwNirLowerRtIntrinsics (E : RtEnv) (nir : Shader) : Shader :=
  { nir with functions := nir.functions.map (·.map (lowerRtIntrinsicsImpl E nir.stage)) }

end MesaSim.Rt
