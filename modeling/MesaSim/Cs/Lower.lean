import MesaSim.Nir.Walk

/-!
# `brw_nir_lower_cs_intrinsics`

The pass of `brw_nir_lower_cs_intrinsics.c:34–244` over the NIR model: in every block it
replaces `load_local_invocation_index` and `load_local_invocation_id` by values computed from
the subgroup id and lane, once per block, replaces `load_num_subgroups` by a rounded-up
division, and narrows 64-bit `load_local_group_size`, `load_work_group_id` and
`load_num_work_groups` to 32 bits with a zero extension for their uses. C leaves the order in
which a call's arguments are evaluated unspecified; the builder calls nested as arguments are
taken left to right. The assertions of `brw_nir_lower_cs_intrinsics` are not modelled.
-/

namespace MesaSim.Cs
open MesaSim.Nir

/-- The pass state: the values computed in the current block (`local_index`, `local_id`) and
`state->progress`. -/
structure CsState where
  cache : Option (Def × Def)
  progress : Bool
  deriving Repr

/-- `size_x` and `size_y` (`:81–89`): read from `load_local_group_size` when the workgroup
size is variable, constants otherwise. -/
def localSizeXY (cs : CsInfo) : BuildM (Def × Def) :=
  if cs.localSizeVariable then do
    let sizeXyz ← nirIntrinsic .loadLocalGroupSize 3 32 [] .none
    pure (← nirChannel sizeXyz 0, ← nirChannel sizeXyz 1)
  else do
    pure (← nirImmInt cs.localSize.1, ← nirImmInt cs.localSize.2.1)

/-- The computation of `local_index` and `local_id` from the subgroup id and lane
(`:73–149`). -/
def computeLocalIds (cs : CsInfo) : BuildM (Def × Def) := do
  let subgroupId ← nirIntrinsic .loadSubgroupId 1 32 [] .none
  let simdWidth ← nirIntrinsic .loadSimdWidthIntel 1 32 [] .none
  let threadLocalId ← nirImul subgroupId simdWidth
  let channel ← nirIntrinsic .loadSubgroupInvocation 1 32 [] .none
  let linear ← nirIadd channel threadLocalId
  let (sizeX, sizeY) ← localSizeXY cs
  if cs.derivativeGroup ≠ .quads then
    let idX ← nirUmod linear sizeX
    let idY ← nirUmod (← nirUdiv linear sizeX) sizeY
    let idZ ← nirUdiv linear (← nirImul sizeX sizeY)
    pure (linear, ← nirVec3 idX idY idZ)
  else
    let one ← nirImmInt 1
    let doubleSizeX ← nirIshl sizeX one
    let rowPairId ← nirUmod linear doubleSizeX
    let yRowPairs ← nirUdiv linear doubleSizeX
    let x ← nirIor (← nirIand rowPairId one)
      (← nirIand (← nirIshr rowPairId one) (← nirImmInt 0xfffffffe))
    let y ← nirIor (← nirIshl yRowPairs one) (← nirIand (← nirIshr rowPairId one) one)
    let localId ← nirVec3 x (← nirUmod y sizeY) (← nirUdiv y sizeY)
    pure (← nirIadd x (← nirImul y sizeX), localId)

/-- The number of invocations of a workgroup (`:163–175`). -/
def workgroupSize (cs : CsInfo) : BuildM Def :=
  if cs.localSizeVariable then do
    let sizeXyz ← nirIntrinsic .loadLocalGroupSize 3 32 [] .none
    let sizeX ← nirChannel sizeXyz 0
    let sizeY ← nirChannel sizeXyz 1
    let sizeZ ← nirChannel sizeXyz 2
    nirImul (← nirImul sizeX sizeY) sizeZ
  else nirImmInt (cs.localSize.1 * cs.localSize.2.1 * cs.localSize.2.2)

/-- The value replacing `load_num_subgroups`: the workgroup size divided by the SIMD width,
rounded up (`:162–181`). -/
def computeNumSubgroups (cs : CsInfo) : BuildM Def := do
  let size ← workgroupSize cs
  let simdWidth ← nirIntrinsic .loadSimdWidthIntel 1 32 [] .none
  nirUdiv (← nirIaddImm (← nirIadd size simdWidth) 0xffffffffffffffff) simdWidth

/-- The cases of the `switch` of `lower_cs_intrinsics_convert_block` (`:54–185`). -/
inductive CsCase
  /-- `load_local_group_size`, `load_work_group_id`, `load_num_work_groups`. -/
  | narrow
  /-- `load_local_invocation_index` (`false`) or `load_local_invocation_id` (`true`). -/
  | localIds (isId : Bool)
  | numSubgroups
  /-- `default: continue`. -/
  | skip
  deriving DecidableEq, Repr

/-- The case of the `switch` an intrinsic takes. -/
def csCase : IntrinsicOp → CsCase
  | .loadLocalGroupSize | .loadWorkGroupId | .loadNumWorkGroups => .narrow
  | .loadLocalInvocationIndex => .localIds false
  | .loadLocalInvocationId => .localIds true
  | .loadNumSubgroups => .numSubgroups
  | _ => .skip

/-- `local_index` and `local_id`: those of the block if computed already, else computed now
(`:69–149`). -/
def localIds (cs : CsInfo) (st : CsState) : BuildM (Def × Def) :=
  match st.cache with
  | some p => pure p
  | none => computeLocalIds cs

/-- The end of a lowered case (`:187–193`): widen to 64 bits if the destination is, rewrite
every use, remove the intrinsic, and record progress. -/
def replaceIntrinsic (d : Def) (sysval : Def) (st : CsState) : BuildM (Visit × CsState) := do
  let sysval ← if d.bitSize = 64 then nirU2u64 sysval else pure sysval
  pure (⟨none, some (.all d.index sysval.index)⟩, { st with progress := true })

/-- The body of `nir_foreach_instr_safe` in `lower_cs_intrinsics_convert_block`
(`:46–194`). -/
def lowerCsIntrinsicsConvertInstr (cs : CsInfo) (i : Instr) (st : CsState) :
    BuildM (Visit × CsState) :=
  match i with
  | .intrinsic op (some d) srcs ix =>
    match csCase op with
    | .narrow =>
      if d.bitSize = 64 then do
        let d32 := { d with bitSize := 32 }
        let sysval ← nirU2u64 d32
        pure (⟨some (.intrinsic op (some d32) srcs ix), some (.after d.index sysval.index)⟩, st)
      else pure (⟨some i, none⟩, st)
    | .localIds isId => do
      let p ← localIds cs st
      replaceIntrinsic d (if isId then p.2 else p.1) { st with cache := some p }
    | .numSubgroups => do replaceIntrinsic d (← computeNumSubgroups cs) st
    | .skip => pure (⟨some i, none⟩, st)
  | _ => pure (⟨some i, none⟩, st)

/-- Entering a block: its `local_index` and `local_id` start out `NULL` (`:43–44`). -/
def enterBlock (st : CsState) : CsState := { st with cache := none }

/-- `lower_cs_intrinsics_convert_impl` (`:199–210`). -/
def lowerCsIntrinsicsConvertImpl (cs : CsInfo) (impl : Impl) (st : CsState) : Impl × CsState :=
  walkImpl (lowerCsIntrinsicsConvertInstr cs) enterBlock impl st

/-- The loop of `brw_nir_lower_cs_intrinsics` over the functions (`:236–241`). -/
def lowerCsFunctions (cs : CsInfo) : List (Option Impl) → CsState → List (Option Impl) × CsState
  | [], st => ([], st)
  | none :: fs, st =>
    let (fs, st) := lowerCsFunctions cs fs st
    (none :: fs, st)
  | some impl :: fs, st =>
    let (impl, st) := lowerCsIntrinsicsConvertImpl cs impl st
    let (fs, st) := lowerCsFunctions cs fs st
    (some impl :: fs, st)

/-- `brw_nir_lower_cs_intrinsics` (`:212–244`): the lowered shader and the progress it
reports. -/
def brwNirLowerCsIntrinsics (nir : Shader) : Shader × Bool :=
  let (fs, st) := lowerCsFunctions nir.cs nir.functions ⟨none, false⟩
  ({ nir with functions := fs }, st.progress)

/-- A kernel whose only affected instruction is a 64-bit `load_work_group_id`: the pass narrows
it and inserts its zero extension, so the shader changes, but the narrowing case leaves by
`continue` before `state->progress = true`, and the pass reports no progress. -/
theorem brwNirLowerCsIntrinsics_narrow_no_progress :
    let nir : Shader := ⟨.kernel, ⟨false, (1, 1, 1), .none⟩,
      [some ⟨[[.intrinsic .loadWorkGroupId (some ⟨0, 3, 64⟩) [] .none, .other none [0]]], 1⟩]⟩
    (brwNirLowerCsIntrinsics nir).1 ≠ nir ∧ (brwNirLowerCsIntrinsics nir).2 = false := by
  decide

end MesaSim.Cs
