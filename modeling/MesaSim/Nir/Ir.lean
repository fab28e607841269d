import Mathlib.Data.List.Basic
import Mathlib.Tactic.Ring

/-!
# NIR instructions, blocks and the builder

The part of NIR the lowering passes of `brw_nir_lower_cs_intrinsics.c` (`:34–244`) and
`brw_nir_lower_rt_intrinsics.c` (`:47–410`) read and write. A value is an SSA definition
(`nir_ssa_def`) named by its index; an instruction reads values by index, as a `nir_src`
points at its definition. A block is its instruction list and a function implementation the
list of its blocks in `nir_foreach_block` order, entry block first. The builder functions
(`nir_builder.h`) append instructions at the cursor and number their definitions from
`impl->ssa_alloc`.
-/

namespace MesaSim.Nir

/-- `nir_ssa_def`: the value's index in its function and its shape. -/
structure Def where
  index : Nat
  numComponents : Nat
  bitSize : Nat
  deriving DecidableEq, Repr

/-- The intrinsics the two passes lower, read or emit; `other` stands for every other one. -/
inductive IntrinsicOp
  | loadLocalGroupSize
  | loadWorkGroupId
  | loadNumWorkGroups
  | loadLocalInvocationIndex
  | loadLocalInvocationId
  | loadNumSubgroups
  | loadSubgroupId
  | loadSimdWidthIntel
  | loadSubgroupInvocation
  | loadScratchBasePtr
  | btdStackPushIntel
  | btdResumeIntel
  | loadUniform
  | loadRayLaunchId
  | loadRayLaunchSize
  | loadRayWorldOrigin
  | loadRayWorldDirection
  | loadRayObjectOrigin
  | loadRayObjectDirection
  | loadRayTMin
  | loadRayTMax
  | loadPrimitiveId
  | loadInstanceId
  | loadRayObjectToWorld
  | loadRayWorldToObject
  | loadRayHitKind
  | loadRayFlags
  | loadRayGeometryIndex
  | loadRayInstanceCustomIndex
  | loadShaderRecordPtr
  | loadRayBaseMemAddrIntel
  | loadRayHwStackSizeIntel
  | loadRaySwStackSizeIntel
  | loadRayNumDssRtStacksIntel
  | loadRayHitSbtAddrIntel
  | loadRayHitSbtStrideIntel
  | loadRayMissSbtAddrIntel
  | loadRayMissSbtStrideIntel
  | loadCallableSbtAddrIntel
  | loadCallableSbtStrideIntel
  | loadBtdResumeSbtAddrIntel
  | loadLeafProceduralIntel
  | loadLeafOpaqueIntel
  | loadGlobal
  | storeGlobal
  | loadGlobalConstant
  | loadGlobalConstBlockIntel
  | loadBtdGlobalArgAddrIntel
  | loadBtdLocalArgAddrIntel
  | loadRelocConstIntel
  | other (id : Nat)
  deriving Repr

namespace IntrinsicOp

/-- The intrinsics the passes name, in the order above. -/
private def named : List IntrinsicOp :=
  [loadLocalGroupSize, loadWorkGroupId, loadNumWorkGroups, loadLocalInvocationIndex,
    loadLocalInvocationId, loadNumSubgroups, loadSubgroupId, loadSimdWidthIntel,
    loadSubgroupInvocation, loadScratchBasePtr, btdStackPushIntel, btdResumeIntel, loadUniform,
    loadRayLaunchId, loadRayLaunchSize, loadRayWorldOrigin, loadRayWorldDirection,
    loadRayObjectOrigin, loadRayObjectDirection, loadRayTMin, loadRayTMax, loadPrimitiveId,
    loadInstanceId, loadRayObjectToWorld, loadRayWorldToObject, loadRayHitKind, loadRayFlags,
    loadRayGeometryIndex, loadRayInstanceCustomIndex, loadShaderRecordPtr,
    loadRayBaseMemAddrIntel, loadRayHwStackSizeIntel, loadRaySwStackSizeIntel,
    loadRayNumDssRtStacksIntel, loadRayHitSbtAddrIntel, loadRayHitSbtStrideIntel,
    loadRayMissSbtAddrIntel, loadRayMissSbtStrideIntel, loadCallableSbtAddrIntel,
    loadCallableSbtStrideIntel, loadBtdResumeSbtAddrIntel, loadLeafProceduralIntel,
    loadLeafOpaqueIntel, loadGlobal, storeGlobal, loadGlobalConstant, loadGlobalConstBlockIntel,
    loadBtdGlobalArgAddrIntel, loadBtdLocalArgAddrIntel, loadRelocConstIntel]

/-- A number for each intrinsic: its place among the named ones, or past them for `other`. -/
def code : IntrinsicOp → Nat
  | loadLocalGroupSize => 0
  | loadWorkGroupId => 1
  | loadNumWorkGroups => 2
  | loadLocalInvocationIndex => 3
  | loadLocalInvocationId => 4
  | loadNumSubgroups => 5
  | loadSubgroupId => 6
  | loadSimdWidthIntel => 7
  | loadSubgroupInvocation => 8
  | loadScratchBasePtr => 9
  | btdStackPushIntel => 10
  | btdResumeIntel => 11
  | loadUniform => 12
  | loadRayLaunchId => 13
  | loadRayLaunchSize => 14
  | loadRayWorldOrigin => 15
  | loadRayWorldDirection => 16
  | loadRayObjectOrigin => 17
  | loadRayObjectDirection => 18
  | loadRayTMin => 19
  | loadRayTMax => 20
  | loadPrimitiveId => 21
  | loadInstanceId => 22
  | loadRayObjectToWorld => 23
  | loadRayWorldToObject => 24
  | loadRayHitKind => 25
  | loadRayFlags => 26
  | loadRayGeometryIndex => 27
  | loadRayInstanceCustomIndex => 28
  | loadShaderRecordPtr => 29
  | loadRayBaseMemAddrIntel => 30
  | loadRayHwStackSizeIntel => 31
  | loadRaySwStackSizeIntel => 32
  | loadRayNumDssRtStacksIntel => 33
  | loadRayHitSbtAddrIntel => 34
  | loadRayHitSbtStrideIntel => 35
  | loadRayMissSbtAddrIntel => 36
  | loadRayMissSbtStrideIntel => 37
  | loadCallableSbtAddrIntel => 38
  | loadCallableSbtStrideIntel => 39
  | loadBtdResumeSbtAddrIntel => 40
  | loadLeafProceduralIntel => 41
  | loadLeafOpaqueIntel => 42
  | loadGlobal => 43
  | storeGlobal => 44
  | loadGlobalConstant => 45
  | loadGlobalConstBlockIntel => 46
  | loadBtdGlobalArgAddrIntel => 47
  | loadBtdLocalArgAddrIntel => 48
  | loadRelocConstIntel => 49
  | other id => 50 + id

/-- The intrinsic numbered `n`. -/
def ofCode (n : Nat) : IntrinsicOp :=
  if h : n < named.length then named.get ⟨n, h⟩ else other (n - 50)

theorem ofCode_code (op : IntrinsicOp) : ofCode op.code = op := by
  cases op
  case other id =>
    have hn : named.length = 50 := rfl
    show ofCode (50 + id) = other id
    rw [ofCode, dif_neg (by omega), Nat.add_sub_cancel_left]
  all_goals rfl

/-- Equality of intrinsics is decided on their numbers, which tell them apart. -/
instance : DecidableEq IntrinsicOp := fun a b =>
  decidable_of_iff (a.code = b.code)
    ⟨fun h => by rw [← ofCode_code a, h, ofCode_code], congrArg code⟩

end IntrinsicOp

/-- The ALU opcodes the passes emit; `mov` carries its swizzle (`nir_channel`, `nir_channels`)
and `vec n` builds an `n`-component vector. -/
inductive AluOp
  | iadd
  | imul
  | ishl
  | ishr
  | iand
  | ior
  | umod
  | udiv
  | ieq
  | bcsel
  | u2u32
  | u2u64
  | i2b
  | pack64Split
  /-- `nir_extract_bits` of its sources from bit `start` on, modelled as one instruction. -/
  | extractBits (start : Nat)
  | mov (swizzle : List Nat)
  | vec (n : Nat)
  | other (id : Nat)
  deriving DecidableEq, Repr

/-- The constant indices of an intrinsic that the passes read or set: `BASE`, `RANGE`, `COLUMN`
and `WRITE_MASK`. -/
structure Indices where
  base : Nat
  range : BitVec 32
  column : Nat
  writeMask : Nat
  deriving DecidableEq, Repr

/-- No constant index set. -/
def Indices.none : Indices := ⟨0, 0, 0, 0⟩

/-- A NIR instruction: the value it defines, if any, and the values it reads. -/
inductive Instr
  /-- `nir_intrinsic_instr`. -/
  | intrinsic (op : IntrinsicOp) (dest : Option Def) (srcs : List Nat) (indices : Indices)
  /-- `nir_alu_instr`. -/
  | alu (op : AluOp) (dest : Def) (srcs : List Nat)
  /-- `nir_load_const_instr`, one value per component. -/
  | loadConst (dest : Def) (value : List Nat)
  /-- Any other instruction (phis, jumps, calls, texture and memory instructions). -/
  | other (dest : Option Def) (srcs : List Nat)
  deriving DecidableEq, Repr

namespace Instr

/-- The value an instruction defines. -/
def dest? : Instr → Option Def
  | intrinsic _ d _ _ => d
  | alu _ d _ => some d
  | loadConst d _ => some d
  | other d _ => d

/-- The values an instruction reads. -/
def srcs : Instr → List Nat
  | intrinsic _ _ s _ => s
  | alu _ _ s => s
  | loadConst _ _ => []
  | other _ s => s

/-- The intrinsic an instruction is, if it is one. -/
def intrinsic? : Instr → Option IntrinsicOp
  | intrinsic op _ _ _ => some op
  | _ => none

/-- The instruction with every source `s` reading `f s` instead. -/
def mapSrcs (f : Nat → Nat) : Instr → Instr
  | intrinsic op d s ix => intrinsic op d (s.map f) ix
  | alu op d s => alu op d (s.map f)
  | loadConst d v => loadConst d v
  | other d s => other d (s.map f)

/-- `nir_ssa_def_rewrite_uses(d, v)` on one instruction. -/
def rewriteUses (d v : Nat) (i : Instr) : Instr := i.mapSrcs fun s => if s = d then v else s

@[simp] theorem dest?_mapSrcs (f : Nat → Nat) (i : Instr) : (i.mapSrcs f).dest? = i.dest? := by
  cases i <;> rfl

@[simp] theorem intrinsic?_mapSrcs (f : Nat → Nat) (i : Instr) :
    (i.mapSrcs f).intrinsic? = i.intrinsic? := by
  cases i <;> rfl

@[simp] theorem srcs_mapSrcs (f : Nat → Nat) (i : Instr) : (i.mapSrcs f).srcs = i.srcs.map f := by
  cases i <;> rfl

theorem mapSrcs_mapSrcs (f g : Nat → Nat) (i : Instr) :
    (i.mapSrcs f).mapSrcs g = i.mapSrcs (g ∘ f) := by
  cases i <;> simp [mapSrcs]

theorem mapSrcs_id (i : Instr) : i.mapSrcs id = i := by
  cases i <;> simp [mapSrcs]

/-- Renaming values an instruction does not read leaves it alone. -/
theorem mapSrcs_eq_self {f : Nat → Nat} {i : Instr} (h : ∀ x ∈ i.srcs, f x = x) : i.mapSrcs f = i := by
  cases i <;> simp only [srcs] at h <;> simp [mapSrcs, List.map_congr_left h]

theorem rewriteUses_of_not_mem {d v : Nat} {i : Instr} (h : d ∉ i.srcs) : i.rewriteUses d v = i :=
  mapSrcs_eq_self fun x hx => if_neg fun (e : x = d) => h (e ▸ hx)

end Instr

/-- The values a list of instructions defines, in order. -/
def defsOf (is : List Instr) : List Nat := is.filterMap fun i => i.dest?.map (·.index)

@[simp] theorem defsOf_append (is js : List Instr) : defsOf (is ++ js) = defsOf is ++ defsOf js :=
  List.filterMap_append ..

@[simp] theorem defsOf_cons (i : Instr) (is : List Instr) :
    defsOf (i :: is) = (i.dest?.map (·.index)).toList ++ defsOf is := by
  unfold defsOf; cases h : i.dest? <;> simp [h]

/-- A basic block: its instructions in order. -/
abbrev Block := List Instr

/-- `nir_function_impl`: its blocks in `nir_foreach_block` order, entry block first, and
`ssa_alloc`, the next free value index. -/
structure Impl where
  blocks : List Block
  ssaAlloc : Nat
  deriving DecidableEq, Repr

/-- The function is in SSA form as far as the walks need: no value is defined twice, and every
value lies below `ssa_alloc`. -/
structure Impl.SsaOk (impl : Impl) : Prop where
  nodup : (defsOf impl.blocks.flatten).Nodup
  lt : ∀ x ∈ defsOf impl.blocks.flatten, x < impl.ssaAlloc

instance (impl : Impl) : Decidable impl.SsaOk :=
  decidable_of_iff ((defsOf impl.blocks.flatten).Nodup ∧ ∀ x ∈ defsOf impl.blocks.flatten, x < impl.ssaAlloc)
    ⟨fun h => ⟨h.1, h.2⟩, fun h => ⟨h.1, h.2⟩⟩

/-- The stages the passes distinguish. -/
inductive Stage
  | compute
  | kernel
  | raygen
  | anyHit
  | closestHit
  | intersection
  | miss
  | callable
  | other
  deriving DecidableEq, Repr

/-- `nir->info.cs.derivative_group`. -/
inductive DerivativeGroup
  | none
  | quads
  | linear
  deriving DecidableEq, Repr

/-- The compute-shader part of `shader_info` the passes read. -/
structure CsInfo where
  localSizeVariable : Bool
  localSize : Nat × Nat × Nat
  derivativeGroup : DerivativeGroup
  deriving DecidableEq, Repr

/-- `nir_shader`: its stage, compute info and functions, each with its implementation if it
has one. -/
structure Shader where
  stage : Stage
  cs : CsInfo
  functions : List (Option Impl)
  deriving DecidableEq, Repr

/-! ### The builder -/

/-- `nir_builder` at a cursor: the next free value index and the instructions it inserted at
the cursor, in order. -/
structure Builder where
  ssaAlloc : Nat
  emitted : List Instr
  deriving Repr

/-- Builder actions. -/
abbrev BuildM := StateM Builder

/-- `nir_builder_instr_insert` of an instruction defining a fresh value. -/
def Builder.insert (mk : Def → Instr) (numComponents bitSize : Nat) : BuildM Def :=
  fun b =>
    let d : Def := ⟨b.ssaAlloc, numComponents, bitSize⟩
    (d, ⟨b.ssaAlloc + 1, b.emitted ++ [mk d]⟩)

@[simp] theorem Builder.insert_apply (mk : Def → Instr) (numComponents bitSize : Nat) (b : Builder) :
    Builder.insert mk numComponents bitSize b =
      (⟨b.ssaAlloc, numComponents, bitSize⟩,
        ⟨b.ssaAlloc + 1, b.emitted ++ [mk ⟨b.ssaAlloc, numComponents, bitSize⟩]⟩) := rfl

/-- `nir_builder_instr_insert` of an instruction defining no value. -/
def Builder.insertVoid (i : Instr) : BuildM Unit := fun b => ((), ⟨b.ssaAlloc, b.emitted ++ [i]⟩)

/-- `nir_imm_intN_t`: a one-component constant, truncated to its width. -/
def nirImmIntN (x bitSize : Nat) : BuildM Def :=
  Builder.insert (fun d => .loadConst d [x % 2 ^ bitSize]) 1 bitSize

/-- `nir_imm_int`. -/
def nirImmInt (x : Nat) : BuildM Def := nirImmIntN x 32

/-- `nir_imm_true`: a one-bit `true`. -/
def nirImmTrue : BuildM Def := nirImmIntN 1 1

/-- A system-value or memory intrinsic with a destination. -/
def nirIntrinsic (op : IntrinsicOp) (numComponents bitSize : Nat) (srcs : List Def)
    (indices : Indices) : BuildM Def :=
  Builder.insert (fun d => .intrinsic op (some d) (srcs.map (·.index)) indices) numComponents bitSize

/-- An ALU instruction. -/
def nirAlu (op : AluOp) (srcs : List Def) (numComponents bitSize : Nat) : BuildM Def :=
  Builder.insert (fun d => .alu op d (srcs.map (·.index))) numComponents bitSize

/-- A two-source ALU operation whose result has its first source's shape. -/
def nirAlu2 (op : AluOp) (a b : Def) : BuildM Def := nirAlu op [a, b] a.numComponents a.bitSize

/-- `nir_iadd`. -/
def nirIadd : Def → Def → BuildM Def := nirAlu2 .iadd

/-- `nir_imul`. -/
def nirImul : Def → Def → BuildM Def := nirAlu2 .imul

/-- `nir_ishl`. -/
def nirIshl : Def → Def → BuildM Def := nirAlu2 .ishl

/-- `nir_ishr`. -/
def nirIshr : Def → Def → BuildM Def := nirAlu2 .ishr

/-- `nir_iand`. -/
def nirIand : Def → Def → BuildM Def := nirAlu2 .iand

/-- `nir_ior`. -/
def nirIor : Def → Def → BuildM Def := nirAlu2 .ior

/-- `nir_umod`. -/
def nirUmod : Def → Def → BuildM Def := nirAlu2 .umod

/-- `nir_udiv`. -/
def nirUdiv : Def → Def → BuildM Def := nirAlu2 .udiv

/-- `nir_u2u64`. -/
def nirU2u64 (a : Def) : BuildM Def := nirAlu .u2u64 [a] a.numComponents 64

/-- `nir_channel`: one component, as a swizzled `mov`. -/
def nirChannel (a : Def) (c : Nat) : BuildM Def := nirAlu (.mov [c]) [a] 1 a.bitSize

/-- `nir_vec3`. -/
def nirVec3 (x y z : Def) : BuildM Def := nirAlu (.vec 3) [x, y, z] 3 x.bitSize

/-- `nir_iadd_imm`: the immediate is truncated to the width, and adding zero emits nothing. -/
def nirIaddImm (x : Def) (y : Nat) : BuildM Def :=
  if y % 2 ^ x.bitSize = 0 then pure x
  else do
    let c ← nirImmIntN y x.bitSize
    nirIadd x c

/-- `nir_imm_false`: a one-bit `false`. -/
def nirImmFalse : BuildM Def := nirImmIntN 0 1

/-- The components a write mask or `nir_channels` mask selects, in order. -/
def maskComponents (mask : Nat) : List Nat := (List.range 16).filter mask.testBit

/-- `nir_channels`: the components `mask` selects, as a swizzled `mov`. -/
def nirChannels (a : Def) (mask : Nat) : BuildM Def :=
  nirAlu (.mov (maskComponents mask)) [a] (maskComponents mask).length a.bitSize

/-- `nir_ieq`: a one-bit comparison. -/
def nirIeq (a b : Def) : BuildM Def := nirAlu .ieq [a, b] a.numComponents 1

/-- `nir_bcsel`: the result has the shape of the value selected when `c` holds. -/
def nirBcsel (c a b : Def) : BuildM Def := nirAlu .bcsel [c, a, b] a.numComponents a.bitSize

/-- `nir_u2u32`. -/
def nirU2u32 (a : Def) : BuildM Def := nirAlu .u2u32 [a] a.numComponents 32

/-- `nir_i2b`: a one-bit boolean. -/
def nirI2b (a : Def) : BuildM Def := nirAlu .i2b [a] a.numComponents 1

/-- `nir_pack_64_2x32_split`. -/
def nirPack64_2x32Split (lo hi : Def) : BuildM Def := nirAlu .pack64Split [lo, hi] lo.numComponents 64

/-- `nir_iand_imm`: the mask is truncated to the width; a zero mask gives zero and a full mask
the value itself. -/
def nirIandImm (x : Def) (y : Nat) : BuildM Def :=
  if y % 2 ^ x.bitSize = 0 then nirImmIntN 0 x.bitSize
  else if y % 2 ^ x.bitSize = 2 ^ x.bitSize - 1 then pure x
  else do
    let c ← nirImmIntN (y % 2 ^ x.bitSize) x.bitSize
    nirIand x c

/-- `util_is_power_of_two_or_zero64`. -/
def isPowerOfTwoOrZero (v : Nat) : Bool := v &&& (v - 1) == 0

/-- `nir_imul_imm`: the factor is truncated to the width; zero and one need no multiply, and a
power of two is a shift unless the shader lowers bit operations. -/
def nirImulImm (lowerBitops : Bool) (x : Def) (y : Nat) : BuildM Def :=
  if y % 2 ^ x.bitSize = 0 then nirImmIntN 0 x.bitSize
  else if y % 2 ^ x.bitSize = 1 then pure x
  else if !lowerBitops && isPowerOfTwoOrZero (y % 2 ^ x.bitSize) then do
    let c ← nirImmInt (Nat.log2 (y % 2 ^ x.bitSize))
    nirIshl x c
  else do
    let c ← nirImmIntN (y % 2 ^ x.bitSize) x.bitSize
    nirImul x c

/-- `nir_load_global`: a load of `numComponents` values of `bitSize` bits at `addr`. -/
def nirLoadGlobal (addr : Def) (numComponents bitSize : Nat) : BuildM Def :=
  nirIntrinsic .loadGlobal numComponents bitSize [addr] .none

/-- `nir_store_global`: store the components of `value` that `writeMask` selects at `addr`. -/
def nirStoreGlobal (addr value : Def) (writeMask : Nat) : BuildM Unit :=
  Builder.insertVoid (.intrinsic .storeGlobal none [value.index, addr.index] { Indices.none with writeMask })

end MesaSim.Nir
