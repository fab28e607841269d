import MesaSim.Nir.Eval
import MesaSim.Rt.Lower

/-!
# What the lowered system values compute

The values `lower_rt_intrinsics_impl` builds for `load_uniform`
(`brw_nir_lower_rt_intrinsics.c:138–185`) and for `load_primitive_id` (`:223–236`), run on the
value semantics of `MesaSim.Nir.Eval`.

A `load_uniform` with a constant offset loads the two 64-byte blocks of push constants around
the offset and extracts its components from their concatenation; with any other offset it loads
at the address it computes. Both read the components stored at the offset past the global
argument address, and the extracted span never leaves the two blocks.

`load_primitive_id` loads the dword at `prim_leaf_ptr + offset`, where the offset is 8 for a
quad leaf and `prim_leaf_index + 12` for a procedural one: a byte offset, where the index of
primitive `prim_leaf_index` of a procedural leaf is the dword `3 + prim_leaf_index`.

Each proof follows the code's `do` block, one `Computes` rule per builder call, with the value
of every intermediate result written out. The goals that a rule's inputs are among the values
computed so far are closed by `simp` without `List.subset_cons_of_subset`, whose failed side
conditions otherwise dominate the time.
-/

namespace MesaSim.Rt
open MesaSim.Nir

/-- Adding to a 64-bit value is adding its `BitVec`. -/
theorem ofNat_mod_add (a b : Nat) :
    BitVec.ofNat 64 ((a % 2 ^ 64 + b) % 2 ^ 64) = BitVec.ofNat 64 a + BitVec.ofNat 64 b := by
  apply BitVec.eq_of_toNat_eq
  simp only [BitVec.toNat_ofNat, BitVec.toNat_add]
  omega

theorem two_pow_eight_mul (m : Nat) : 2 ^ (8 * m) = 256 ^ m := by
  rw [pow_mul]; norm_num

section Rules

variable {M : Machine}

/-- `load_btd_global_arg_addr_intel`. -/
theorem globalArgAddr_computes (ins : List (Def × Val)) :
    Computes M ins (nirIntrinsic .loadBtdGlobalArgAddrIntel 1 64 [] .none)
      ⟨64, [M.sysval .loadBtdGlobalArgAddrIntel .none 0 % 2 ^ 64]⟩ :=
  (nirIntrinsic_computes .loadBtdGlobalArgAddrIntel [] .none rfl).weaken (List.nil_subset _)

/-- One block of push constants: the sixteen dwords `offset` bytes past the global argument
address. -/
theorem loadPushBlock_computes (offset : Nat) (ins : List (Def × Val)) :
    Computes M ins (loadPushBlock offset)
      ⟨32, M.load (M.globalArgAddr + BitVec.ofNat 64 offset) 16 32⟩ := by
  refine (globalArgAddr_computes ins).bind fun g hg => ?_
  refine ((nirIaddImm_computes (w := 64) offset hg
    (Nat.mod_lt (M.sysval .loadBtdGlobalArgAddrIntel .none 0) (by norm_num))).weaken
    (by simp [-List.subset_cons_of_subset])).bind fun a _ => ?_
  refine (nirImmIntN_computes 1 1 _).bind fun t _ => ?_
  refine ((nirIntrinsic_computes .loadGlobalConstBlockIntel
    [(a, ⟨64, [(M.sysval .loadBtdGlobalArgAddrIntel .none 0 % 2 ^ 64 + offset) % 2 ^ 64]⟩),
      (t, ⟨1, [1 % 2 ^ 1]⟩)] .none rfl).weaken
    (by simp [-List.subset_cons_of_subset])).congr_val ?_
  simp only [Machine.globalArgAddr, List.headD_cons, ofNat_mod_add]

/-- `nir_extract_bits` of two consecutive 64-byte blocks, from byte `sub` on: the components
stored from there, as long as they end inside the blocks. -/
theorem extractBits_blocks (A : BitVec 64) {sub n k : Nat} (h : sub + n * k ≤ 128) :
    extractBits [⟨32, M.load A 16 32⟩, ⟨32, M.load (A + BitVec.ofNat 64 64) 16 32⟩] (sub * 8) n
      (8 * k) = M.load (A + BitVec.ofNat 64 sub) n (8 * k) := by
  have hcat : concatBits [⟨32, M.load A 16 32⟩, ⟨32, M.load (A + BitVec.ofNat 64 64) 16 32⟩] =
      M.readLE A 128 := by
    have h₀ := M.bits_load A 16 4
    have h₁ := M.bits_load (A + BitVec.ofNat 64 64) 16 4
    norm_num at h₀ h₁
    simp only [concatBits, Machine.load, List.length_map, List.length_range] at h₀ h₁ ⊢
    rw [h₀, h₁, show 128 = 64 + 64 from rfl, M.readLE_add]
    norm_num
  unfold extractBits
  rw [hcat]
  unfold Machine.load
  refine List.map_congr_left fun i hi => ?_
  have hi : (i + 1) * k ≤ n * k := Nat.mul_le_mul_right k (List.mem_range.1 hi)
  rw [Nat.mul_div_cancel_left _ (by norm_num : 0 < 8),
    show sub * 8 + i * (8 * k) = 8 * (sub + i * k) by ring, two_pow_eight_mul, two_pow_eight_mul,
    M.readLE_div_mod A (by rw [Nat.succ_mul] at hi; omega), BitVec.add_assoc, BitVec.ofNat_add]

end Rules

/-! ### `load_uniform` -/

/-- The `numComponents` little-endian `bitSize`-bit values stored `offset` bytes past the global
argument address: what a `load_uniform` of the push constants at `offset` reads. -/
def pushConstantValue (M : Machine) (d : Def) (offset : Nat) : Val :=
  ⟨d.bitSize, M.load (M.globalArgAddr + BitVec.ofNat 64 offset) d.numComponents d.bitSize⟩

section Uniform

variable {M : Machine} (E : RtEnv) (d : Def) (src : Nat) (ix : Indices)

/-- A constant offset: the two blocks around it, and the components extracted from them, are
the components stored at it, for components of `k` bytes filling at most 64 bytes. -/
theorem lowerLoadUniform_const_computes (c : Nat) {k : Nat} (hs : d.bitSize = 8 * k)
    (hn : d.numComponents * k ≤ 64) (ins : List (Def × Val)) :
    Computes M ins (lowerLoadUniform E d src (some c) ix)
      (pushConstantValue M d ((E.pushConstOffset + ix.base + c) % 2 ^ 64)) := by
  simp only [lowerLoadUniform]
  set off := (E.pushConstOffset + ix.base + c) % 2 ^ 64
  have hsub : off - off % 64 + off % 64 = off := Nat.sub_add_cancel (Nat.mod_le _ _)
  refine (loadPushBlock_computes _ ins).bind fun d₀ _ => ?_
  refine (loadPushBlock_computes _ _).bind fun d₁ _ => ?_
  refine ((nirAlu_computes (.extractBits _)
    [(d₀, ⟨32, M.load (M.globalArgAddr + BitVec.ofNat 64 (off - off % 64)) 16 32⟩),
      (d₁, ⟨32, M.load (M.globalArgAddr + BitVec.ofNat 64 (off - off % 64 + 64)) 16 32⟩)]
    rfl).weaken (by simp [-List.subset_cons_of_subset])).congr_val ?_
  simp only [List.map_cons, List.map_nil, pushConstantValue, hs, BitVec.ofNat_add (off - off % 64),
    ← BitVec.add_assoc]
  rw [extractBits_blocks _ (by have := Nat.mod_lt off (show 64 > 0 by norm_num); omega),
    BitVec.add_assoc, ← BitVec.ofNat_add, hsub]

/-- A 32-bit offset `x` in `src`: the components stored at `x + BRW_RT_PUSH_CONST_OFFSET + base`,
modulo 2³². -/
theorem lowerLoadUniform_dynamic_computes {x : Nat} (hx : x < 2 ^ 32) (ins : List (Def × Val))
    (hsrc : (⟨src, 1, 32⟩, ⟨32, [x]⟩) ∈ ins) :
    Computes M ins (lowerLoadUniform E d src none ix)
      (pushConstantValue M d ((x + (E.pushConstOffset + ix.base)) % 2 ^ 32)) := by
  simp only [lowerLoadUniform]
  refine ((nirIaddImm_computes (w := 32) _ rfl hx).weaken (by simpa using hsrc)).bind
    fun o _ => ?_
  set off := (x + (E.pushConstOffset + ix.base)) % 2 ^ 32
  have h64 : off % 2 ^ 64 = off := Nat.mod_eq_of_lt (by omega)
  refine (globalArgAddr_computes _).bind fun g hg => ?_
  refine ((nirAlu_computes .u2u64 [(o, ⟨32, [off]⟩)] (c := [off % 2 ^ 64]) rfl).weaken
    (by simp [-List.subset_cons_of_subset])).bind fun u _ => ?_
  refine ((nirIadd_computes (x := M.sysval .loadBtdGlobalArgAddrIntel .none 0 % 2 ^ 64)
    (y := off % 2 ^ 64) (u := 64) hg).weaken
    (by simp [-List.subset_cons_of_subset])).bind fun a _ => ?_
  refine ((nirIntrinsic_computes .loadGlobalConstant [(a, ⟨64,
    [(M.sysval .loadBtdGlobalArgAddrIntel .none 0 % 2 ^ 64 + off % 2 ^ 64) % 2 ^ 64]⟩)] .none
    rfl).weaken (by simp [-List.subset_cons_of_subset])).congr_val ?_
  simp only [List.map_cons, List.map_nil, List.headD_cons, ofNat_mod_add, pushConstantValue,
    Machine.globalArgAddr, h64]

end Uniform

/-- A `load_uniform` of `d` at base `ix.base` and offset source `src`, lowered in a ray-tracing
stage: with the constant offset `c` the code reads the components stored at
`off = BRW_RT_PUSH_CONST_OFFSET + base + c`; with a 32-bit offset `x` in `src` it reads those
stored at `x + BRW_RT_PUSH_CONST_OFFSET + base`, so that the two paths agree on the same offset;
and the components extracted on the constant path end inside the two blocks it loads. -/
def UniformPathsAgree (M : Machine) (E : RtEnv) (d : Def) (src c : Nat) (ix : Indices) : Prop :=
  let off := (E.pushConstOffset + ix.base + c) % 2 ^ 64
  Computes M [] (lowerLoadUniform E d src (some c) ix) (pushConstantValue M d off) ∧
    (∀ x < 2 ^ 32, Computes M [(⟨src, 1, 32⟩, ⟨32, [x]⟩)] (lowerLoadUniform E d src none ix)
      (pushConstantValue M d ((x + (E.pushConstOffset + ix.base)) % 2 ^ 32))) ∧
    off % 64 * 8 + d.numComponents * d.bitSize ≤ 2 * (16 * 32)

theorem lowerLoadUniform_paths_agree (M : Machine) (E : RtEnv) (d : Def) (src c : Nat)
    (ix : Indices) (hn : d.numComponents ≤ 4)
    (hs : d.bitSize = 8 ∨ d.bitSize = 16 ∨ d.bitSize = 32 ∨ d.bitSize = 64) :
    UniformPathsAgree M E d src c ix := by
  have hk : d.bitSize = 8 * (d.bitSize / 8) := by omega
  have hnk : d.numComponents * (d.bitSize / 8) ≤ 4 * 8 := Nat.mul_le_mul hn (by omega)
  have hns : d.numComponents * d.bitSize ≤ 4 * 64 := Nat.mul_le_mul hn (by omega)
  have hsub := Nat.mod_lt ((E.pushConstOffset + ix.base + c) % 2 ^ 64) (show 64 > 0 by norm_num)
  exact ⟨lowerLoadUniform_const_computes E d src ix c hk (by omega) [],
    fun x hx => lowerLoadUniform_dynamic_computes E d src ix hx _ (List.mem_singleton_self _),
    by omega⟩

theorem lowerLoadUniform_paths_agree_vec4 :
    let M : Machine := ⟨fun a => BitVec.ofNat 8 a.toNat, fun _ _ _ => 0x10000⟩
    let z : Def := ⟨0, 1, 32⟩
    let E : RtEnv := ⟨pure ⟨z, z, z, z, z, z, z, z, z, z, z⟩, pure z,
      fun _ => pure ⟨z, z, z, z, z, z, z⟩, fun _ => pure ⟨z, z, z, z, z⟩, pure z,
      fun _ => pure ⟨[], [], z, z⟩, 3, 0xf, 0xe, 128, 0, 0, false⟩
    (⟨7, 4, 32⟩ : Def).numComponents ≤ 4 ∧ (⟨7, 4, 32⟩ : Def).bitSize = 32 ∧
      UniformPathsAgree M E ⟨7, 4, 32⟩ 5 56 Indices.none :=
  ⟨by decide, rfl, lowerLoadUniform_paths_agree _ _ ⟨7, 4, 32⟩ 5 56 .none (by decide)
    (.inr (.inr (.inl rfl)))⟩

/-! ### `load_primitive_id` -/

/-- Whether `build_leaf_is_procedural` holds of a hit whose leaf type is `leafType`: always in an
intersection shader, never in an any-hit shader, and otherwise when the leaf type is
`BRW_RT_BVH_NODE_TYPE_PROCEDURAL`. -/
def LeafIsProcedural (E : RtEnv) (stage : Stage) (leafType : Nat) : Prop :=
  stage = .intersection ∨ stage ≠ .anyHit ∧ leafType = E.bvhNodeTypeProcedural % 2 ^ 32

instance (E : RtEnv) (stage : Stage) (leafType : Nat) :
    Decidable (LeafIsProcedural E stage leafType) :=
  inferInstanceAs (Decidable (_ ∨ _ ∧ _))

section PrimitiveId

variable {M : Machine} (E : RtEnv) (stage : Stage) (hit : MemHitDefs)

theorem buildLeafIsProcedural_computes {w lt : Nat} (ins : List (Def × Val))
    (h : (hit.leafType, ⟨w, [lt]⟩) ∈ ins) :
    Computes M ins (buildLeafIsProcedural E stage hit)
      ⟨1, [if LeafIsProcedural E stage lt then 1 else 0]⟩ := by
  have hieq : Computes M ins (do nirIeq hit.leafType (← nirImmInt E.bvhNodeTypeProcedural))
      ⟨1, [if lt = E.bvhNodeTypeProcedural % 2 ^ 32 then 1 else 0]⟩ :=
    (nirImmIntN_computes _ 32 ins).bind fun c _ =>
      (nirAlu_computes .ieq
        [(hit.leafType, ⟨w, [lt]⟩), (c, ⟨32, [E.bvhNodeTypeProcedural % 2 ^ 32]⟩)] rfl).weaken (by simp [h])
  cases stage
  case anyHit => exact (nirImmIntN_computes 0 1 ins).congr_val (by simp [LeafIsProcedural])
  case intersection => exact (nirImmIntN_computes 1 1 ins).congr_val (by simp [LeafIsProcedural])
  all_goals exact hieq.congr_val (by
    simp only [LeafIsProcedural, reduceCtorEq, ne_eq, not_false_eq_true, true_and, false_or])

/-- The dword `primitive_id` loads: at byte `prim_leaf_index + 12` of a procedural leaf (modulo
the index's width), at byte 8 of a quad leaf. -/
theorem primitiveId_computes {w lt k ptr : Nat} (hk : k < 2 ^ hit.primLeafIndex.bitSize) :
    Computes M [(hit.leafType, ⟨w, [lt]⟩), (hit.primLeafIndex, ⟨hit.primLeafIndex.bitSize, [k]⟩),
        (hit.primLeafPtr, ⟨hit.primLeafPtr.bitSize, [ptr]⟩)]
      (primitiveId E stage hit)
      ⟨32, M.load (BitVec.ofNat 64 ((ptr + (if LeafIsProcedural E stage lt
        then (k + 12) % 2 ^ hit.primLeafIndex.bitSize else 8) % 2 ^ 64) %
          2 ^ hit.primLeafPtr.bitSize)) 1 32⟩ := by
  set off := if LeafIsProcedural E stage lt then (k + 12) % 2 ^ hit.primLeafIndex.bitSize else 8
    with hoff
  refine (buildLeafIsProcedural_computes E stage hit _ (List.mem_cons_self _ _)).bind
    fun c _ => ?_
  refine ((nirIaddImm_computes 12 rfl hk).weaken
    (by simp [-List.subset_cons_of_subset])).bind fun t _ => ?_
  refine (nirImmIntN_computes 8 32 _).bind fun e _ => ?_
  -- the selected offset
  refine (((nirAlu_computes .bcsel [(c, ⟨1, [if LeafIsProcedural E stage lt then 1 else 0]⟩),
    (t, ⟨hit.primLeafIndex.bitSize, [(k + 12) % 2 ^ hit.primLeafIndex.bitSize]⟩),
    (e, ⟨32, [8 % 2 ^ 32]⟩)] rfl).weaken (by simp [-List.subset_cons_of_subset])).congr_val
    (u := ⟨t.bitSize, [off]⟩) (by rw [hoff]; split_ifs <;> rfl)).bind fun o _ => ?_
  refine ((nirAlu_computes .u2u64 [(o, ⟨t.bitSize, [off]⟩)] (c := [off % 2 ^ 64]) rfl).weaken
    (by simp [-List.subset_cons_of_subset])).bind fun u _ => ?_
  refine ((nirIadd_computes (x := ptr) (y := off % 2 ^ 64) (u := 64) rfl).weaken
    (by simp [-List.subset_cons_of_subset])).bind fun a _ => ?_
  exact (nirIntrinsic_computes .loadGlobal
    [(a, ⟨hit.primLeafPtr.bitSize, [(ptr + off % 2 ^ 64) % 2 ^ hit.primLeafPtr.bitSize]⟩)] .none
    rfl).weaken (by simp [-List.subset_cons_of_subset])

end PrimitiveId

/-- The second primitive of a procedural leaf at `0x1000`, in an intersection shader, with a
memory holding at each address its low byte: the lowered `load_primitive_id` reads the dword at
byte `1 + 12 = 13` of the leaf, not `primIndex[1]`, the dword at byte `12 + 4 * 1 = 16`, and
byte 13 is not a multiple of the 4-byte alignment the load declares. -/
theorem primitiveId_procedural_byte_offset (E : RtEnv) :
    let M : Machine := ⟨fun a => BitVec.ofNat 8 a.toNat, fun _ _ _ => 0⟩
    let hit : MemHitDefs :=
      ⟨⟨0, 1, 32⟩, ⟨1, 1, 32⟩, ⟨2, 1, 32⟩, ⟨3, 1, 32⟩, ⟨4, 1, 1⟩, ⟨5, 1, 64⟩, ⟨6, 1, 64⟩⟩
    Computes M [(hit.leafType, ⟨32, [0]⟩), (hit.primLeafIndex, ⟨32, [1]⟩),
        (hit.primLeafPtr, ⟨64, [0x1000]⟩)] (primitiveId E .intersection hit)
        ⟨32, M.load (0x1000 + 13) 1 32⟩ ∧
      M.load (0x1000 + 13) 1 32 ≠ M.load (0x1000 + 16) 1 32 ∧ (0x1000 + 13) % 4 ≠ 0 := by
  refine ⟨(primitiveId_computes E .intersection _ (by decide)).congr_val ?_, by decide, by decide⟩
  simp [LeafIsProcedural]

end MesaSim.Rt
