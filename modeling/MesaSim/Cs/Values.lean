import MesaSim.Cs.Spec
import MesaSim.Cs.Invocation
import MesaSim.Nir.Exec

/-!
# What the lowered compute-shader system values compute

The code `lower_cs_intrinsics_convert_block` inserts (`brw_nir_lower_cs_intrinsics.c:73–181`),
run on the value semantics of `MesaSim.Nir.Eval`. Outside the quad branch it computes the linear
number `channel + subgroup_id * simd_width` and its split, `linearLocalIdIndex` of
`MesaSim.Cs.Invocation`, from the 32-bit system values and the workgroup size it reads
(`load_local_group_size`, or the constants); `load_num_subgroups` becomes
`(size + simd_width - 1) / simd_width`, which is `DIV_ROUND_UP` while the sum fits 32 bits. In
the quad branch it computes `quadLocalIdIndex`, the numbering in 2×2 quads.

On an invocation whose system values mean what the comment of `:90–102` and the subgroup layout
say (`LinearThread`), each replacement computes the value of the intrinsic it replaces, at 32
bits or, with its zero extension, at 64.
-/

namespace MesaSim.Cs
open MesaSim.Nir

/-- Component `i` of a system value as the inserted code loads it, at 32 bits. -/
def sysval32 (M : Machine) (op : IntrinsicOp) (i : Nat) : BitVec 32 :=
  BitVec.ofNat 32 (M.sysval op .none i)

/-- `size_x`, `size_y`, `size_z` as the inserted code reads them (`:81–89`, `:163–175`): the
components of `load_local_group_size` for a variable workgroup size, else the constants. -/
def groupSize (cs : CsInfo) (M : Machine) : Vec3 (BitVec 32) :=
  if cs.localSizeVariable then
    ⟨sysval32 M .loadLocalGroupSize 0, sysval32 M .loadLocalGroupSize 1,
      sysval32 M .loadLocalGroupSize 2⟩
  else
    ⟨BitVec.ofNat 32 cs.localSize.1, BitVec.ofNat 32 cs.localSize.2.1,
      BitVec.ofNat 32 cs.localSize.2.2⟩

/-- The invocation's linear number as the inserted code computes it (`:75–80`). -/
def threadLinear (M : Machine) : BitVec 32 :=
  linearInvocation (sysval32 M .loadSubgroupId 0) (sysval32 M .loadSimdWidthIntel 0)
    (sysval32 M .loadSubgroupInvocation 0)

/-- The number of invocations of the workgroup as the code computes it (`:163–175`): the
product of the three sizes in 32-bit arithmetic, or the constant product truncated to 32 bits. -/
def groupInvocations (cs : CsInfo) (M : Machine) : BitVec 32 :=
  if cs.localSizeVariable then
    imul (imul (groupSize cs M).x (groupSize cs M).y) (groupSize cs M).z
  else BitVec.ofNat 32 (cs.localSize.1 * cs.localSize.2.1 * cs.localSize.2.2)

/-- `DIV_ROUND_UP` as the code computes it (`:177–180`): `size + simd_width` plus the immediate
`-1`, divided by `simd_width`, in 32-bit arithmetic. -/
def numSubgroups (size simdWidth : BitVec 32) : BitVec 32 :=
  udiv (iadd (iadd size simdWidth) (BitVec.ofNat 32 0xffffffffffffffff)) simdWidth

/-- While `size + simd_width` fits 32 bits, the code's division rounds up. -/
theorem numSubgroups_toNat {size simdWidth : BitVec 32} (hw : 0 < simdWidth.toNat)
    (h : size.toNat + simdWidth.toNat ≤ 2 ^ 32) :
    (numSubgroups size simdWidth).toNat = (size.toNat + simdWidth.toNat - 1) / simdWidth.toNat := by
  have hs : ((size.toNat + simdWidth.toNat) % 2 ^ 32 + 0xffffffffffffffff % 2 ^ 32) % 2 ^ 32 =
      size.toNat + simdWidth.toNat - 1 := by omega
  rw [numSubgroups, toNat_udiv _ _ hw, toNat_iadd, toNat_iadd, BitVec.toNat_ofNat, hs]

/-! ### Rules for the 32-bit ALU operations -/

section Rules

variable {M : Machine}

theorem toNat_umod_eq {w : Nat} (x y : BitVec w) :
    (umod x y).toNat = if y.toNat = 0 then 0 else x.toNat % y.toNat := by
  by_cases h : y.toNat = 0
  · have : y = 0 := BitVec.eq_of_toNat_eq h
    simp [umod, this]
  · rw [if_neg h, toNat_umod _ _ (Nat.pos_of_ne_zero h)]

theorem toNat_udiv_eq {w : Nat} (x y : BitVec w) :
    (udiv x y).toNat = if y.toNat = 0 then 0 else x.toNat / y.toNat := by
  by_cases h : y.toNat = 0
  · have : y = 0 := BitVec.eq_of_toNat_eq h
    simp [udiv, this]
  · rw [if_neg h, toNat_udiv _ _ (Nat.pos_of_ne_zero h)]

/-- A two-source ALU instruction on 32-bit values computing the `BitVec` operation `f`, its
sources among the values computed so far. -/
theorem nirAlu2_computes {op : AluOp} {f : BitVec 32 → BitVec 32 → BitVec 32}
    (hf : ∀ n (x y : BitVec 32),
      evalAlu op n 32 [⟨32, [x.toNat]⟩, ⟨32, [y.toNat]⟩] = some [(f x y).toNat])
    {ins : List (Def × Val)} {a c : Def} {x y : BitVec 32} (ha : (a, ⟨32, [x.toNat]⟩) ∈ ins)
    (hc : (c, ⟨32, [y.toNat]⟩) ∈ ins) (hw : a.bitSize = 32) :
    Computes M ins (nirAlu2 op a c) ⟨32, [(f x y).toNat]⟩ := by
  rw [nirAlu2, hw]
  refine (nirAlu_computes op [(a, _), (c, _)] (hf a.numComponents x y)).weaken fun p hp => ?_
  rcases List.mem_pair.1 hp with rfl | rfl
  exacts [ha, hc]

theorem evalAlu_iadd (n : Nat) (x y : BitVec 32) :
    evalAlu .iadd n 32 [⟨32, [x.toNat]⟩, ⟨32, [y.toNat]⟩] = some [(iadd x y).toNat] := by
  rw [toNat_iadd]; rfl

theorem evalAlu_imul (n : Nat) (x y : BitVec 32) :
    evalAlu .imul n 32 [⟨32, [x.toNat]⟩, ⟨32, [y.toNat]⟩] = some [(imul x y).toNat] := by
  rw [toNat_imul]; rfl

theorem evalAlu_umod (n : Nat) (x y : BitVec 32) :
    evalAlu .umod n 32 [⟨32, [x.toNat]⟩, ⟨32, [y.toNat]⟩] = some [(umod x y).toNat] := by
  rw [toNat_umod_eq]; rfl

theorem evalAlu_udiv (n : Nat) (x y : BitVec 32) :
    evalAlu .udiv n 32 [⟨32, [x.toNat]⟩, ⟨32, [y.toNat]⟩] = some [(udiv x y).toNat] := by
  rw [toNat_udiv_eq]; rfl

theorem evalAlu_ishl (n : Nat) (x y : BitVec 32) :
    evalAlu .ishl n 32 [⟨32, [x.toNat]⟩, ⟨32, [y.toNat]⟩] = some [(ishl x y).toNat] := by
  rw [ishl, BitVec.toNat_shiftLeft, Nat.shiftLeft_eq]; rfl

theorem evalAlu_ishr (n : Nat) (x y : BitVec 32) :
    evalAlu .ishr n 32 [⟨32, [x.toNat]⟩, ⟨32, [y.toNat]⟩] = some [(ishr x y).toNat] := by
  show some [(ishr (BitVec.ofNat 32 x.toNat) (BitVec.ofNat 32 y.toNat)).toNat] = _
  rw [BitVec.ofNat_toNat, BitVec.ofNat_toNat, BitVec.setWidth_eq, BitVec.setWidth_eq]

theorem evalAlu_iand (n : Nat) (x y : BitVec 32) :
    evalAlu .iand n 32 [⟨32, [x.toNat]⟩, ⟨32, [y.toNat]⟩] = some [(iand x y).toNat] := by
  rw [toNat_iand]; rfl

theorem evalAlu_ior (n : Nat) (x y : BitVec 32) :
    evalAlu .ior n 32 [⟨32, [x.toNat]⟩, ⟨32, [y.toNat]⟩] = some [(ior x y).toNat] := by
  rw [toNat_ior]; rfl

/-- A 32-bit immediate as the `BitVec` it stands for. -/
theorem nirImmInt_computes (x : BitVec 32) (ins : List (Def × Val)) :
    Computes M ins (nirImmInt x.toNat) ⟨32, [x.toNat]⟩ :=
  (nirImmIntN_computes x.toNat 32 ins).congr_val (by rw [Nat.mod_eq_of_lt x.isLt])

/-- A system value of one component, loaded at 32 bits. -/
theorem sysval32_computes (op : IntrinsicOp)
    (h : evalIntrinsic M op 1 32 [] .none = some [(sysval32 M op 0).toNat])
    (ins : List (Def × Val)) :
    Computes M ins (nirIntrinsic op 1 32 [] .none) ⟨32, [(sysval32 M op 0).toNat]⟩ :=
  (nirIntrinsic_computes op [] .none h).weaken (List.nil_subset _)

/-- `nir_channel`: component `i` of a value. -/
theorem nirChannel_computes {a : Def} {v : Val} (hw : a.bitSize = v.bitSize) (i : Nat) :
    Computes M [(a, v)] (nirChannel a i) ⟨v.bitSize, [v.comps.getD i 0]⟩ := by
  rw [nirChannel, hw]
  exact nirAlu_computes (.mov [i]) [(a, v)] rfl

/-- `nir_vec3` of three 32-bit values. -/
theorem nirVec3_computes {ins : List (Def × Val)} {x y z : Def} {a b c : Nat}
    (hx : (x, ⟨32, [a]⟩) ∈ ins) (hy : (y, ⟨32, [b]⟩) ∈ ins)
    (hz : (z, ⟨32, [c]⟩) ∈ ins) (hw : x.bitSize = 32) :
    Computes M ins (nirVec3 x y z) ⟨32, [a, b, c]⟩ := by
  rw [nirVec3, hw]
  refine (nirAlu_computes (.vec 3) [(x, ⟨32, [a]⟩), (y, ⟨32, [b]⟩), (z, ⟨32, [c]⟩)]
    (c := [a, b, c]) rfl).weaken fun p hp => ?_
  simp only [List.mem_cons, List.mem_singleton, List.not_mem_nil, or_false] at hp
  rcases hp with rfl | rfl | rfl
  exacts [hx, hy, hz]

end Rules

/-! ### The inserted code -/

section Code

variable {M : Machine}

/-- The components of an ID as the value `nir_vec3` builds. -/
def idVal (v : Vec3 (BitVec 32)) : Val := ⟨32, [v.x.toNat, v.y.toNat, v.z.toNat]⟩

/-- `size_x` and `size_y` (`:81–89`). -/
theorem localSizeXY_runs (cs : CsInfo) :
    Runs M [] (localSizeXY cs) M fun p =>
      [(p.1, ⟨32, [(groupSize cs M).x.toNat]⟩),
        (p.2, ⟨32, [(groupSize cs M).y.toNat]⟩)] := by
  unfold localSizeXY groupSize
  split_ifs
  · refine Runs.bind_computes (nirIntrinsic_computes .loadLocalGroupSize [] .none (n := 3)
      (s := 32) rfl) fun xyz hxyz => ?_
    refine Runs.bind_computes ((nirChannel_computes hxyz 0).weaken (by simp)) fun x hx => ?_
    refine Runs.bind_computes ((nirChannel_computes hxyz 1).weaken (by simp)) fun y hy => ?_
    exact Runs.pure _ (by simp [sysval32])
  · refine Runs.bind_computes (nirImmIntN_computes cs.localSize.1 32 []) fun x hx => ?_
    refine Runs.bind_computes (nirImmIntN_computes cs.localSize.2.1 32 _) fun y hy => ?_
    exact Runs.pure _ (by simp)

/-- The code of `:73–149` computes the invocation's linear number and, in the branch
`derivative_group` selects, the ID and index `localIdIndex` makes of it and of the workgroup size
the code reads. -/
theorem computeLocalIds_computes (cs : CsInfo) :
    Runs M [] (computeLocalIds cs) M fun p =>
      [(p.1, ⟨32, [(localIdIndex cs.derivativeGroup (threadLinear M) (groupSize cs M).x
          (groupSize cs M).y).2.toNat]⟩),
        (p.2, idVal (localIdIndex cs.derivativeGroup (threadLinear M) (groupSize cs M).x
          (groupSize cs M).y).1)] := by
  unfold computeLocalIds
  refine Runs.bind_computes (sysval32_computes .loadSubgroupId rfl []) fun sg hsg => ?_
  refine Runs.bind_computes (sysval32_computes .loadSimdWidthIntel rfl _) fun w hw => ?_
  refine Runs.bind_computes (nirAlu2_computes evalAlu_imul (.tail _ (.head _)) (.head _) hsg)
    fun t ht => ?_
  refine Runs.bind_computes (sysval32_computes .loadSubgroupInvocation rfl _) fun c hc => ?_
  refine Runs.bind_computes (nirAlu2_computes evalAlu_iadd (.head _) (.tail _ (.head _)) hc)
    fun l hl => ?_
  refine ((localSizeXY_runs cs).weaken (List.nil_subset _)).bind fun ⟨sx, sy⟩ hs => ?_
  simp only [List.mem_cons, List.mem_singleton, List.not_mem_nil, or_false, forall_eq_or_imp,
    forall_eq] at hs
  show Runs M _ (if cs.derivativeGroup ≠ .quads then _ else _) M _
  unfold localIdIndex
  -- each operand is picked by its place among the values computed so far, latest first
  split_ifs
  · -- the linear numbering (`:114–120`)
    refine Runs.bind_computes (nirAlu2_computes evalAlu_umod (.tail _ (.tail _ (.head _)))
      (.head _) hl) fun x hx => ?_
    refine Runs.bind_computes (nirAlu2_computes evalAlu_udiv
      (.tail _ (.tail _ (.tail _ (.head _)))) (.tail _ (.head _)) hl) fun q hq => ?_
    refine Runs.bind_computes (nirAlu2_computes evalAlu_umod (.head _)
      (.tail _ (.tail _ (.tail _ (.head _)))) hq) fun y hy => ?_
    refine Runs.bind_computes (nirAlu2_computes evalAlu_imul
      (.tail _ (.tail _ (.tail _ (.head _)))) (.tail _ (.tail _ (.tail _ (.tail _ (.head _)))))
      hs.1) fun p hp => ?_
    refine Runs.bind_computes (nirAlu2_computes evalAlu_udiv
      (.tail _ (.tail _ (.tail _ (.tail _ (.tail _ (.tail _ (.head _))))))) (.head _) hl)
      fun z hz => ?_
    refine Runs.bind_computes (nirVec3_computes (.tail _ (.tail _ (.tail _ (.tail _ (.head _)))))
      (.tail _ (.tail _ (.head _))) (.head _) hx) fun v hv => ?_
    exact Runs.pure _ (by simp [idVal, linearLocalIdIndex, threadLinear, linearInvocation])
  · -- the quad numbering (`:122–148`), deeper operands picked by their place in the list
    refine Runs.bind_computes (nirImmInt_computes 1 _) fun one _ => ?_
    refine Runs.bind_computes (nirAlu2_computes evalAlu_ishl (.tail _ (.head _)) (.head _)
      hs.1) fun d _ => ?_
    refine Runs.bind_computes (nirAlu2_computes evalAlu_umod (List.getElem?_mem (n := 4) rfl)
      (.head _) hl) fun r hr => ?_
    refine Runs.bind_computes (nirAlu2_computes evalAlu_udiv (List.getElem?_mem (n := 5) rfl)
      (.tail _ (.head _)) hl) fun q hq => ?_
    -- `x` (`:135–139`)
    refine Runs.bind_computes (nirAlu2_computes evalAlu_iand (.tail _ (.head _))
      (List.getElem?_mem (n := 3) rfl) hr) fun a ha => ?_
    refine Runs.bind_computes (nirAlu2_computes evalAlu_ishr (List.getElem?_mem (n := 2) rfl)
      (List.getElem?_mem (n := 4) rfl) hr) fun e he => ?_
    refine Runs.bind_computes (nirImmInt_computes 0xfffffffe _) fun m _ => ?_
    refine Runs.bind_computes (nirAlu2_computes evalAlu_iand (.tail _ (.head _)) (.head _) he)
      fun f _ => ?_
    refine Runs.bind_computes (nirAlu2_computes evalAlu_ior (List.getElem?_mem (n := 3) rfl)
      (.head _) ha) fun x hx => ?_
    -- `y` (`:140–143`)
    refine Runs.bind_computes (nirAlu2_computes evalAlu_ishl (List.getElem?_mem (n := 5) rfl)
      (List.getElem?_mem (n := 8) rfl) hq) fun g hg => ?_
    refine Runs.bind_computes (nirAlu2_computes evalAlu_ishr (List.getElem?_mem (n := 7) rfl)
      (List.getElem?_mem (n := 9) rfl) hr) fun k hk => ?_
    refine Runs.bind_computes (nirAlu2_computes evalAlu_iand (.head _)
      (List.getElem?_mem (n := 10) rfl) hk) fun o _ => ?_
    refine Runs.bind_computes (nirAlu2_computes evalAlu_ior (List.getElem?_mem (n := 2) rfl)
      (.head _) hg) fun y hy => ?_
    -- `local_id` and `local_index` (`:145–148`)
    refine Runs.bind_computes (nirAlu2_computes evalAlu_umod (.head _)
      (List.getElem?_mem (n := 14) rfl) hy) fun u _ => ?_
    refine Runs.bind_computes (nirAlu2_computes evalAlu_udiv (.tail _ (.head _))
      (List.getElem?_mem (n := 15) rfl) hy) fun v _ => ?_
    refine Runs.bind_computes (nirVec3_computes (List.getElem?_mem (n := 6) rfl)
      (.tail _ (.head _)) (.head _) hx) fun localId _ => ?_
    refine Runs.bind_computes (nirAlu2_computes evalAlu_imul (List.getElem?_mem (n := 3) rfl)
      (List.getElem?_mem (n := 16) rfl) hy) fun z _ => ?_
    refine Runs.bind_computes (nirAlu2_computes evalAlu_iadd (List.getElem?_mem (n := 8) rfl)
      (.head _) hx) fun localIndex _ => ?_
    exact Runs.pure _ (List.cons_subset.2 ⟨.head _,
      List.cons_subset.2 ⟨.tail _ (.tail _ (.head _)), List.nil_subset _⟩⟩)

/-- Outside the quad branch the code computes the linear number and its split
`linearLocalIdIndex` (`:114–120`). -/
theorem computeLocalIds_runs (cs : CsInfo) (hg : cs.derivativeGroup ≠ .quads) :
    Runs M [] (computeLocalIds cs) M fun p =>
      [(p.1, ⟨32, [(threadLinear M).toNat]⟩),
        (p.2, idVal
          (linearLocalIdIndex (threadLinear M) (groupSize cs M).x (groupSize cs M).y).1)] := by
  have h := computeLocalIds_computes (M := M) cs
  rw [localIdIndex, if_pos hg] at h
  exact h

/-- The number of invocations (`:163–175`). -/
theorem workgroupSize_computes (cs : CsInfo) (ins : List (Def × Val)) :
    Computes M ins (workgroupSize cs) ⟨32, [(groupInvocations cs M).toNat]⟩ := by
  unfold workgroupSize groupInvocations groupSize
  split_ifs
  · refine ((nirIntrinsic_computes .loadLocalGroupSize [] .none (n := 3) (s := 32) rfl).weaken
      (List.nil_subset ins)).bind fun xyz hxyz => ?_
    have hc : ∀ i < 3, Computes M ((xyz, ⟨32, (List.range 3).map fun i =>
        M.sysval .loadLocalGroupSize .none i % 2 ^ 32⟩) :: ins) (nirChannel xyz i)
        ⟨32, [(sysval32 M .loadLocalGroupSize i).toNat]⟩ := fun i hi =>
      ((nirChannel_computes hxyz i).congr_val
        (u := ⟨32, [(sysval32 M .loadLocalGroupSize i).toNat]⟩) (by
          match i, hi with | 0, _ | 1, _ | 2, _ => rfl)).weaken
        (List.cons_subset.2 ⟨.head _, List.nil_subset _⟩)
    refine (hc 0 (by decide)).bind fun x hx => ?_
    refine ((hc 1 (by decide)).weaken (List.subset_cons_self _ _)).bind fun y _ => ?_
    refine ((hc 2 (by decide)).weaken (fun p hp => .tail _ (.tail _ hp))).bind fun z _ => ?_
    refine (nirAlu2_computes evalAlu_imul (.tail _ (.tail _ (.head _))) (.tail _ (.head _))
      hx).bind fun xy hxy => ?_
    exact nirAlu2_computes evalAlu_imul (.head _) (.tail _ (.head _)) hxy
  · exact nirImmIntN_computes _ 32 ins

/-- `load_num_subgroups`' replacement computes `numSubgroups` of the invocation count and the
SIMD width it loads (`:162–181`). -/
theorem computeNumSubgroups_computes (cs : CsInfo) (ins : List (Def × Val)) :
    Computes M ins (computeNumSubgroups cs)
      ⟨32, [(numSubgroups (groupInvocations cs M)
        (sysval32 M .loadSimdWidthIntel 0)).toNat]⟩ := by
  unfold computeNumSubgroups
  refine (workgroupSize_computes cs ins).bind fun size hsize => ?_
  refine (sysval32_computes .loadSimdWidthIntel rfl _).bind fun w hw => ?_
  refine (nirAlu2_computes evalAlu_iadd (.tail _ (.head _)) (.head _) hsize).bind fun t ht => ?_
  have hsum : ((iadd (groupInvocations cs M) (sysval32 M .loadSimdWidthIntel 0)).toNat +
      0xffffffffffffffff) % 2 ^ 32 = (iadd (iadd (groupInvocations cs M)
        (sysval32 M .loadSimdWidthIntel 0)) (BitVec.ofNat 32 0xffffffffffffffff)).toNat := by
    rw [toNat_iadd _ (BitVec.ofNat 32 _), BitVec.toNat_ofNat, Nat.add_mod_mod]
  refine (((nirIaddImm_computes 0xffffffffffffffff ht (BitVec.isLt _)).congr_val
    (congrArg (fun n => (⟨32, [n]⟩ : Val)) hsum)).weaken
    (List.cons_subset.2 ⟨.head _, List.nil_subset _⟩)).bind fun a ha => ?_
  exact nirAlu2_computes evalAlu_udiv (.head _) (.tail _ (.tail _ (.head _))) ha

end Code

/-! ### What the replaced intrinsics mean -/

/-- The invocation's number in the subgroup layout: lane `channel` of subgroup `subgroup_id`,
`channel + subgroup_id * simd_width`, without wrapping. -/
def laneIndex (M : Machine) : Nat :=
  (sysval32 M .loadSubgroupId 0).toNat * (sysval32 M .loadSimdWidthIntel 0).toNat +
    (sysval32 M .loadSubgroupInvocation 0).toNat

/-- The number of invocations of the workgroup. -/
def groupCount (cs : CsInfo) (M : Machine) : Nat :=
  (groupSize cs M).x.toNat * (groupSize cs M).y.toNat * (groupSize cs M).z.toNat

/-- `gl_LocalInvocationID` of index `L` as the comment of `:90–102` defines it, the final
`% gl_WorkGroupSize.z` included. -/
def glslLocalId (L sx sy sz : Nat) : List Nat := [L % sx, L / sx % sy, L / (sx * sy) % sz]

/-- The value an intrinsic with destination `d` loads from the machine. -/
def sysvalVal (M : Machine) (op : IntrinsicOp) (d : Def) (ix : Indices) : Val :=
  ⟨d.bitSize, (List.range d.numComponents).map fun i => M.sysval op ix i % 2 ^ d.bitSize⟩

/-- The system values of an invocation of a workgroup the hardware dispatches in linear order:
the workgroup has no empty dimension, fewer than 2³² invocations and constant sizes that fit
32 bits; the SIMD width is nonzero and leaves room for `size + simd_width`; the invocation is
number `laneIndex` of the workgroup; its ID is that number split as the comment of `:90–102`
says; there are `⌈size / simd_width⌉` subgroups; and the values the pass narrows fit 32
bits. -/
structure LinearThread (cs : CsInfo) (M : Machine) : Prop where
  shape : LinearShape (groupSize cs M).x.toNat (groupSize cs M).y.toNat (groupSize cs M).z.toNat
  const_lt : cs.localSizeVariable = false →
    cs.localSize.1 < 2 ^ 32 ∧ cs.localSize.2.1 < 2 ^ 32 ∧ cs.localSize.2.2 < 2 ^ 32
  simd_pos : 0 < (sysval32 M .loadSimdWidthIntel 0).toNat
  simd_fits : groupCount cs M + (sysval32 M .loadSimdWidthIntel 0).toNat ≤ 2 ^ 32
  index_lt : laneIndex M < groupCount cs M
  index : ∀ ix, M.sysval .loadLocalInvocationIndex ix 0 = laneIndex M
  id : ∀ ix, (List.range 3).map (M.sysval .loadLocalInvocationId ix) =
    glslLocalId (laneIndex M) (groupSize cs M).x.toNat (groupSize cs M).y.toNat
      (groupSize cs M).z.toNat
  subgroups : ∀ ix, M.sysval .loadNumSubgroups ix 0 =
    (groupCount cs M + (sysval32 M .loadSimdWidthIntel 0).toNat - 1) /
      (sysval32 M .loadSimdWidthIntel 0).toNat
  narrow_lt : ∀ op, csCase op = .narrow → ∀ ix i, M.sysval op ix i < 2 ^ 32

/-- The value at the rewrite target of a replaced intrinsic whose destination has `bitSize`
bits: the replacement, zero-extended if that is 64 (`:187–188`). -/
def widen (bitSize : Nat) (v : Val) : Val :=
  if bitSize = 64 then ⟨64, v.comps.map (· % 2 ^ 64)⟩ else v

/-- A 32-bit replacement holding a system value's components, widened to the destination's
width, is the value the intrinsic loads. -/
theorem widen_sysvalVal {M : Machine} (op : IntrinsicOp) {d : Def} (ix : Indices)
    (hd : d.bitSize = 32 ∨ d.bitSize = 64)
    (hlt : ∀ i < d.numComponents, M.sysval op ix i < 2 ^ 32) :
    widen d.bitSize ⟨32, (List.range d.numComponents).map (M.sysval op ix)⟩ =
      sysvalVal M op d ix := by
  rcases hd with h | h
  · have hmod : (List.range d.numComponents).map (M.sysval op ix) =
        (List.range d.numComponents).map fun i => M.sysval op ix i % 2 ^ 32 :=
      List.map_congr_left fun i hi => (Nat.mod_eq_of_lt (hlt i (List.mem_range.1 hi))).symm
    rw [widen, h, if_neg (by decide), sysvalVal, h, hmod]
  · rw [widen, h, if_pos rfl, sysvalVal, h, List.map_map]
    rfl

section Meaning

variable {cs : CsInfo} {M : Machine} (hT : LinearThread cs M)
include hT

theorem LinearThread.count_lt : groupCount cs M < 2 ^ 32 := hT.shape.total_lt

/-- The linear number the code computes does not wrap: it is the invocation's number. -/
theorem LinearThread.threadLinear_toNat : (threadLinear M).toNat = laneIndex M :=
  linearInvocation_toNat _ _ _ (lt_trans hT.index_lt hT.count_lt)

/-- The ID the code computes is the invocation's `gl_LocalInvocationID`: the final
`% gl_WorkGroupSize.z` the code leaves out changes nothing. -/
theorem LinearThread.localId_comps (ix : Indices) :
    (idVal (linearLocalIdIndex (threadLinear M) (groupSize cs M).x (groupSize cs M).y).1).comps =
      (List.range 3).map (M.sysval .loadLocalInvocationId ix) := by
  obtain ⟨hid, -⟩ := linearLocalIdIndex_toNat hT.shape (l := threadLinear M)
  simp only [Vec3.toNat, Vec3.mk.injEq, hT.threadLinear_toNat] at hid
  have hz := (glsl_split_in_box hT.shape.pos_x hT.shape.pos_y hT.index_lt).2.2.1
  rw [hT.id ix, glslLocalId, idVal, hid.1, hid.2.1, hid.2.2, Nat.mod_eq_of_lt hz]

/-- The invocation count the code computes does not wrap. -/
theorem LinearThread.groupInvocations_toNat : (groupInvocations cs M).toNat = groupCount cs M := by
  have hc := hT.count_lt
  have hxy : (groupSize cs M).x.toNat * (groupSize cs M).y.toNat ≤ groupCount cs M :=
    Nat.le_mul_of_pos_right _ hT.shape.pos_z
  unfold groupInvocations
  split_ifs with hv
  · rw [toNat_imul, toNat_imul, Nat.mod_eq_of_lt (lt_of_le_of_lt hxy hc)]
    exact Nat.mod_eq_of_lt hc
  · obtain ⟨h₁, h₂, h₃⟩ := hT.const_lt (by simpa using hv)
    have hs : groupSize cs M = ⟨BitVec.ofNat 32 cs.localSize.1, BitVec.ofNat 32 cs.localSize.2.1,
        BitVec.ofNat 32 cs.localSize.2.2⟩ := if_neg hv
    simp only [groupCount, hs, BitVec.toNat_ofNat, Nat.mod_eq_of_lt h₁, Nat.mod_eq_of_lt h₂,
      Nat.mod_eq_of_lt h₃] at hc ⊢
    exact Nat.mod_eq_of_lt hc

/-- The rounded-up division the code computes is the number of subgroups. -/
theorem LinearThread.numSubgroups_eq (ix : Indices) :
    (numSubgroups (groupInvocations cs M) (sysval32 M .loadSimdWidthIntel 0)).toNat =
      M.sysval .loadNumSubgroups ix 0 := by
  rw [numSubgroups_toNat hT.simd_pos (hT.groupInvocations_toNat ▸ hT.simd_fits),
    hT.groupInvocations_toNat, hT.subgroups ix]

/-- The index the code computes is the one the intrinsic loads, at the width of its destination. -/
theorem LinearThread.index_val {d : Def} (hd : d.bitSize = 32 ∨ d.bitSize = 64)
    (hn : d.numComponents = 1) (ix : Indices) :
    widen d.bitSize ⟨32, [(threadLinear M).toNat]⟩ =
      sysvalVal M .loadLocalInvocationIndex d ix := by
  have h := widen_sysvalVal (M := M) .loadLocalInvocationIndex ix hd
    fun i hi => by
      rw [hn] at hi
      rw [Nat.lt_one_iff.1 hi, hT.index ix]
      exact lt_trans hT.index_lt hT.count_lt
  rwa [hn, show (List.range 1).map (M.sysval .loadLocalInvocationIndex ix) = [_] from rfl,
    hT.index ix, ← hT.threadLinear_toNat] at h

/-- The ID the code computes is the one the intrinsic loads, at the width of its destination. -/
theorem LinearThread.id_val {d : Def} (hd : d.bitSize = 32 ∨ d.bitSize = 64)
    (hn : d.numComponents = 3) (ix : Indices) :
    widen d.bitSize (idVal (linearLocalIdIndex (threadLinear M) (groupSize cs M).x
      (groupSize cs M).y).1) = sysvalVal M .loadLocalInvocationId d ix := by
  have hc := hT.localId_comps ix
  have hlt : ∀ i < d.numComponents, M.sysval .loadLocalInvocationId ix i < 2 ^ 32 := by
    intro i hi
    rw [hn] at hi
    have hm : M.sysval .loadLocalInvocationId ix i ∈ (idVal (linearLocalIdIndex (threadLinear M)
        (groupSize cs M).x (groupSize cs M).y).1).comps :=
      hc ▸ List.mem_map_of_mem _ (List.mem_range.2 hi)
    simp only [idVal, List.mem_cons, List.mem_singleton, List.not_mem_nil, or_false] at hm
    rcases hm with h | h | h <;> rw [h] <;> exact BitVec.isLt _
  have h := widen_sysvalVal _ ix hd hlt
  rwa [hn, ← hc] at h

/-- The number of subgroups the code computes is the one the intrinsic loads, at the width of
its destination. -/
theorem LinearThread.numSubgroups_val {d : Def} (hd : d.bitSize = 32 ∨ d.bitSize = 64)
    (hn : d.numComponents = 1) (ix : Indices) :
    widen d.bitSize ⟨32, [(numSubgroups (groupInvocations cs M)
      (sysval32 M .loadSimdWidthIntel 0)).toNat]⟩ = sysvalVal M .loadNumSubgroups d ix := by
  have h := widen_sysvalVal (M := M) .loadNumSubgroups ix hd
    fun i hi => by
      rw [hn] at hi
      rw [Nat.lt_one_iff.1 hi, ← hT.numSubgroups_eq ix]
      exact BitVec.isLt _
  rwa [hn, show (List.range 1).map (M.sysval .loadNumSubgroups ix) = [_] from rfl,
    ← hT.numSubgroups_eq ix] at h

end Meaning

/-! ### The replacements -/

section Replace

variable {M : Machine}

/-- The end of a lowered case (`:187–193`): every use now reads the replacement `v`, widened to
the destination's width by a zero extension if that is 64. -/
theorem replaceIntrinsic_runs (d : Def) {v : Def} {c : List Nat} (st : CsState) (b : Builder)
    (env : Env) (hv : Has b env v ⟨32, c⟩) :
    List.IsPrefix b.emitted (replaceIntrinsic d v st b).2.emitted ∧
    ∃ w env', (replaceIntrinsic d v st b).1.1.rewrite = some (.all d.index w) ∧
      execCode M (b.newCode (replaceIntrinsic d v st b).2) env = some (M, env') ∧
      Frame b env (replaceIntrinsic d v st b).2 env' ∧
      env' w = some (widen d.bitSize ⟨32, c⟩) := by
  rw [replaceIntrinsic_apply]
  split_ifs with h64
  · refine ⟨List.prefix_append _ _, b.ssaAlloc,
      setVal env b.ssaAlloc ⟨64, c.map (· % 2 ^ 64)⟩, rfl, ?_, Frame.setVal b env _ _,
      by rw [setVal_self, widen, if_pos h64]⟩
    rw [Builder.newCode_append]
    simp only [execCode, execInstr, evalInstr, readSrcs, hv.2.2, Option.some_bind,
      Option.map_some']
    rfl
  · refine ⟨List.prefix_refl _, v.index, env, rfl, ?_, Frame.refl b env,
      by rw [widen, if_neg h64]; exact hv.2.2⟩
    rw [Builder.newCode_self]
    rfl

/-- A replacement computed by code run from `b` to `b₁`, then widened. -/
theorem replaceIntrinsic_after {b b₁ : Builder} {env env₁ : Env}
    (hp : List.IsPrefix b.emitted b₁.emitted)
    (he : execCode M (b.newCode b₁) env = some (M, env₁)) (d : Def) {v : Def} {c : List Nat}
    (hv : Has b₁ env₁ v ⟨32, c⟩) (st : CsState) :
    ∃ w env', (replaceIntrinsic d v st b₁).1.1.rewrite = some (.all d.index w) ∧
      execCode M (b.newCode (replaceIntrinsic d v st b₁).2) env = some (M, env') ∧
      env' w = some (widen d.bitSize ⟨32, c⟩) := by
  obtain ⟨hp₂, w, env₂, hrw, he₂, -, hw⟩ := replaceIntrinsic_runs d st b₁ env₁ hv
  exact ⟨w, env₂, hrw, by
    rw [Builder.newCode_trans hp hp₂, execCode_append, he, Option.some_bind, he₂], hw⟩

theorem csCase_localIds {op : IntrinsicOp} {isId : Bool} (h : csCase op = .localIds isId) :
    op = if isId then .loadLocalInvocationId else .loadLocalInvocationIndex := by
  unfold csCase at h
  split at h <;> cases h <;> rfl

theorem csCase_numSubgroups {op : IntrinsicOp} (h : csCase op = .numSubgroups) :
    op = .loadNumSubgroups := by
  unfold csCase at h
  split at h <;> first | rfl | nomatch h

/-- On an invocation dispatched in linear order, the code `lower_cs_intrinsics_convert_block`
puts in place of the first `load_local_invocation_index` or `load_local_invocation_id` of a
block, or of a `load_num_subgroups`, computes, at the value every use of the intrinsic now
reads, the value the intrinsic loads, at its 32 or 64 bits (`:69–193`). -/
theorem lowerCsIntrinsicsConvertInstr_replaces {cs : CsInfo} (hT : LinearThread cs M)
    (hg : cs.derivativeGroup ≠ .quads) {op : IntrinsicOp} (hrem : csRemoves op) {d : Def}
    (hd : d.bitSize = 32 ∨ d.bitSize = 64)
    (hn : d.numComponents = if op = .loadLocalInvocationId then 3 else 1) (srcs : List Nat)
    (ix : Indices) {st : CsState} (hst : st.cache = none) (b : Builder) (env : Env) :
    ∃ w env', (lowerCsIntrinsicsConvertInstr cs (.intrinsic op (some d) srcs ix) st b).1.1.rewrite =
        some (.all d.index w) ∧
      execCode M (b.newCode (lowerCsIntrinsicsConvertInstr cs (.intrinsic op (some d) srcs ix) st b).2)
        env = some (M, env') ∧
      env' w = some (sysvalVal M op d ix) := by
  cases hc : csCase op with
  | localIds isId =>
    rw [lowerCsIntrinsicsConvertInstr_localIds cs hc]
    simp only [localIds, hst]
    obtain ⟨hp, env₁, he, -, hall⟩ :=
      computeLocalIds_runs (M := M) cs hg b env fun _ h => nomatch h
    have hop := csCase_localIds hc
    cases isId <;> simp only [Bool.false_eq_true, ↓reduceIte] at hop ⊢ <;> subst hop
    · obtain ⟨w, env', hrw, he', hw⟩ := replaceIntrinsic_after hp he d (hall _ (.head _)) _
      exact ⟨w, env', hrw, he', hw.trans (congrArg _ (hT.index_val hd hn ix))⟩
    · obtain ⟨w, env', hrw, he', hw⟩ :=
        replaceIntrinsic_after hp he d (hall _ (.tail _ (.head _))) _
      exact ⟨w, env', hrw, he', hw.trans (congrArg _ (hT.id_val hd hn ix))⟩
  | numSubgroups =>
    obtain rfl := csCase_numSubgroups hc
    rw [lowerCsIntrinsicsConvertInstr_numSubgroups cs hc]
    obtain ⟨hp, env₁, he, -, hv⟩ := computeNumSubgroups_computes (M := M) cs [] b env
      fun _ h => nomatch h
    obtain ⟨w, env', hrw, he', hw⟩ := replaceIntrinsic_after hp (execCode_of_evalCode he) d hv _
    exact ⟨w, env', hrw, he', hw.trans (congrArg _ (hT.numSubgroups_val hd hn ix))⟩
  | narrow | skip => simp [csRemoves, hc] at hrem

/-- Lane 3 of subgroup 1 of an 8×4×1 workgroup run in SIMD8: invocation 11, with ID
`(3, 1, 0)`, in a workgroup of four subgroups. -/
def invocation11 : Machine :=
  ⟨fun _ => 0, fun op _ i =>
    if op = .loadSubgroupId then 1
    else if op = .loadSimdWidthIntel then 8
    else if op = .loadSubgroupInvocation then 3
    else if op = .loadLocalInvocationIndex then 11
    else if op = .loadLocalInvocationId then (if i = 0 then 3 else if i = 1 then 1 else 0)
    else if op = .loadNumSubgroups then 4
    else 0⟩

theorem invocation11_linearThread : LinearThread ⟨false, (8, 4, 1), .none⟩ invocation11 where
  shape := ⟨by decide, by decide, by decide, by decide⟩
  const_lt _ := by decide
  simd_pos := by decide
  simd_fits := by decide
  index_lt := by decide
  index _ := rfl
  id _ := rfl
  subgroups _ := rfl
  narrow_lt op _ _ i := by
    simp only [invocation11]
    split_ifs <;> omega

theorem lowerCsIntrinsicsConvertInstr_replaces_index :
    LinearThread ⟨false, (8, 4, 1), .none⟩ invocation11 ∧
      ∃ w env', (lowerCsIntrinsicsConvertInstr ⟨false, (8, 4, 1), .none⟩
          (.intrinsic .loadLocalInvocationIndex (some ⟨0, 1, 64⟩) [] .none) ⟨none, false⟩
          ⟨1, []⟩).1.1.rewrite = some (.all 0 w) ∧
        execCode invocation11 (Builder.newCode ⟨1, []⟩ (lowerCsIntrinsicsConvertInstr
          ⟨false, (8, 4, 1), .none⟩ (.intrinsic .loadLocalInvocationIndex (some ⟨0, 1, 64⟩) [] .none)
          ⟨none, false⟩ ⟨1, []⟩).2) (fun _ => none) = some (invocation11, env') ∧
        env' w = some (sysvalVal invocation11 .loadLocalInvocationIndex ⟨0, 1, 64⟩ .none) :=
  ⟨invocation11_linearThread, lowerCsIntrinsicsConvertInstr_replaces invocation11_linearThread
    (by decide) (by decide) (.inr rfl) rfl [] .none rfl ⟨1, []⟩ fun _ => none⟩

end Replace

end MesaSim.Cs
