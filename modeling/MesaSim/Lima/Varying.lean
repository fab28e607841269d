import Mathlib.Tactic.Ring

/-!
# The varying layout of the vertex shader outputs

`lima_update_varying` (`brw_nir_lower_cs_intrinsics.c:1163–1245`) places the vertex shader's
outputs in the `gp_output` buffer: a first loop gives each varying other than `gl_Position`
and `gl_PointSize` its offset in a vertex's record (`vs->varying[i].offset`), 16-byte
aligned for 4-byte components; the record size `varying_stride` is that end rounded up to 16;
the buffer holds the positions, then the varying records, then the point sizes; a second loop
writes the varying descriptor table.

The model computes on 32-bit values as the source does, with Mesa's `align` of
`util/u_math.h` (not in this source; modelled from its definition). `exactOffsets`,
`exactStride`, `exactPointSizeOfft` and `exactGpOutputSize` are the same layout in `ℕ`; while
its sizes stay below `2 ^ 32` the code computes exactly it
(`limaUpdateVarying_toNat`), and the exact layout keeps the varyings and the buffer's regions
apart (`limaUpdateVarying_disjoint`).
-/

namespace MesaSim.Lima

/-- The fields of `struct lima_varying_info` this core reads. -/
structure VaryingInfo where
  components : BitVec 32
  componentSize : BitVec 32
  deriving DecidableEq, Repr

/-- The outputs part of `struct lima_vs_shader_state`: the outputs (`num_outputs` of them),
the indices of `gl_Position` and `gl_PointSize` (`-1` when absent), and `num_varyings`. -/
structure VsVaryings where
  varying : List VaryingInfo
  glPosIdx : Int
  pointSizeIdx : Int
  numVaryings : Nat
  deriving DecidableEq, Repr

/-- Whether output `i` is `gl_Position` or `gl_PointSize`, which both loops single out. -/
def VsVaryings.special (vs : VsVaryings) (i : Nat) : Prop :=
  (i : Int) = vs.glPosIdx ∨ (i : Int) = vs.pointSizeIdx

instance (vs : VsVaryings) (i : Nat) : Decidable (vs.special i) :=
  inferInstanceAs (Decidable (_ ∨ _))

/-- Mesa's `align(value, alignment)`: `(value + alignment - 1) & ~(alignment - 1)`. -/
def align (value alignment : BitVec 32) : BitVec 32 :=
  (value + alignment - 1) &&& ~~~(alignment - 1)

/-- The first loop (`:1179–1195`), from output `i` on with running `offset`: the offset it
gives each output (`none` for the two it skips) and the `offset` it ends with. -/
def varyingOffsets (vs : VsVaryings) : Nat → List VaryingInfo → BitVec 32 →
    List (Option (BitVec 32)) × BitVec 32
  | _, [], offset => ([], offset)
  | i, v :: outs, offset =>
    if vs.special i then
      let r := varyingOffsets vs (i + 1) outs offset
      (none :: r.1, r.2)
    else
      let size := v.componentSize * 4
      let offset := if v.componentSize = 4 then align offset 16 else offset
      let r := varyingOffsets vs (i + 1) outs (offset + size)
      (some offset :: r.1, r.2)

/-- One entry of the varying descriptor table (`:1222–1239`): address and format word. -/
def varyingDescriptor (vs : VsVaryings) (va varyingsOfft pointSizeOfft stride : BitVec 32)
    (i : Nat) (v : VaryingInfo) (offset : BitVec 32) : BitVec 32 × BitVec 32 :=
  if (i : Int) = vs.glPosIdx then (va, 0x8020)
  else if (i : Int) = vs.pointSizeIdx then (va + pointSizeOfft, 0x2021)
  else
    (va + varyingsOfft + offset,
      (stride <<< 11) ||| (v.components - 1) ||| (if v.componentSize = 2 then 0x0C else 0))

/-- The second loop (`:1220–1240`), from output `i` on. -/
def varyingTable (vs : VsVaryings) (va varyingsOfft pointSizeOfft stride : BitVec 32) :
    Nat → List VaryingInfo → List (Option (BitVec 32)) → List (BitVec 32 × BitVec 32)
  | i, v :: outs, o :: offs =>
    varyingDescriptor vs va varyingsOfft pointSizeOfft stride i v (o.getD 0) ::
      varyingTable vs va varyingsOfft pointSizeOfft stride (i + 1) outs offs
  | _, _, _ => []

/-- What `lima_update_varying` leaves: the outputs' `offset`, `vs->varying_stride`,
`ctx->gp_output_varyings_offt` and `ctx->gp_output_point_size_offt`, the size the `gp_output`
buffer is created with, and the varying descriptor table. -/
structure VaryingLayout where
  offsets : List (Option (BitVec 32))
  stride : BitVec 32
  varyingsOfft : BitVec 32
  pointSizeOfft : BitVec 32
  gpOutputSize : BitVec 32
  table : List (BitVec 32 × BitVec 32)
  deriving DecidableEq, Repr

/-- `num = info->index_size ? (ctx->max_index - ctx->min_index + 1) : draw->count` (`:1171`). -/
def limaVaryingCount (indexSize : Nat) (minIndex maxIndex count : BitVec 32) : BitVec 32 :=
  if indexSize ≠ 0 then maxIndex - minIndex + 1 else count

/-- `lima_update_varying` for `num` vertices, with `va` the address of the `gp_output` buffer
it creates; `varyingsOfft` and `pointSizeOfft` are the context's values from before, which it
keeps when there are no varyings or no point size. -/
def limaUpdateVarying (vs : VsVaryings) (num va varyingsOfft pointSizeOfft : BitVec 32) :
    VaryingLayout :=
  let r := varyingOffsets vs 0 vs.varying 0
  let stride := align r.2 16
  let size := align (4 * 4 * num) 0x40
  let (varyingsOfft, size) :=
    if vs.numVaryings ≠ 0 then (size, size + align (stride * num) 0x40) else (varyingsOfft, size)
  let (pointSizeOfft, size) :=
    if vs.pointSizeIdx ≠ -1 then (size, size + 4 * num) else (pointSizeOfft, size)
  ⟨r.1, stride, varyingsOfft, pointSizeOfft, size,
    varyingTable vs va varyingsOfft pointSizeOfft stride 0 vs.varying r.1⟩

/-! ### `align` without wrapping -/

/-- `value` rounded up to a multiple of `alignment`. -/
def alignUp (value alignment : Nat) : Nat := (value + alignment - 1) / alignment * alignment

/-- Clearing the bits below `k` of a 32-bit value rounds it down to a multiple of `2 ^ k`. -/
theorem land_not_low_bits {n k : Nat} (hn : n < 2 ^ 32) (hk : k ≤ 32) :
    n &&& (2 ^ 32 - 1 - (2 ^ k - 1)) = 2 ^ k * (n / 2 ^ k) := by
  have hm : 2 ^ 32 - 1 - (2 ^ k - 1) = 2 ^ k * (2 ^ (32 - k) - 1) := by
    have h32 : 2 ^ 32 = 2 ^ k * 2 ^ (32 - k) := by rw [← Nat.pow_add, Nat.add_sub_cancel' hk]
    have := Nat.one_le_two_pow (n := k)
    rw [h32, Nat.mul_sub_one]; omega
  apply Nat.eq_of_testBit_eq
  intro i
  rw [hm, Nat.testBit_and, Nat.testBit_mul_pow_two, Nat.testBit_mul_pow_two,
    Nat.testBit_two_pow_sub_one, ← Nat.shiftRight_eq_div_pow, Nat.testBit_shiftRight]
  by_cases hik : k ≤ i
  · rw [Nat.add_sub_cancel' hik]
    by_cases hi : i < 32
    · simp [hik, show i - k < 32 - k by omega]
    · simp [Nat.testBit_lt_two_pow (lt_of_lt_of_le hn (Nat.pow_le_pow_right (by omega)
        (by omega : 32 ≤ i)))]
  · simp [hik]

/-- Below `2 ^ 32`, `align` to a power of two is `alignUp`. -/
theorem toNat_align {v a : BitVec 32} {k : Nat} (ha : a.toNat = 2 ^ k) (hk : k < 32)
    (hv : v.toNat + a.toNat - 1 < 2 ^ 32) :
    (align v a).toNat = alignUp v.toNat a.toNat := by
  have hpos := Nat.one_le_two_pow (n := k)
  have h1 : (1 : BitVec 32).toNat = 1 := rfl
  have hsum : (v + a - 1).toNat = v.toNat + a.toNat - 1 := by
    rw [BitVec.toNat_sub, BitVec.toNat_add, h1]
    omega
  have hmask : (~~~(a - 1)).toNat = 2 ^ 32 - 1 - (2 ^ k - 1) := by
    have : 2 ^ k < 2 ^ 32 := Nat.pow_lt_pow_right (by omega) hk
    rw [BitVec.toNat_not, BitVec.toNat_sub, ha, h1]
    omega
  rw [align, BitVec.toNat_and, hsum, hmask, land_not_low_bits (by omega) hk.le, alignUp, ha,
    Nat.mul_comm]

theorem le_alignUp (v : Nat) {a : Nat} (ha : 0 < a) : v ≤ alignUp v a := by
  have := Nat.lt_div_mul_add (a := v + a - 1) ha
  unfold alignUp; omega

theorem alignUp_mod (v a : Nat) : alignUp v a % a = 0 := Nat.mul_mod_left _ _

/-- `align` to a power of two computes `alignUp` whenever the rounded value is below `2 ^ 32`. -/
theorem toNat_align_of_lt {v a : BitVec 32} {k : Nat} (ha : a.toNat = 2 ^ k) (hk : k < 32)
    (hb : alignUp v.toNat a.toNat < 2 ^ 32) : (align v a).toNat = alignUp v.toNat a.toNat := by
  refine toNat_align ha hk ?_
  have hdvd : a.toNat ∣ 2 ^ 32 - alignUp v.toNat a.toNat :=
    Nat.dvd_sub' (ha ▸ Nat.pow_dvd_pow 2 hk.le) (Nat.dvd_of_mod_eq_zero (alignUp_mod _ _))
  have := Nat.le_of_dvd (by omega) hdvd
  have := le_alignUp v.toNat (a := a.toNat) (by rw [ha]; exact Nat.two_pow_pos k)
  omega

theorem toNat_align16 {v : BitVec 32} (hb : alignUp v.toNat 16 < 2 ^ 32) :
    (align v 16).toNat = alignUp v.toNat 16 :=
  toNat_align_of_lt (k := 4) (a := 16) rfl (by omega) hb

theorem toNat_align64 {v : BitVec 32} (hb : alignUp v.toNat 64 < 2 ^ 32) :
    (align v 0x40).toNat = alignUp v.toNat 64 :=
  toNat_align_of_lt (k := 6) (a := 0x40) rfl (by omega) hb

/-- `align` to 64 leaves a multiple of 64, whatever wraps. -/
theorem align64_mod (v : BitVec 32) : (align v 0x40).toNat % 64 = 0 := by
  have h : align v 0x40 &&& 63 = 0#32 := by
    have : ~~~((0x40 : BitVec 32) - 1) &&& 63 = 0#32 := by decide
    rw [align, BitVec.and_assoc, this, BitVec.and_zero]
  have := congrArg BitVec.toNat h
  rwa [BitVec.toNat_and, show (63 : BitVec 32).toNat = 2 ^ 6 - 1 from rfl,
    Nat.and_pow_two_sub_one_eq_mod] at this

/-! ### The layout in `ℕ` -/

/-- Where a varying starts at running offset `offset`: 4-byte components are 16-aligned. -/
def exactSlot (v : VaryingInfo) (offset : Nat) : Nat :=
  if v.componentSize.toNat = 4 then alignUp offset 16 else offset

/-- The first loop without wrapping. -/
def exactOffsets (vs : VsVaryings) : Nat → List VaryingInfo → Nat → List (Option Nat) × Nat
  | _, [], offset => ([], offset)
  | i, v :: outs, offset =>
    if vs.special i then
      let r := exactOffsets vs (i + 1) outs offset
      (none :: r.1, r.2)
    else
      let r := exactOffsets vs (i + 1) outs (exactSlot v offset + 4 * v.componentSize.toNat)
      (some (exactSlot v offset) :: r.1, r.2)

/-- `varying_stride` without wrapping. -/
def exactStride (vs : VsVaryings) : Nat := alignUp (exactOffsets vs 0 vs.varying 0).2 16

/-- Where the point sizes start in `gp_output`, without wrapping: after the positions and,
if there are varyings, their records. -/
def exactPointSizeOfft (vs : VsVaryings) (num : Nat) : Nat :=
  alignUp (16 * num) 64 + if vs.numVaryings ≠ 0 then alignUp (exactStride vs * num) 64 else 0

/-- The size of `gp_output` without wrapping. -/
def exactGpOutputSize (vs : VsVaryings) (num : Nat) : Nat :=
  exactPointSizeOfft vs num + if vs.pointSizeIdx ≠ -1 then 4 * num else 0

section Exact

variable {vs : VsVaryings}

theorem exactOffsets_cons (i : Nat) (v : VaryingInfo) (outs : List VaryingInfo) (o : Nat) :
    exactOffsets vs i (v :: outs) o =
      if vs.special i then
        (none :: (exactOffsets vs (i + 1) outs o).1, (exactOffsets vs (i + 1) outs o).2)
      else
        (some (exactSlot v o) ::
            (exactOffsets vs (i + 1) outs (exactSlot v o + 4 * v.componentSize.toNat)).1,
          (exactOffsets vs (i + 1) outs (exactSlot v o + 4 * v.componentSize.toNat)).2) :=
  rfl

theorem le_exactSlot (v : VaryingInfo) (o : Nat) : o ≤ exactSlot v o := by
  unfold exactSlot; split_ifs
  · exact le_alignUp o (by omega)
  · exact le_refl o

/-- The running offset only grows. -/
theorem le_exactOffsets (i : Nat) (outs : List VaryingInfo) (o : Nat) :
    o ≤ (exactOffsets vs i outs o).2 := by
  induction outs generalizing i o with
  | nil => exact le_refl o
  | cons v outs ih =>
    rw [exactOffsets_cons]
    split_ifs
    · exact ih (i + 1) o
    · exact le_trans (le_exactSlot v o) (le_trans (Nat.le_add_right _ _) (ih _ _))

/-- Every output the loop does not skip gets an offset. -/
theorem exactOffsets_assigned (i : Nat) (outs : List VaryingInfo) (o : Nat) :
    ∀ j < outs.length, ¬vs.special (i + j) → ∃ x, (exactOffsets vs i outs o).1[j]? = some (some x) := by
  induction outs generalizing i o with
  | nil => intro j hj; exact absurd hj (Nat.not_lt_zero j)
  | cons v outs ih =>
    rintro (_ | j) hj hs <;> rw [exactOffsets_cons]
    · rw [Nat.add_zero] at hs; simp [hs]
    · have hj' : j < outs.length := by simpa using hj
      have hs' : ¬vs.special (i + 1 + j) := by rwa [Nat.add_right_comm]
      split_ifs <;> simp only [List.getElem?_cons_succ] <;> exact ih (i + 1) _ j hj' hs'

/-- Every offset the loop gives is at least its starting offset. -/
theorem exactOffsets_ge (i : Nat) (outs : List VaryingInfo) (o : Nat) :
    ∀ j x : Nat, (exactOffsets vs i outs o).1[j]? = some (some x) → o ≤ x := by
  induction outs generalizing i o with
  | nil => intro j x hx; simp [exactOffsets] at hx
  | cons w outs ih =>
    intro j x hx
    rw [exactOffsets_cons] at hx
    split_ifs at hx
    · cases j with
      | zero => simp at hx
      | succ j => exact ih (i + 1) o j x (by simpa using hx)
    · cases j with
      | zero =>
        simp only [List.getElem?_cons_zero, Option.some.injEq] at hx
        exact hx ▸ le_exactSlot w o
      | succ j =>
        have := ih (i + 1) _ j x (by simpa using hx)
        have := le_exactSlot w o
        omega

/-- A varying given offset `x` ends by the loop's final offset; 4-byte components start on a
multiple of 16. -/
theorem exactOffsets_entry (i : Nat) (outs : List VaryingInfo) (o : Nat) :
    ∀ (j x : Nat) (v : VaryingInfo), (exactOffsets vs i outs o).1[j]? = some (some x) →
      outs[j]? = some v → x + 4 * v.componentSize.toNat ≤ (exactOffsets vs i outs o).2 ∧
        (v.componentSize.toNat = 4 → x % 16 = 0) := by
  induction outs generalizing i o with
  | nil => intro j x v _ hv; simp at hv
  | cons w outs ih =>
    intro j x v hx hv
    rw [exactOffsets_cons] at hx ⊢
    split_ifs at hx ⊢
    · cases j with
      | zero => simp at hx
      | succ j => exact ih (i + 1) o j x v (by simpa using hx) (by simpa using hv)
    · cases j with
      | zero =>
        simp only [List.getElem?_cons_zero, Option.some.injEq] at hx hv
        subst hx hv
        exact ⟨le_exactOffsets _ _ _, fun h4 => by rw [exactSlot, if_pos h4]; exact alignUp_mod _ _⟩
      | succ j => exact ih (i + 1) _ j x v (by simpa using hx) (by simpa using hv)

/-- A varying ends before any later varying starts. -/
theorem exactOffsets_sep (i : Nat) (outs : List VaryingInfo) (o : Nat) :
    ∀ (j j' x x' : Nat) (v : VaryingInfo), j < j' →
      (exactOffsets vs i outs o).1[j]? = some (some x) → outs[j]? = some v →
      (exactOffsets vs i outs o).1[j']? = some (some x') → x + 4 * v.componentSize.toNat ≤ x' := by
  induction outs generalizing i o with
  | nil => intro j j' x x' v _ _ hv; simp at hv
  | cons w outs ih =>
    intro j j' x x' v hjj hx hv hx'
    obtain ⟨j', rfl⟩ : ∃ k, j' = k + 1 := ⟨j' - 1, by omega⟩
    rw [exactOffsets_cons] at hx hx'
    split_ifs at hx hx'
    · cases j with
      | zero => simp at hx
      | succ j =>
        exact ih (i + 1) o j j' x x' v (by omega) (by simpa using hx) (by simpa using hv)
          (by simpa using hx')
    · cases j with
      | zero =>
        simp only [List.getElem?_cons_zero, Option.some.injEq] at hx hv
        subst hx hv
        exact exactOffsets_ge (i + 1) outs _ j' x' (by simpa using hx')
      | succ j =>
        exact ih (i + 1) _ j j' x x' v (by omega) (by simpa using hx) (by simpa using hv)
          (by simpa using hx')

/-- The outputs the loop gives an offset are the ones it does not skip. -/
theorem exactOffsets_not_special (i : Nat) (outs : List VaryingInfo) (o : Nat) :
    ∀ (j x : Nat), (exactOffsets vs i outs o).1[j]? = some (some x) → ¬vs.special (i + j) := by
  induction outs generalizing i o with
  | nil => intro j x hx; simp [exactOffsets] at hx
  | cons w outs ih =>
    intro j x hx
    rw [exactOffsets_cons] at hx
    cases j with
    | zero => split_ifs at hx with hs <;> simp_all
    | succ j =>
      rw [show i + (j + 1) = i + 1 + j by omega]
      split_ifs at hx <;> exact ih (i + 1) _ j x (by simpa using hx)

end Exact

/-! ### The 32-bit layout is the exact one -/

section Refinement

variable {vs : VsVaryings}

theorem varyingOffsets_cons (i : Nat) (v : VaryingInfo) (outs : List VaryingInfo)
    (offset : BitVec 32) :
    varyingOffsets vs i (v :: outs) offset =
      if vs.special i then
        (none :: (varyingOffsets vs (i + 1) outs offset).1, (varyingOffsets vs (i + 1) outs offset).2)
      else
        (some (if v.componentSize = 4 then align offset 16 else offset) ::
            (varyingOffsets vs (i + 1) outs
              ((if v.componentSize = 4 then align offset 16 else offset) + v.componentSize * 4)).1,
          (varyingOffsets vs (i + 1) outs
              ((if v.componentSize = 4 then align offset 16 else offset) + v.componentSize * 4)).2) :=
  rfl

theorem toNat_eq_four {c : BitVec 32} : c.toNat = 4 ↔ c = 4 :=
  ⟨fun h => BitVec.eq_of_toNat_eq h, fun h => h ▸ rfl⟩

/-- The 32-bit loop computes the exact offsets while the exact final offset is below
`2 ^ 32`. -/
theorem varyingOffsets_toNat (i : Nat) (outs : List VaryingInfo) (offset : BitVec 32)
    (h : (exactOffsets vs i outs offset.toNat).2 < 2 ^ 32) :
    (varyingOffsets vs i outs offset).1.map (Option.map BitVec.toNat) =
        (exactOffsets vs i outs offset.toNat).1 ∧
      (varyingOffsets vs i outs offset).2.toNat = (exactOffsets vs i outs offset.toNat).2 := by
  induction outs generalizing i offset with
  | nil => exact ⟨rfl, rfl⟩
  | cons v outs ih =>
    rw [exactOffsets_cons] at h
    rw [varyingOffsets_cons, exactOffsets_cons]
    by_cases hs : vs.special i
    · simp only [if_pos hs] at h ⊢
      obtain ⟨h₁, h₂⟩ := ih (i + 1) offset h
      exact ⟨by simp [h₁], h₂⟩
    · simp only [if_neg hs] at h ⊢
      have hend := @le_exactOffsets vs (i + 1) outs
        (exactSlot v offset.toNat + 4 * v.componentSize.toNat)
      have hlt : exactSlot v offset.toNat < 2 ^ 32 := by omega
      have hslot : (if v.componentSize = 4 then align offset 16 else offset).toNat =
          exactSlot v offset.toNat := by
        by_cases hc : v.componentSize = 4
        · rw [exactSlot, if_pos (toNat_eq_four.mpr hc)] at hlt ⊢
          rw [if_pos hc]
          exact toNat_align16 hlt
        · rw [if_neg hc, exactSlot, if_neg (fun h4 => hc (toNat_eq_four.mp h4))]
      have hnext : ((if v.componentSize = 4 then align offset 16 else offset) +
          v.componentSize * 4).toNat = exactSlot v offset.toNat + 4 * v.componentSize.toNat := by
        rw [BitVec.toNat_add, BitVec.toNat_mul, hslot]
        have : (4 : BitVec 32).toNat = 4 := rfl
        rw [this]
        omega
      obtain ⟨h₁, h₂⟩ := ih (i + 1) _ (hnext ▸ h)
      rw [hnext] at h₁ h₂
      exact ⟨by rw [List.map_cons, Option.map_some', hslot, h₁], h₂⟩

/-- `lima_update_varying` field by field. -/
theorem limaUpdateVarying_eq (vs : VsVaryings) (num va varyingsOfft pointSizeOfft : BitVec 32) :
    limaUpdateVarying vs num va varyingsOfft pointSizeOfft =
      let r := varyingOffsets vs 0 vs.varying 0
      let stride := align r.2 16
      let pos := align (4 * 4 * num) 0x40
      let vo := if vs.numVaryings ≠ 0 then pos else varyingsOfft
      let size := if vs.numVaryings ≠ 0 then pos + align (stride * num) 0x40 else pos
      let po := if vs.pointSizeIdx ≠ -1 then size else pointSizeOfft
      ⟨r.1, stride, vo, po, if vs.pointSizeIdx ≠ -1 then size + 4 * num else size,
        varyingTable vs va vo po stride 0 vs.varying r.1⟩ := by
  unfold limaUpdateVarying
  split_ifs <;> rfl

/-- The positions, then the varying records, then the point sizes: where each region starts
is at most where the buffer ends. -/
theorem exactPointSizeOfft_le (vs : VsVaryings) (num : Nat) :
    alignUp (16 * num) 64 ≤ exactPointSizeOfft vs num ∧
      exactPointSizeOfft vs num ≤ exactGpOutputSize vs num := by
  unfold exactGpOutputSize exactPointSizeOfft; omega

/-- While the exact stride and buffer size are below `2 ^ 32`, the code computes the exact
layout. -/
theorem limaUpdateVarying_toNat (vs : VsVaryings) (num va varyingsOfft pointSizeOfft : BitVec 32)
    (hs : exactStride vs < 2 ^ 32) (hn : exactGpOutputSize vs num.toNat < 2 ^ 32) :
    let L := limaUpdateVarying vs num va varyingsOfft pointSizeOfft
    L.offsets.map (Option.map BitVec.toNat) = (exactOffsets vs 0 vs.varying 0).1 ∧
      L.stride.toNat = exactStride vs ∧
      (vs.numVaryings ≠ 0 → L.varyingsOfft.toNat = alignUp (16 * num.toNat) 64) ∧
      (vs.pointSizeIdx ≠ -1 → L.pointSizeOfft.toNat = exactPointSizeOfft vs num.toNat) ∧
      L.gpOutputSize.toNat = exactGpOutputSize vs num.toNat := by
  have hF := le_alignUp (exactOffsets vs 0 vs.varying 0).2 (a := 16) (by omega)
  obtain ⟨hoff, hend⟩ := @varyingOffsets_toNat vs 0 vs.varying 0
    (lt_of_le_of_lt hF hs)
  have hstride : (align (varyingOffsets vs 0 vs.varying 0).2 16).toNat = exactStride vs := by
    rw [toNat_align16 (by rw [hend]; exact hs), hend]; rfl
  obtain ⟨h16, hle⟩ := exactPointSizeOfft_le vs num.toNat
  have h16n := le_alignUp (16 * num.toNat) (a := 64) (by omega)
  have hmul : (4 * 4 * num).toNat = 16 * num.toNat := by
    rw [BitVec.toNat_mul]; exact Nat.mod_eq_of_lt (by rw [show (4 * 4 : BitVec 32).toNat = 16 from rfl]; omega)
  have hpos : (align (4 * 4 * num) 0x40).toNat = alignUp (16 * num.toNat) 64 := by
    rw [toNat_align64 (by rw [hmul]; omega), hmul]
  have hsize : (if vs.numVaryings ≠ 0 then
      align (4 * 4 * num) 0x40 + align (align (varyingOffsets vs 0 vs.varying 0).2 16 * num) 0x40
      else align (4 * 4 * num) 0x40).toNat = exactPointSizeOfft vs num.toNat := by
    by_cases hv : vs.numVaryings ≠ 0
    · have hsum : alignUp (16 * num.toNat) 64 + alignUp (exactStride vs * num.toNat) 64 =
          exactPointSizeOfft vs num.toNat := by
        rw [exactPointSizeOfft, if_pos hv]
      have hm := le_alignUp (exactStride vs * num.toNat) (a := 64) (by omega)
      have hmul' : (align (varyingOffsets vs 0 vs.varying 0).2 16 * num).toNat =
          exactStride vs * num.toNat := by
        rw [BitVec.toNat_mul, hstride]; exact Nat.mod_eq_of_lt (by omega)
      rw [if_pos hv, BitVec.toNat_add, hpos, toNat_align64 (by rw [hmul']; omega), hmul', hsum]
      exact Nat.mod_eq_of_lt (by omega)
    · rw [if_neg hv, hpos, exactPointSizeOfft, if_neg hv, Nat.add_zero]
  rw [limaUpdateVarying_eq]
  refine ⟨hoff, hstride, fun hv => by simp only [if_pos hv, hpos], fun hp => ?_, ?_⟩
  · simp only [if_pos hp, hsize]
  · by_cases hp : vs.pointSizeIdx ≠ -1
    · simp only [if_pos hp, BitVec.toNat_add, hsize, BitVec.toNat_mul]
      have h4 : (4 : BitVec 32).toNat = 4 := rfl
      rw [h4, exactGpOutputSize, if_pos hp] at *
      omega
    · simp only [if_neg hp, hsize, exactGpOutputSize, Nat.add_zero]

/-- `gl_Position`, an fp32 `vec3`, an fp16 `vec2` and `gl_PointSize` for three vertices: the
`vec3` at 0, the `vec2` at 16, a 32-byte record, and 64 + 128 + 12 bytes of `gp_output`. -/
example :
    let L := limaUpdateVarying ⟨[⟨4, 4⟩, ⟨3, 4⟩, ⟨2, 2⟩, ⟨1, 4⟩], 0, 3, 2⟩ 3 0x1000 0 0
    L.offsets = [none, some 0, some 16, none] ∧ L.stride = 32 ∧ L.varyingsOfft = 64 ∧
      L.pointSizeOfft = 192 ∧ L.gpOutputSize = 204 := by
  decide

end Refinement

/-! ### The descriptor table -/

/-- Entry `j` of the table describes output `j` with the offset the first loop gave it. -/
theorem varyingTable_get (vs : VsVaryings) (va varyingsOfft pointSizeOfft stride : BitVec 32)
    (i : Nat) (outs : List VaryingInfo) (offs : List (Option (BitVec 32))) :
    ∀ j v o, outs[j]? = some v → offs[j]? = some o →
      (varyingTable vs va varyingsOfft pointSizeOfft stride i outs offs)[j]? =
        some (varyingDescriptor vs va varyingsOfft pointSizeOfft stride (i + j) v (o.getD 0)) := by
  induction outs generalizing i offs with
  | nil => intro j v o hv; simp at hv
  | cons w outs ih =>
    intro j v o hv ho
    cases offs with
    | nil => simp at ho
    | cons o' offs =>
      cases j with
      | zero =>
        simp only [List.getElem?_cons_zero, Option.some.injEq] at hv ho
        subst hv ho
        simp [varyingTable]
      | succ j =>
        rw [show i + (j + 1) = i + 1 + j by omega]
        simpa [varyingTable] using ih (i + 1) offs j v o (by simpa using hv) (by simpa using ho)

/-- A varying's descriptor points at its offset in the varying region. -/
theorem varyingDescriptor_fst (vs : VsVaryings) (va varyingsOfft pointSizeOfft stride : BitVec 32)
    {i : Nat} (hs : ¬vs.special i) (v : VaryingInfo) (offset : BitVec 32) :
    (varyingDescriptor vs va varyingsOfft pointSizeOfft stride i v offset).1 =
      va + varyingsOfft + offset := by
  simp only [VsVaryings.special, not_or] at hs
  simp only [varyingDescriptor, if_neg hs.1, if_neg hs.2]

theorem limaUpdateVarying_table (vs : VsVaryings) (num va varyingsOfft pointSizeOfft : BitVec 32) :
    let L := limaUpdateVarying vs num va varyingsOfft pointSizeOfft
    L.table = varyingTable vs va L.varyingsOfft L.pointSizeOfft L.stride 0 vs.varying L.offsets := by
  unfold limaUpdateVarying
  split_ifs <;> rfl

/-! ### The layout keeps the varyings and the buffer's regions apart -/

/-- What the layout of `num` vertices guarantees: every varying (an output other than
`gl_Position` and `gl_PointSize`) gets an offset; its bytes `[offset, offset + 4 *
component_size)` lie in the record `[0, varying_stride)`, apart from every other varying's,
and 4-byte components start on a multiple of 16; the stride is a multiple of 16; in
`gp_output`, the positions `[0, 16 * num)`, the varying records and the point sizes come in
this order and end by the buffer's size; each varying's descriptor points at
`va + gp_output_varyings_offt + offset`; and the bytes of varying `j` of vertex `t`, at
`gp_output_varyings_offt + offset + t * stride`, lie in the varying region, apart from those
of every other varying or vertex. -/
def VaryingLayoutSpec (vs : VsVaryings) (num va : BitVec 32) (L : VaryingLayout) : Prop :=
  (∀ j < vs.varying.length, ¬vs.special j → ∃ off, L.offsets[j]? = some (some off)) ∧
  (∀ (j : Nat) (v : VaryingInfo) (off : BitVec 32), vs.varying[j]? = some v →
    L.offsets[j]? = some (some off) →
    off.toNat + 4 * v.componentSize.toNat ≤ L.stride.toNat ∧
      (v.componentSize = 4 → off.toNat % 16 = 0)) ∧
  (∀ (j j' : Nat) (v v' : VaryingInfo) (off off' : BitVec 32), j ≠ j' → vs.varying[j]? = some v → vs.varying[j']? = some v' →
    L.offsets[j]? = some (some off) → L.offsets[j']? = some (some off') →
    off.toNat + 4 * v.componentSize.toNat ≤ off'.toNat ∨
      off'.toNat + 4 * v'.componentSize.toNat ≤ off.toNat) ∧
  L.stride.toNat % 16 = 0 ∧
  16 * num.toNat ≤ L.gpOutputSize.toNat ∧
  (vs.numVaryings ≠ 0 → 16 * num.toNat ≤ L.varyingsOfft.toNat ∧
    L.varyingsOfft.toNat + L.stride.toNat * num.toNat ≤ L.gpOutputSize.toNat) ∧
  (vs.pointSizeIdx ≠ -1 → 16 * num.toNat ≤ L.pointSizeOfft.toNat ∧
    L.pointSizeOfft.toNat + 4 * num.toNat ≤ L.gpOutputSize.toNat ∧
    (vs.numVaryings ≠ 0 →
      L.varyingsOfft.toNat + L.stride.toNat * num.toNat ≤ L.pointSizeOfft.toNat)) ∧
  (∀ (j : Nat) (v : VaryingInfo) (off : BitVec 32), vs.varying[j]? = some v →
    L.offsets[j]? = some (some off) →
    (L.table[j]?).map Prod.fst = some (va + L.varyingsOfft + off)) ∧
  (∀ (j : Nat) (v : VaryingInfo) (off : BitVec 32) (t : Nat), vs.varying[j]? = some v → L.offsets[j]? = some (some off) →
    t < num.toNat →
    L.varyingsOfft.toNat + off.toNat + t * L.stride.toNat + 4 * v.componentSize.toNat ≤
      L.varyingsOfft.toNat + L.stride.toNat * num.toNat) ∧
  (∀ (j j' : Nat) (v v' : VaryingInfo) (off off' : BitVec 32) (t t' : Nat),
    vs.varying[j]? = some v → vs.varying[j']? = some v' →
    L.offsets[j]? = some (some off) → L.offsets[j']? = some (some off') →
    (j, t) ≠ (j', t') →
    off.toNat + t * L.stride.toNat + 4 * v.componentSize.toNat ≤ off'.toNat + t' * L.stride.toNat ∨
      off'.toNat + t' * L.stride.toNat + 4 * v'.componentSize.toNat ≤ off.toNat + t * L.stride.toNat)

section Layout

variable {vs : VsVaryings} {num va varyingsOfft pointSizeOfft : BitVec 32}

/-- Records `t < t'` of stride `stride` hold the bytes `[0, stride)` of each apart. -/
theorem record_sep {stride x y t t' : Nat} (hx : x ≤ stride) (htt : t < t') :
    x + t * stride ≤ y + t' * stride := by
  have := Nat.mul_le_mul_right stride (Nat.succ_le_of_lt htt)
  rw [Nat.succ_mul] at this; omega

/-! The varyings of a layout whose offsets and stride are the exact ones. -/

section Record

variable {L : VaryingLayout}
  (hoff : L.offsets.map (Option.map BitVec.toNat) = (exactOffsets vs 0 vs.varying 0).1)

include hoff

theorem exactOffsets_of_layout {j : Nat} {off : BitVec 32} (h : L.offsets[j]? = some (some off)) :
    (exactOffsets vs 0 vs.varying 0).1[j]? = some (some off.toNat) := by
  rw [← hoff, List.getElem?_map, h]; rfl

/-- A varying lies inside a vertex's record, 16-byte aligned when its components take four
bytes. -/
theorem layout_entry (hstride : L.stride.toNat = exactStride vs) {j : Nat} {v : VaryingInfo}
    {off : BitVec 32} (hv : vs.varying[j]? = some v) (ho : L.offsets[j]? = some (some off)) :
    off.toNat + 4 * v.componentSize.toNat ≤ L.stride.toNat ∧
      (v.componentSize = 4 → off.toNat % 16 = 0) := by
  obtain ⟨h₁, h₂⟩ := exactOffsets_entry 0 vs.varying 0 j _ v (exactOffsets_of_layout hoff ho) hv
  exact ⟨le_trans h₁ (hstride ▸ le_alignUp _ (by omega)), fun h4 => h₂ (toNat_eq_four.mpr h4)⟩

/-- Two varyings of a record are apart. -/
theorem layout_sep {j j' : Nat} {v v' : VaryingInfo} {off off' : BitVec 32} (hne : j ≠ j')
    (hv : vs.varying[j]? = some v) (hv' : vs.varying[j']? = some v')
    (ho : L.offsets[j]? = some (some off)) (ho' : L.offsets[j']? = some (some off')) :
    off.toNat + 4 * v.componentSize.toNat ≤ off'.toNat ∨
      off'.toNat + 4 * v'.componentSize.toNat ≤ off.toNat := by
  have hx := exactOffsets_of_layout hoff ho
  have hx' := exactOffsets_of_layout hoff ho'
  rcases Nat.lt_or_gt_of_ne hne with hlt | hlt
  · exact .inl (exactOffsets_sep 0 vs.varying 0 j j' _ _ v hlt hx hv hx')
  · exact .inr (exactOffsets_sep 0 vs.varying 0 j' j _ _ v' hlt hx' hv' hx)

/-- A varying of one vertex and one of another vertex, or another varying of the same vertex,
are apart. -/
theorem layout_records_sep (hstride : L.stride.toNat = exactStride vs) {j j' t t' : Nat}
    {v v' : VaryingInfo} {off off' : BitVec 32} (hv : vs.varying[j]? = some v)
    (hv' : vs.varying[j']? = some v') (ho : L.offsets[j]? = some (some off))
    (ho' : L.offsets[j']? = some (some off')) (hne : (j, t) ≠ (j', t')) :
    off.toNat + t * L.stride.toNat + 4 * v.componentSize.toNat ≤ off'.toNat + t' * L.stride.toNat ∨
      off'.toNat + t' * L.stride.toNat + 4 * v'.componentSize.toNat ≤ off.toNat + t * L.stride.toNat := by
  rcases Nat.lt_trichotomy t t' with htt | rfl | htt
  · have := record_sep (y := off'.toNat) (layout_entry hoff hstride hv ho).1 htt; omega
  · have hjj : j ≠ j' := fun h => hne (by rw [h])
    rcases layout_sep hoff hjj hv hv' ho ho' with h | h <;> omega
  · have := record_sep (y := off.toNat) (layout_entry hoff hstride hv' ho').1 htt; omega

end Record

/-- While the stride and the output size fit the code's 32-bit arithmetic, `lima_update_varying`
lays the varyings out as `VaryingLayoutSpec` says. -/
theorem limaUpdateVarying_disjoint (hs : exactStride vs < 2 ^ 32)
    (hn : exactGpOutputSize vs num.toNat < 2 ^ 32) :
    VaryingLayoutSpec vs num va (limaUpdateVarying vs num va varyingsOfft pointSizeOfft) := by
  obtain ⟨hoff, hstride, hvo, hpo, hsize⟩ :=
    limaUpdateVarying_toNat vs num va varyingsOfft pointSizeOfft hs hn
  have htab := limaUpdateVarying_table vs num va varyingsOfft pointSizeOfft
  dsimp only at htab
  generalize limaUpdateVarying vs num va varyingsOfft pointSizeOfft = L at *
  obtain ⟨h16, hle⟩ := exactPointSizeOfft_le vs num.toNat
  have h16n := le_alignUp (16 * num.toNat) (a := 64) (by omega)
  have hregion : vs.numVaryings ≠ 0 →
      L.varyingsOfft.toNat + L.stride.toNat * num.toNat ≤ exactPointSizeOfft vs num.toNat :=
    fun hv => by
      have := le_alignUp (exactStride vs * num.toNat) (a := 64) (by omega)
      rw [hvo hv, hstride, exactPointSizeOfft, if_pos hv]; omega
  refine ⟨fun j hj hs' => ?_, fun j v off => layout_entry hoff hstride,
    fun j j' v v' off off' => layout_sep hoff, hstride ▸ alignUp_mod _ _, by omega,
    fun hv => ⟨by rw [hvo hv]; exact h16n, by have := hregion hv; omega⟩,
    fun hp => ?_, fun j v off hv ho => ?_, fun j v off t hv ho ht => ?_,
    fun j j' v v' off off' t t' => layout_records_sep hoff hstride⟩
  · -- every varying gets an offset
    obtain ⟨x, hx⟩ := exactOffsets_assigned 0 vs.varying 0 j hj (by rwa [Nat.zero_add])
    have h := congrArg (·[j]?) hoff
    simp only [List.getElem?_map, hx] at h
    obtain ⟨o, ho, hox⟩ := Option.map_eq_some'.mp h
    obtain ⟨off, rfl, -⟩ := Option.map_eq_some'.mp hox
    exact ⟨off, ho⟩
  · -- the point sizes come last
    have hps : exactGpOutputSize vs num.toNat = exactPointSizeOfft vs num.toNat + 4 * num.toNat := by
      rw [exactGpOutputSize, if_pos hp]
    refine ⟨by rw [hpo hp]; omega, by rw [hpo hp, hsize, hps], fun hv => ?_⟩
    rw [hpo hp]; exact hregion hv
  · -- the descriptor's address
    rw [htab, varyingTable_get vs va _ _ _ 0 vs.varying L.offsets j v (some off) hv ho,
      Option.map_some', varyingDescriptor_fst _ _ _ _ _
        (exactOffsets_not_special 0 vs.varying 0 j _ (exactOffsets_of_layout hoff ho))]
    rfl
  · -- a vertex's varying lies in the varying region
    have := record_sep (y := 0) (layout_entry hoff hstride hv ho).1 ht
    rw [Nat.mul_comm L.stride.toNat]; omega

/-- A shader writing `gl_Position`, an fp32 `vec3`, an fp16 `vec2` and `gl_PointSize`. -/
def vsPosVec3Vec2PointSize : VsVaryings := ⟨[⟨4, 4⟩, ⟨3, 4⟩, ⟨2, 2⟩, ⟨1, 4⟩], 0, 3, 2⟩

theorem limaUpdateVarying_disjoint_three_vertices :
    exactStride vsPosVec3Vec2PointSize < 2 ^ 32 ∧
      exactGpOutputSize vsPosVec3Vec2PointSize (3 : BitVec 32).toNat < 2 ^ 32 ∧
      VaryingLayoutSpec vsPosVec3Vec2PointSize 3 0x1000
        (limaUpdateVarying vsPosVec3Vec2PointSize 3 0x1000 0 0) :=
  have hs : exactStride vsPosVec3Vec2PointSize < 2 ^ 32 := by decide
  have hn : exactGpOutputSize vsPosVec3Vec2PointSize (3 : BitVec 32).toNat < 2 ^ 32 := by decide
  ⟨hs, hn, limaUpdateVarying_disjoint hs hn⟩

end Layout

end MesaSim.Lima
