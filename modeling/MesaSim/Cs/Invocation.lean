import MesaSim.Nir.Alu
import MesaSim.Nir.Ir

/-!
# Local invocation ID and index of one compute invocation

The values `lower_cs_intrinsics_convert_block` builds for `load_local_invocation_id` and
`load_local_invocation_index` (`brw_nir_lower_cs_intrinsics.c:75–149`), evaluated for one
invocation: the linear number `channel + subgroup_id * simd_width`, then either the linear
numbering or the `DERIVATIVE_GROUP_QUADS` numbering, in which each run of four invocations
covers one 2×2 quad. `quadX`/`quadY` restate the quad numbering in `ℕ`; the shape premises
are the asserts of `brw_nir_lower_cs_intrinsics` (`:222–233`).
-/

namespace MesaSim.Cs

open MesaSim.Nir

/-- `linear = channel + subgroup_id * simd_width` (`:75–80`). -/
def linearInvocation (subgroupId simdWidth channel : BitVec 32) : BitVec 32 :=
  iadd channel (imul subgroupId simdWidth)

/-- Non-quad branch (`:114–120`): the index is the linear number, the ID its GLSL split,
without the final `% size.z`. -/
def linearLocalIdIndex (linear sizeX sizeY : BitVec 32) : Vec3 (BitVec 32) × BitVec 32 :=
  (⟨umod linear sizeX, umod (udiv linear sizeX) sizeY, udiv linear (imul sizeX sizeY)⟩, linear)

/-- `x = (row_pair_id & 1) | ((row_pair_id >> 1) & 0xfffffffe)` (`:135–139`). -/
def quadColumn (rowPairId : BitVec 32) : BitVec 32 :=
  ior (iand rowPairId 1) (iand (ishr rowPairId 1) 0xfffffffe)

/-- `y = (y_row_pairs << 1) | ((row_pair_id >> 1) & 1)` (`:140–143`). -/
def quadRow (rowPairId yRowPairs : BitVec 32) : BitVec 32 :=
  ior (ishl yRowPairs 1) (iand (ishr rowPairId 1) 1)

/-- `DERIVATIVE_GROUP_QUADS` branch (`:128–148`). -/
def quadLocalIdIndex (linear sizeX sizeY : BitVec 32) : Vec3 (BitVec 32) × BitVec 32 :=
  let doubleSizeX := ishl sizeX 1
  let x := quadColumn (umod linear doubleSizeX)
  let y := quadRow (umod linear doubleSizeX) (udiv linear doubleSizeX)
  (⟨x, umod y sizeY, udiv y sizeY⟩, iadd x (imul y sizeX))

/-- The branch `derivative_group` selects (`:110`). -/
def localIdIndex (group : DerivativeGroup) (linear sizeX sizeY : BitVec 32) :
    Vec3 (BitVec 32) × BitVec 32 :=
  if group ≠ .quads then linearLocalIdIndex linear sizeX sizeY
  else quadLocalIdIndex linear sizeX sizeY

/-! ### The quad numbering in `ℕ` -/

/-- Column of invocation `l`: bit 0 of `l` and the number of its quad within the row pair. -/
def quadX (sx l : Nat) : Nat := l % (2 * sx) % 2 + 2 * (l % (2 * sx) / 4)

/-- Row of invocation `l`, extra z layers counted as further rows. -/
def quadY (sx l : Nat) : Nat := 2 * (l / (2 * sx)) + l % (2 * sx) / 2 % 2

/-- The invocation at column `x` and row `y`: the inverse of `quadX`, `quadY`. -/
def quadLinear (sx x y : Nat) : Nat := 2 * sx * (y / 2) + (4 * (x / 2) + 2 * (y % 2) + x % 2)

/-- Workgroup shapes the quad numbering is asserted for: even x and y sizes, and a number of
invocations that keeps every intermediate value below the sign bit. -/
structure QuadShape (sx sy sz : Nat) : Prop where
  even_x : sx % 2 = 0
  even_y : sy % 2 = 0
  total_lt : sx * sy * sz < 2 ^ 31

theorem quadX_lt {sx : Nat} (hx : sx % 2 = 0) (hpos : 0 < sx) (l : Nat) : quadX sx l < sx := by
  have := Nat.mod_lt l (show 0 < 2 * sx by omega)
  unfold quadX
  omega

theorem quadY_lt {sx sy sz l : Nat} (hx : sx % 2 = 0) (hy : sy % 2 = 0)
    (hl : l < sx * sy * sz) : quadY sx l < sy * sz := by
  have hpos : 0 < sx := Nat.pos_of_ne_zero (by rintro rfl; simp at hl)
  have hN : sx * sy * sz = 2 * sx * (sy * sz / 2) := by
    obtain ⟨k, rfl⟩ : ∃ k, sy = 2 * k := ⟨sy / 2, by omega⟩
    rw [Nat.mul_assoc 2 k sz, Nat.mul_div_cancel_left _ (by omega)]
    ring
  have hp : l / (2 * sx) < sy * sz / 2 :=
    (Nat.div_lt_iff_lt_mul (by omega)).mpr (by rw [hN, Nat.mul_comm] at hl; exact hl)
  have : sy * sz % 2 = 0 := by rw [Nat.mul_mod, hy, Nat.zero_mul, Nat.zero_mod]
  unfold quadY
  omega

/-- `quadLinear` undoes the quad numbering. -/
theorem quadLinear_quadX_quadY (sx l : Nat) : quadLinear sx (quadX sx l) (quadY sx l) = l := by
  have h := Nat.div_add_mod l (2 * sx)
  unfold quadLinear quadX quadY
  generalize l / (2 * sx) = p at h ⊢
  generalize l % (2 * sx) = r at h ⊢
  have e1 : (2 * p + r / 2 % 2) / 2 = p := by omega
  have e2 : (2 * p + r / 2 % 2) % 2 = r / 2 % 2 := by omega
  have e3 : (r % 2 + 2 * (r / 4)) / 2 = r / 4 := by omega
  have e4 : (r % 2 + 2 * (r / 4)) % 2 = r % 2 := by omega
  rw [e1, e2, e3, e4]
  omega

private theorem quadLinear_div_mod {sx x y : Nat} (hx : sx % 2 = 0) (hxs : x < sx) :
    quadLinear sx x y / (2 * sx) = y / 2 ∧
      quadLinear sx x y % (2 * sx) = 4 * (x / 2) + 2 * (y % 2) + x % 2 := by
  have hr : 4 * (x / 2) + 2 * (y % 2) + x % 2 < 2 * sx := by omega
  unfold quadLinear
  rw [Nat.add_comm, Nat.add_mul_div_left _ _ (by omega), Nat.div_eq_of_lt hr,
    Nat.add_mul_mod_self_left, Nat.mod_eq_of_lt hr]
  exact ⟨Nat.zero_add _, rfl⟩

theorem quadX_quadLinear {sx x y : Nat} (hx : sx % 2 = 0) (hxs : x < sx) :
    quadX sx (quadLinear sx x y) = x := by
  rw [quadX, (quadLinear_div_mod hx hxs).2]
  omega

theorem quadY_quadLinear {sx x y : Nat} (hx : sx % 2 = 0) (hxs : x < sx) :
    quadY sx (quadLinear sx x y) = y := by
  rw [quadY, (quadLinear_div_mod hx hxs).1, (quadLinear_div_mod hx hxs).2]
  omega

theorem quadLinear_lt {sx sy sz x y : Nat} (hx : sx % 2 = 0) (hy : sy % 2 = 0) (hxs : x < sx)
    (hys : y < sy * sz) : quadLinear sx x y < sx * sy * sz := by
  have hN : sx * sy * sz = 2 * sx * (sy * sz / 2) := by
    obtain ⟨k, rfl⟩ : ∃ k, sy = 2 * k := ⟨sy / 2, by omega⟩
    rw [Nat.mul_assoc 2 k sz, Nat.mul_div_cancel_left _ (by omega)]
    ring
  have : sy * sz % 2 = 0 := by rw [Nat.mul_mod, hy, Nat.zero_mul, Nat.zero_mod]
  have hle : 2 * sx * (y / 2) + 2 * sx ≤ 2 * sx * (sy * sz / 2) := by
    rw [← Nat.mul_succ]; exact Nat.mul_le_mul_left _ (by omega)
  rw [hN, quadLinear]
  omega

/-- The quad index `x + y * sx` stays below the number of invocations. -/
theorem quadIndex_lt {sx sy sz l : Nat} (hx : sx % 2 = 0) (hy : sy % 2 = 0)
    (hl : l < sx * sy * sz) : quadX sx l + quadY sx l * sx < sx * sy * sz := by
  have hsx : 0 < sx := Nat.pos_of_ne_zero (by rintro rfl; simp at hl)
  have h1 := quadX_lt hx hsx l
  have h2 := Nat.mul_le_mul_right sx (Nat.succ_le_of_lt (quadY_lt hx hy hl))
  have hc : sy * sz * sx = sx * sy * sz := by ring
  rw [Nat.succ_mul, hc] at h2
  omega

/-- A column below `sx` and a row are read back from `x + y * sx`. -/
theorem add_mul_mod_div {sx x y : Nat} (hxs : x < sx) :
    (x + y * sx) % sx = x ∧ (x + y * sx) / sx = y := by
  rw [Nat.add_mul_mod_self_right, Nat.mod_eq_of_lt hxs, Nat.add_mul_div_right _ _ (by omega),
    Nat.div_eq_of_lt hxs, Nat.zero_add]
  exact ⟨rfl, rfl⟩

/-! ### Evaluating the emitted 32-bit code -/

theorem toNat_quadColumn (r : BitVec 32) (h : r.toNat < 2 ^ 31) :
    (quadColumn r).toNat = r.toNat % 2 + 2 * (r.toNat / 4) := by
  have hm : (0xfffffffe : BitVec 32).toNat = 0xfffffffe := rfl
  have h1 : (1 : BitVec 32).toNat = 1 := rfl
  rw [quadColumn, toNat_ior, toNat_iand, toNat_iand, toNat_ishr_one r h, hm,
    land_even_mask _ (by omega), h1, Nat.and_one_is_mod, Nat.or_comm,
    Nat.div_div_eq_div_mul, lor_two_mul_of_lt_two _ _ (Nat.mod_lt _ (by omega))]
  omega

theorem toNat_quadRow (r p : BitVec 32) (hr : r.toNat < 2 ^ 31) (hp : p.toNat < 2 ^ 31) :
    (quadRow r p).toNat = 2 * p.toNat + r.toNat / 2 % 2 := by
  have h1 : (1 : BitVec 32).toNat = 1 := rfl
  rw [quadRow, toNat_ior, toNat_iand, toNat_ishl_one, toNat_ishr_one r hr, h1,
    Nat.and_one_is_mod, Nat.mod_eq_of_lt (by omega : 2 * p.toNat < 2 ^ 32),
    lor_two_mul_of_lt_two _ _ (Nat.mod_lt _ (by omega))]

/-- The quad branch computes `quadX`, `quadY` and their GLSL split, without wrapping. -/
theorem quadLocalIdIndex_toNat {sizeX sizeY sizeZ l : BitVec 32}
    (h : QuadShape sizeX.toNat sizeY.toNat sizeZ.toNat)
    (hl : l.toNat < sizeX.toNat * sizeY.toNat * sizeZ.toNat) :
    (quadLocalIdIndex l sizeX sizeY).1.toNat =
        ⟨quadX sizeX.toNat l.toNat, quadY sizeX.toNat l.toNat % sizeY.toNat,
          quadY sizeX.toNat l.toNat / sizeY.toNat⟩ ∧
      (quadLocalIdIndex l sizeX sizeY).2.toNat =
        quadX sizeX.toNat l.toNat + quadY sizeX.toNat l.toNat * sizeX.toNat := by
  obtain ⟨hx, hy, hN⟩ := h
  have hsx : 0 < sizeX.toNat := Nat.pos_of_ne_zero (by intro h0; simp [h0] at hl)
  have hsy : 0 < sizeY.toNat := Nat.pos_of_ne_zero (by intro h0; simp [h0] at hl)
  have hsx2 : sizeX.toNat < 2 ^ 31 := by
    have := Nat.le_mul_of_pos_right sizeX.toNat (Nat.mul_pos hsy
      (Nat.pos_of_ne_zero (by intro h0; simp [h0] at hl) : 0 < sizeZ.toNat))
    rw [← Nat.mul_assoc] at this; omega
  have hd : (ishl sizeX 1).toNat = 2 * sizeX.toNat := by
    rw [toNat_ishl_one, Nat.mod_eq_of_lt (by omega)]
  have hr : (umod l (ishl sizeX 1)).toNat = l.toNat % (2 * sizeX.toNat) := by
    rw [toNat_umod _ _ (by omega), hd]
  have hp : (udiv l (ishl sizeX 1)).toNat = l.toNat / (2 * sizeX.toNat) := by
    rw [toNat_udiv _ _ (by omega), hd]
  have hrl : l.toNat % (2 * sizeX.toNat) < 2 ^ 31 :=
    lt_of_le_of_lt (Nat.mod_le _ _) (by omega)
  have hpl : l.toNat / (2 * sizeX.toNat) < 2 ^ 31 :=
    lt_of_le_of_lt (Nat.div_le_self _ _) (by omega)
  have hcol : (quadColumn (umod l (ishl sizeX 1))).toNat = quadX sizeX.toNat l.toNat := by
    rw [toNat_quadColumn _ (by omega), hr, quadX]
  have hrow : (quadRow (umod l (ishl sizeX 1)) (udiv l (ishl sizeX 1))).toNat =
      quadY sizeX.toNat l.toNat := by
    rw [toNat_quadRow _ _ (by omega) (by omega), hr, hp, quadY]
  have hidx := quadIndex_lt hx hy hl
  simp only [quadLocalIdIndex, Vec3.toNat]
  rw [toNat_umod _ _ hsy, toNat_udiv _ _ hsy, toNat_iadd, toNat_imul, hcol, hrow,
    Nat.mod_eq_of_lt (by omega : quadY sizeX.toNat l.toNat * sizeX.toNat < 2 ^ 32),
    Nat.mod_eq_of_lt (by omega : _ < 2 ^ 32)]
  exact ⟨rfl, rfl⟩

/-! ### The quad numbering is a bijection -/

section Bijection

variable {sizeX sizeY sizeZ : BitVec 32}

/-- Each invocation gets an ID inside the workgroup box and an index below the number of
invocations, related as GLSL relates `gl_LocalInvocationID` and `gl_LocalInvocationIndex`. -/
theorem quadLocalIdIndex_in_box (h : QuadShape sizeX.toNat sizeY.toNat sizeZ.toNat)
    {l : BitVec 32} (hl : l.toNat < sizeX.toNat * sizeY.toNat * sizeZ.toNat) :
    let q := quadLocalIdIndex l sizeX sizeY
    q.1.x.toNat < sizeX.toNat ∧ q.1.y.toNat < sizeY.toNat ∧ q.1.z.toNat < sizeZ.toNat ∧
      q.2.toNat < sizeX.toNat * sizeY.toNat * sizeZ.toNat ∧
      q.1.x.toNat = q.2.toNat % sizeX.toNat ∧
      q.1.y.toNat = q.2.toNat / sizeX.toNat % sizeY.toNat ∧
      q.1.z.toNat = q.2.toNat / (sizeX.toNat * sizeY.toNat) := by
  obtain ⟨hid, hidx⟩ := quadLocalIdIndex_toNat h hl
  simp only [Vec3.toNat, Vec3.mk.injEq] at hid
  obtain ⟨hx, hy, hz⟩ := hid
  have hsx : 0 < sizeX.toNat := Nat.pos_of_ne_zero (by intro h0; simp [h0] at hl)
  have hsy : 0 < sizeY.toNat := Nat.pos_of_ne_zero (by intro h0; simp [h0] at hl)
  have hxlt := quadX_lt h.even_x hsx l.toNat
  have hylt := quadY_lt h.even_x h.even_y hl
  obtain ⟨hmod, hdiv⟩ := add_mul_mod_div (y := quadY sizeX.toNat l.toNat) hxlt
  refine ⟨hx ▸ hxlt, hy ▸ Nat.mod_lt _ hsy,
    hz ▸ (Nat.div_lt_iff_lt_mul hsy).mpr (by rwa [Nat.mul_comm]), ?_, ?_, ?_, ?_⟩
  · exact hidx ▸ quadIndex_lt h.even_x h.even_y hl
  · rw [hx, hidx, hmod]
  · rw [hy, hidx, hdiv]
  · rw [hz, hidx, ← Nat.div_div_eq_div_mul, hdiv]

/-- The invocation a quad ID or index is read back from: `quadX`, `quadY` determine it. -/
private theorem eq_of_quad_eq {l₁ l₂ : BitVec 32} (hx : quadX sizeX.toNat l₁.toNat = quadX sizeX.toNat l₂.toNat)
    (hy : quadY sizeX.toNat l₁.toNat = quadY sizeX.toNat l₂.toNat) : l₁ = l₂ := by
  apply BitVec.eq_of_toNat_eq
  rw [← quadLinear_quadX_quadY sizeX.toNat l₁.toNat, ← quadLinear_quadX_quadY sizeX.toNat l₂.toNat,
    hx, hy]

/-- The invocation numbered `quadLinear x y`, as a 32-bit linear invocation number. -/
private theorem quadLinear_toNat (h : QuadShape sizeX.toNat sizeY.toNat sizeZ.toNat)
    {x y : Nat} (hxs : x < sizeX.toNat) (hys : y < sizeY.toNat * sizeZ.toNat) :
    (BitVec.ofNat 32 (quadLinear sizeX.toNat x y)).toNat = quadLinear sizeX.toNat x y ∧
      quadLinear sizeX.toNat x y < sizeX.toNat * sizeY.toNat * sizeZ.toNat := by
  have hlt := quadLinear_lt h.even_x h.even_y hxs hys
  exact ⟨by rw [BitVec.toNat_ofNat, Nat.mod_eq_of_lt (by have := h.total_lt; omega)], hlt⟩

/-- Distinct invocations get distinct IDs. -/
theorem quadLocalId_injective (h : QuadShape sizeX.toNat sizeY.toNat sizeZ.toNat)
    {l₁ l₂ : BitVec 32} (h₁ : l₁.toNat < sizeX.toNat * sizeY.toNat * sizeZ.toNat)
    (h₂ : l₂.toNat < sizeX.toNat * sizeY.toNat * sizeZ.toNat)
    (he : (quadLocalIdIndex l₁ sizeX sizeY).1 = (quadLocalIdIndex l₂ sizeX sizeY).1) :
    l₁ = l₂ := by
  have e := congrArg Vec3.toNat he
  rw [(quadLocalIdIndex_toNat h h₁).1, (quadLocalIdIndex_toNat h h₂).1] at e
  simp only [Vec3.mk.injEq] at e
  obtain ⟨ex, ey, ez⟩ := e
  refine eq_of_quad_eq ex ?_
  rw [← Nat.mod_add_div (quadY _ l₁.toNat) sizeY.toNat,
    ← Nat.mod_add_div (quadY _ l₂.toNat) sizeY.toNat, ey, ez]

/-- Every point of the workgroup box is the ID of some invocation. -/
theorem quadLocalId_surjective (h : QuadShape sizeX.toNat sizeY.toNat sizeZ.toNat)
    (a b c : BitVec 32) (ha : a.toNat < sizeX.toNat) (hb : b.toNat < sizeY.toNat)
    (hc : c.toNat < sizeZ.toNat) :
    ∃ l : BitVec 32, l.toNat < sizeX.toNat * sizeY.toNat * sizeZ.toNat ∧
      (quadLocalIdIndex l sizeX sizeY).1 = ⟨a, b, c⟩ := by
  have hys : b.toNat + sizeY.toNat * c.toNat < sizeY.toNat * sizeZ.toNat := by
    have := Nat.mul_le_mul_left sizeY.toNat (Nat.succ_le_of_lt hc)
    rw [Nat.mul_succ] at this; omega
  obtain ⟨hval, hlt⟩ := quadLinear_toNat h ha hys
  have hl := hval.symm ▸ hlt
  refine ⟨_, hl, Vec3.toNat_injective ?_⟩
  rw [(quadLocalIdIndex_toNat h hl).1, hval, quadX_quadLinear h.even_x ha,
    quadY_quadLinear h.even_x ha, Nat.add_mul_mod_self_left, Nat.mod_eq_of_lt hb,
    Nat.add_mul_div_left _ _ (by omega), Nat.div_eq_of_lt hb, Nat.zero_add]
  rfl

/-- Distinct invocations get distinct indices. -/
theorem quadLocalIndex_injective (h : QuadShape sizeX.toNat sizeY.toNat sizeZ.toNat)
    {l₁ l₂ : BitVec 32} (h₁ : l₁.toNat < sizeX.toNat * sizeY.toNat * sizeZ.toNat)
    (h₂ : l₂.toNat < sizeX.toNat * sizeY.toNat * sizeZ.toNat)
    (he : (quadLocalIdIndex l₁ sizeX sizeY).2 = (quadLocalIdIndex l₂ sizeX sizeY).2) :
    l₁ = l₂ := by
  have e := congrArg BitVec.toNat he
  rw [(quadLocalIdIndex_toNat h h₁).2, (quadLocalIdIndex_toNat h h₂).2] at e
  have hsx : 0 < sizeX.toNat := Nat.pos_of_ne_zero (by intro h0; simp [h0] at h₁)
  obtain ⟨m₁, d₁⟩ := add_mul_mod_div (y := quadY sizeX.toNat l₁.toNat)
    (quadX_lt h.even_x hsx l₁.toNat)
  obtain ⟨m₂, d₂⟩ := add_mul_mod_div (y := quadY sizeX.toNat l₂.toNat)
    (quadX_lt h.even_x hsx l₂.toNat)
  exact eq_of_quad_eq (by rw [← m₁, ← m₂, e]) (by rw [← d₁, ← d₂, e])

/-- Every number below the number of invocations is the index of some invocation. -/
theorem quadLocalIndex_surjective (h : QuadShape sizeX.toNat sizeY.toNat sizeZ.toNat)
    (i : BitVec 32) (hi : i.toNat < sizeX.toNat * sizeY.toNat * sizeZ.toNat) :
    ∃ l : BitVec 32, l.toNat < sizeX.toNat * sizeY.toNat * sizeZ.toNat ∧
      (quadLocalIdIndex l sizeX sizeY).2 = i := by
  have hsx : 0 < sizeX.toNat := Nat.pos_of_ne_zero (by intro h0; simp [h0] at hi)
  have hxs : i.toNat % sizeX.toNat < sizeX.toNat := Nat.mod_lt _ hsx
  have hys : i.toNat / sizeX.toNat < sizeY.toNat * sizeZ.toNat :=
    (Nat.div_lt_iff_lt_mul hsx).mpr (by rwa [Nat.mul_comm, ← Nat.mul_assoc])
  obtain ⟨hval, hlt⟩ := quadLinear_toNat h hxs hys
  have hl := hval.symm ▸ hlt
  refine ⟨_, hl, BitVec.eq_of_toNat_eq ?_⟩
  rw [(quadLocalIdIndex_toNat h hl).2, hval, quadX_quadLinear h.even_x hxs,
    quadY_quadLinear h.even_x hxs, Nat.mul_comm, Nat.mod_add_div]

/-- What the quad numbering must give a workgroup: in-box IDs with GLSL-consistent indices, a
bijection of invocations onto the workgroup box, and a permutation of `[0, sx * sy * sz)` as
index. -/
def QuadNumberingSpec (sizeX sizeY sizeZ : BitVec 32) : Prop :=
  (∀ l : BitVec 32, l.toNat < sizeX.toNat * sizeY.toNat * sizeZ.toNat →
    (quadLocalIdIndex l sizeX sizeY).1.toNat =
        ⟨quadX sizeX.toNat l.toNat, quadY sizeX.toNat l.toNat % sizeY.toNat,
          quadY sizeX.toNat l.toNat / sizeY.toNat⟩ ∧
      (quadLocalIdIndex l sizeX sizeY).2.toNat =
        quadX sizeX.toNat l.toNat + quadY sizeX.toNat l.toNat * sizeX.toNat ∧
      let q := quadLocalIdIndex l sizeX sizeY
      q.1.x.toNat < sizeX.toNat ∧ q.1.y.toNat < sizeY.toNat ∧ q.1.z.toNat < sizeZ.toNat ∧
      q.2.toNat < sizeX.toNat * sizeY.toNat * sizeZ.toNat ∧
      q.1.x.toNat = q.2.toNat % sizeX.toNat ∧
      q.1.y.toNat = q.2.toNat / sizeX.toNat % sizeY.toNat ∧
      q.1.z.toNat = q.2.toNat / (sizeX.toNat * sizeY.toNat)) ∧
  (∀ l₁ l₂ : BitVec 32, l₁.toNat < sizeX.toNat * sizeY.toNat * sizeZ.toNat →
    l₂.toNat < sizeX.toNat * sizeY.toNat * sizeZ.toNat →
    (quadLocalIdIndex l₁ sizeX sizeY).1 = (quadLocalIdIndex l₂ sizeX sizeY).1 → l₁ = l₂) ∧
  (∀ a b c : BitVec 32, a.toNat < sizeX.toNat → b.toNat < sizeY.toNat → c.toNat < sizeZ.toNat →
    ∃ l : BitVec 32, l.toNat < sizeX.toNat * sizeY.toNat * sizeZ.toNat ∧
      (quadLocalIdIndex l sizeX sizeY).1 = ⟨a, b, c⟩) ∧
  (∀ l₁ l₂ : BitVec 32, l₁.toNat < sizeX.toNat * sizeY.toNat * sizeZ.toNat →
    l₂.toNat < sizeX.toNat * sizeY.toNat * sizeZ.toNat →
    (quadLocalIdIndex l₁ sizeX sizeY).2 = (quadLocalIdIndex l₂ sizeX sizeY).2 → l₁ = l₂) ∧
  (∀ i : BitVec 32, i.toNat < sizeX.toNat * sizeY.toNat * sizeZ.toNat →
    ∃ l : BitVec 32, l.toNat < sizeX.toNat * sizeY.toNat * sizeZ.toNat ∧
      (quadLocalIdIndex l sizeX sizeY).2 = i)

theorem quadLocalIdIndex_bijective (h : QuadShape sizeX.toNat sizeY.toNat sizeZ.toNat) :
    QuadNumberingSpec sizeX sizeY sizeZ :=
  ⟨fun _ hl => ⟨(quadLocalIdIndex_toNat h hl).1, (quadLocalIdIndex_toNat h hl).2,
      quadLocalIdIndex_in_box h hl⟩,
    fun _ _ => quadLocalId_injective h, quadLocalId_surjective h,
    fun _ _ => quadLocalIndex_injective h, quadLocalIndex_surjective h⟩

theorem quadLocalIdIndex_bijective_4x2x2 :
    QuadShape (4 : BitVec 32).toNat (2 : BitVec 32).toNat (2 : BitVec 32).toNat ∧
      QuadNumberingSpec 4 2 2 :=
  have h : QuadShape (4 : BitVec 32).toNat (2 : BitVec 32).toNat (2 : BitVec 32).toNat :=
    ⟨by decide, by decide, by decide⟩
  ⟨h, quadLocalIdIndex_bijective h⟩

end Bijection

/-! ### Four consecutive invocations form a quad -/

/-- From an invocation number divisible by 4, the next three step through one 2×2 quad. -/
theorem quad_consecutive {sx l₀ j : Nat} (hx : sx % 2 = 0) (hsx : 0 < sx) (hl : l₀ % 4 = 0)
    (hj : j < 4) :
    quadX sx (l₀ + j) = quadX sx l₀ + j % 2 ∧ quadY sx (l₀ + j) = quadY sx l₀ + j / 2 ∧
      quadX sx l₀ % 2 = 0 ∧ quadY sx l₀ % 2 = 0 := by
  have hr : l₀ % (2 * sx) % 4 = 0 := by
    rw [Nat.mod_mod_of_dvd _ (⟨sx / 2, by omega⟩ : 4 ∣ 2 * sx), hl]
  have hrl := Nat.mod_lt l₀ (show 0 < 2 * sx by omega)
  have hrj : l₀ % (2 * sx) + j < 2 * sx := by omega
  have hdm : l₀ + j = l₀ % (2 * sx) + j + 2 * sx * (l₀ / (2 * sx)) := by
    have := Nat.mod_add_div l₀ (2 * sx); omega
  have hmod : (l₀ + j) % (2 * sx) = l₀ % (2 * sx) + j := by
    rw [hdm, Nat.add_mul_mod_self_left, Nat.mod_eq_of_lt hrj]
  have hdiv : (l₀ + j) / (2 * sx) = l₀ / (2 * sx) := by
    rw [hdm, Nat.add_mul_div_left _ _ (by omega), Nat.div_eq_of_lt hrj, Nat.zero_add]
  unfold quadX quadY
  rw [hmod, hdiv]
  omega

/-- Adding 0 or 1 to an even row keeps it in the same pair of rows of one z layer. -/
theorem even_add_mod_div {y sy t : Nat} (hy : sy % 2 = 0) (hsy : 0 < sy) (he : y % 2 = 0)
    (ht : t < 2) : (y + t) % sy = y % sy + t ∧ (y + t) / sy = y / sy ∧ y % sy % 2 = 0 := by
  have hm : y % sy % 2 = 0 := by rw [Nat.mod_mod_of_dvd _ (⟨sy / 2, by omega⟩ : 2 ∣ sy), he]
  have hlt := Nat.mod_lt y hsy
  have hrt : y % sy + t < sy := by omega
  have hdm : y + t = y % sy + t + sy * (y / sy) := by have := Nat.mod_add_div y sy; omega
  rw [hdm, Nat.add_mul_mod_self_left, Nat.mod_eq_of_lt hrt, Nat.add_mul_div_left _ _ hsy,
    Nat.div_eq_of_lt hrt, Nat.zero_add]
  exact ⟨rfl, rfl, hm⟩

/-- With a subgroup width divisible by 4, lane `4m + j` has linear number `L₀ + j` for an
`L₀` divisible by 4, even when `subgroup_id * simd_width` wraps. -/
theorem linearInvocation_lane (subgroupId simdWidth : BitVec 32) (hw : simdWidth.toNat % 4 = 0)
    (m j : Nat) (hj : j < 4) :
    (linearInvocation subgroupId simdWidth (BitVec.ofNat 32 (4 * m + j))).toNat =
        (linearInvocation subgroupId simdWidth (BitVec.ofNat 32 (4 * m))).toNat + j ∧
      (linearInvocation subgroupId simdWidth (BitVec.ofNat 32 (4 * m))).toNat % 4 = 0 := by
  have hp : subgroupId.toNat * simdWidth.toNat % 4 = 0 :=
    Nat.mod_eq_zero_of_dvd (Dvd.dvd.mul_left (Nat.dvd_of_mod_eq_zero hw) _)
  simp only [linearInvocation, toNat_iadd, toNat_imul, BitVec.toNat_ofNat]
  generalize subgroupId.toNat * simdWidth.toNat = p at hp ⊢
  omega

/-- Lanes `4m … 4m+3` of a subgroup whose width is a multiple of 4 get the IDs
`(2a, 2b, c)`, `(2a+1, 2b, c)`, `(2a, 2b+1, c)`, `(2a+1, 2b+1, c)`: one 2×2 quad of one z
layer, in this order. -/
theorem quad_lanes_form_quad {sizeX sizeY sizeZ : BitVec 32}
    (h : QuadShape sizeX.toNat sizeY.toNat sizeZ.toNat) (subgroupId simdWidth : BitVec 32)
    (hw : simdWidth.toNat % 4 = 0) (m : Nat)
    (hin : ∀ j < 4, (linearInvocation subgroupId simdWidth (BitVec.ofNat 32 (4 * m + j))).toNat <
      sizeX.toNat * sizeY.toNat * sizeZ.toNat) :
    ∃ a b c : Nat, ∀ j < 4,
      (quadLocalIdIndex (linearInvocation subgroupId simdWidth (BitVec.ofNat 32 (4 * m + j)))
        sizeX sizeY).1.toNat = ⟨2 * a + j % 2, 2 * b + j / 2, c⟩ := by
  have hN := hin 3 (by omega)
  have hsx : 0 < sizeX.toNat := Nat.pos_of_ne_zero (by intro h0; simp [h0] at hN)
  have hsy : 0 < sizeY.toNat := Nat.pos_of_ne_zero (by intro h0; simp [h0] at hN)
  obtain ⟨-, h₀⟩ := linearInvocation_lane subgroupId simdWidth hw m 0 (by omega)
  generalize hL : (linearInvocation subgroupId simdWidth (BitVec.ofNat 32 (4 * m))).toNat = L at h₀
  obtain ⟨-, -, ex, ey⟩ := quad_consecutive (j := 0) h.even_x hsx h₀ (by omega)
  refine ⟨quadX sizeX.toNat L / 2, quadY sizeX.toNat L % sizeY.toNat / 2,
    quadY sizeX.toNat L / sizeY.toNat, fun j hj => ?_⟩
  obtain ⟨hlj, -⟩ := linearInvocation_lane subgroupId simdWidth hw m j hj
  rw [(quadLocalIdIndex_toNat h (hin j hj)).1, hlj, hL]
  obtain ⟨qx, qy, -, -⟩ := quad_consecutive h.even_x hsx h₀ hj
  obtain ⟨ym, yd, ye⟩ := even_add_mod_div h.even_y hsy ey (show j / 2 < 2 by omega)
  rw [qx, qy, ym, yd, Vec3.mk.injEq]
  omega

theorem quad_lanes_form_quad_4x2x2 :
    QuadShape (4 : BitVec 32).toNat (2 : BitVec 32).toNat (2 : BitVec 32).toNat ∧
      (4 : BitVec 32).toNat % 4 = 0 ∧
      (∀ j < 4, (linearInvocation 1 4 (BitVec.ofNat 32 (4 * 0 + j))).toNat <
        (4 : BitVec 32).toNat * (2 : BitVec 32).toNat * (2 : BitVec 32).toNat) ∧
      ∃ a b c : Nat, ∀ j < 4,
        (quadLocalIdIndex (linearInvocation 1 4 (BitVec.ofNat 32 (4 * 0 + j))) 4 2).1.toNat =
          ⟨2 * a + j % 2, 2 * b + j / 2, c⟩ :=
  have h : QuadShape (4 : BitVec 32).toNat (2 : BitVec 32).toNat (2 : BitVec 32).toNat :=
    ⟨by decide, by decide, by decide⟩
  have hin : ∀ j < 4, (linearInvocation 1 4 (BitVec.ofNat 32 (4 * 0 + j))).toNat <
      (4 : BitVec 32).toNat * (2 : BitVec 32).toNat * (2 : BitVec 32).toNat := by decide
  ⟨h, by decide, hin, quad_lanes_form_quad h 1 4 (by decide) 0 hin⟩

/-! ### The linear numbering -/

/-- Workgroup shapes the linear numbering is stated for: no empty dimension, and a number of
invocations that fits the 32-bit values the branch computes with. -/
structure LinearShape (sx sy sz : Nat) : Prop where
  pos_x : 0 < sx
  pos_y : 0 < sy
  pos_z : 0 < sz
  total_lt : sx * sy * sz < 2 ^ 32

section Linear

variable {sizeX sizeY sizeZ : BitVec 32}

/-- Below `2 ^ 32` invocations, the linear number `channel + subgroup_id * simd_width` does not
wrap. -/
theorem linearInvocation_toNat (subgroupId simdWidth channel : BitVec 32)
    (h : subgroupId.toNat * simdWidth.toNat + channel.toNat < 2 ^ 32) :
    (linearInvocation subgroupId simdWidth channel).toNat =
      subgroupId.toNat * simdWidth.toNat + channel.toNat := by
  simp only [linearInvocation, toNat_iadd, toNat_imul]
  generalize subgroupId.toNat * simdWidth.toNat = p at h ⊢
  omega

/-- The non-quad branch computes the GLSL split of the linear number without wrapping, the
product `size_x * size_y` included. -/
theorem linearLocalIdIndex_toNat (h : LinearShape sizeX.toNat sizeY.toNat sizeZ.toNat)
    {l : BitVec 32} :
    (linearLocalIdIndex l sizeX sizeY).1.toNat =
        ⟨l.toNat % sizeX.toNat, l.toNat / sizeX.toNat % sizeY.toNat,
          l.toNat / (sizeX.toNat * sizeY.toNat)⟩ ∧
      (linearLocalIdIndex l sizeX sizeY).2 = l := by
  have hxy : sizeX.toNat * sizeY.toNat < 2 ^ 32 :=
    lt_of_le_of_lt (Nat.le_mul_of_pos_right _ h.pos_z) h.total_lt
  have hm : (imul sizeX sizeY).toNat = sizeX.toNat * sizeY.toNat := by
    rw [toNat_imul, Nat.mod_eq_of_lt hxy]
  simp only [linearLocalIdIndex, Vec3.toNat]
  rw [toNat_umod _ _ h.pos_x, toNat_umod _ _ h.pos_y, toNat_udiv _ _ h.pos_x,
    toNat_udiv _ _ (hm ▸ Nat.mul_pos h.pos_x h.pos_y), hm]
  exact ⟨rfl, trivial⟩

/-- GLSL's split of an index below `sx * sy * sz` lies in the box and recombines to the index:
the final `% size.z` would change nothing. -/
theorem glsl_split_in_box {sx sy sz L : Nat} (hx : 0 < sx) (hy : 0 < sy)
    (hL : L < sx * sy * sz) :
    L % sx < sx ∧ L / sx % sy < sy ∧ L / (sx * sy) < sz ∧
      L % sx + sx * (L / sx % sy + sy * (L / (sx * sy))) = L := by
  refine ⟨Nat.mod_lt _ hx, Nat.mod_lt _ hy, (Nat.div_lt_iff_lt_mul (Nat.mul_pos hx hy)).mpr
    (by rwa [Nat.mul_comm]), ?_⟩
  rw [← Nat.div_div_eq_div_mul, Nat.mod_add_div, Nat.mod_add_div]

/-- A point of the box is the GLSL split of `x + sx * (y + sy * z)`. -/
theorem glsl_split_of_box {sx sy sz x y z : Nat} (hx : x < sx) (hy : y < sy) (hz : z < sz) :
    x + sx * (y + sy * z) < sx * sy * sz ∧ (x + sx * (y + sy * z)) % sx = x ∧
      (x + sx * (y + sy * z)) / sx % sy = y ∧ (x + sx * (y + sy * z)) / (sx * sy) = z := by
  have hyz : y + sy * z < sy * sz := by
    have := Nat.mul_le_mul_left sy (Nat.succ_le_of_lt hz)
    rw [Nat.mul_succ] at this; omega
  have hlt : x + sx * (y + sy * z) < sx * sy * sz := by
    have := Nat.mul_le_mul_left sx (Nat.succ_le_of_lt hyz)
    rw [Nat.mul_succ, ← Nat.mul_assoc] at this; omega
  have hd : (x + sx * (y + sy * z)) / sx = y + sy * z := by
    rw [Nat.add_mul_div_left _ _ (by omega), Nat.div_eq_of_lt hx, Nat.zero_add]
  refine ⟨hlt, by rw [Nat.add_mul_mod_self_left, Nat.mod_eq_of_lt hx], ?_, ?_⟩
  · rw [hd, Nat.add_mul_mod_self_left, Nat.mod_eq_of_lt hy]
  · rw [← Nat.div_div_eq_div_mul, hd, Nat.add_mul_div_left _ _ (by omega), Nat.div_eq_of_lt hy,
      Nat.zero_add]

/-- What the non-quad branch gives every invocation, and that its IDs number the workgroup
box one to one. -/
def LinearNumberingSpec (group : DerivativeGroup) (sizeX sizeY sizeZ : BitVec 32) : Prop :=
  (∀ subgroupId simdWidth channel : BitVec 32,
    subgroupId.toNat * simdWidth.toNat + channel.toNat <
      sizeX.toNat * sizeY.toNat * sizeZ.toNat →
    let L := subgroupId.toNat * simdWidth.toNat + channel.toNat
    let q := localIdIndex group (linearInvocation subgroupId simdWidth channel) sizeX sizeY
    q.2.toNat = L ∧
      q.1.toNat = ⟨L % sizeX.toNat, L / sizeX.toNat % sizeY.toNat,
        L / (sizeX.toNat * sizeY.toNat)⟩ ∧
      q.1.x.toNat < sizeX.toNat ∧ q.1.y.toNat < sizeY.toNat ∧ q.1.z.toNat < sizeZ.toNat ∧
      q.1.x.toNat + sizeX.toNat * (q.1.y.toNat + sizeY.toNat * q.1.z.toNat) = L) ∧
  (∀ l₁ l₂ : BitVec 32, l₁.toNat < sizeX.toNat * sizeY.toNat * sizeZ.toNat →
    l₂.toNat < sizeX.toNat * sizeY.toNat * sizeZ.toNat →
    (localIdIndex group l₁ sizeX sizeY).1 = (localIdIndex group l₂ sizeX sizeY).1 → l₁ = l₂) ∧
  (∀ a b c : BitVec 32, a.toNat < sizeX.toNat → b.toNat < sizeY.toNat → c.toNat < sizeZ.toNat →
    ∃ l : BitVec 32, l.toNat < sizeX.toNat * sizeY.toNat * sizeZ.toNat ∧
      (localIdIndex group l sizeX sizeY).1 = ⟨a, b, c⟩)

theorem linearLocalIdIndex_bijective {group : DerivativeGroup} (hg : group ≠ .quads)
    (h : LinearShape sizeX.toNat sizeY.toNat sizeZ.toNat) :
    LinearNumberingSpec group sizeX sizeY sizeZ := by
  have hq : ∀ l, localIdIndex group l sizeX sizeY = linearLocalIdIndex l sizeX sizeY :=
    fun _ => if_pos hg
  simp only [LinearNumberingSpec, hq]
  refine ⟨fun s w c hL => ?_, fun l₁ l₂ h₁ h₂ he => ?_, fun a b c ha hb hc => ?_⟩
  · have hl := linearInvocation_toNat s w c (lt_trans hL h.total_lt)
    obtain ⟨hid, hidx⟩ := linearLocalIdIndex_toNat h (l := linearInvocation s w c)
    rw [hl] at hid
    refine ⟨by rw [hidx, hl], hid, ?_⟩
    simp only [Vec3.toNat, Vec3.mk.injEq] at hid
    rw [hid.1, hid.2.1, hid.2.2]
    exact glsl_split_in_box h.pos_x h.pos_y hL
  · have e := congrArg Vec3.toNat he
    rw [(linearLocalIdIndex_toNat h).1, (linearLocalIdIndex_toNat h).1] at e
    simp only [Vec3.mk.injEq] at e
    apply BitVec.eq_of_toNat_eq
    rw [← (glsl_split_in_box h.pos_x h.pos_y h₁).2.2.2,
      ← (glsl_split_in_box h.pos_x h.pos_y h₂).2.2.2, e.1, e.2.1, e.2.2]
  · obtain ⟨hlt, hx, hy, hz⟩ := glsl_split_of_box ha hb hc
    have hval : (BitVec.ofNat 32 (a.toNat + sizeX.toNat * (b.toNat + sizeY.toNat * c.toNat))).toNat
        = a.toNat + sizeX.toNat * (b.toNat + sizeY.toNat * c.toNat) :=
      Nat.mod_eq_of_lt (lt_trans hlt h.total_lt)
    refine ⟨_, hval ▸ hlt, Vec3.toNat_injective ?_⟩
    rw [(linearLocalIdIndex_toNat h).1, hval, hx, hy, hz]
    rfl

theorem linearLocalIdIndex_bijective_4x4x1 :
    (DerivativeGroup.none ≠ .quads ∧
      LinearShape (4 : BitVec 32).toNat (4 : BitVec 32).toNat (1 : BitVec 32).toNat) ∧
      LinearNumberingSpec .none 4 4 1 :=
  have h : LinearShape (4 : BitVec 32).toNat (4 : BitVec 32).toNat (1 : BitVec 32).toNat :=
    ⟨by decide, by decide, by decide, by decide⟩
  ⟨⟨nofun, h⟩, linearLocalIdIndex_bijective nofun h⟩

end Linear

end MesaSim.Cs
