import Mathlib.Tactic.Ring

/-!
# NIR integer ALU operations

The integer opcodes the two lowering passes emit, on the fixed-width values NIR computes with:
`nir_iadd`, `nir_imul`, `nir_ishl`, `nir_ishr`, `nir_iand`, `nir_ior`, `nir_umod`, `nir_udiv`
and the zero extension `nir_u2u64`. Shift counts are masked to the bit size and a zero divisor
gives zero, as NIR's opcode table defines them. The lemmas read each operation back as `Nat`
arithmetic on operands small enough not to wrap.
-/

namespace MesaSim.Nir

/-- `nir_iadd`: wrapping addition. -/
def iadd {w : Nat} (a b : BitVec w) : BitVec w := a + b

/-- `nir_imul`: wrapping multiplication, low half. -/
def imul {w : Nat} (a b : BitVec w) : BitVec w := a * b

/-- `nir_ishl`: `src0 << (src1 & (bit_size - 1))`. -/
def ishl {w : Nat} (a b : BitVec w) : BitVec w := a <<< (b.toNat % w)

/-- `nir_ishr`: arithmetic shift right by `src1 & (bit_size - 1)`. -/
def ishr {w : Nat} (a b : BitVec w) : BitVec w := a.sshiftRight (b.toNat % w)

/-- `nir_iand`. -/
def iand {w : Nat} (a b : BitVec w) : BitVec w := a &&& b

/-- `nir_ior`. -/
def ior {w : Nat} (a b : BitVec w) : BitVec w := a ||| b

/-- `nir_umod`: `src1 == 0 ? 0 : src0 % src1`. -/
def umod {w : Nat} (a b : BitVec w) : BitVec w := if b = 0 then 0 else a % b

/-- `nir_udiv`: `src1 == 0 ? 0 : src0 / src1`. -/
def udiv {w : Nat} (a b : BitVec w) : BitVec w := if b = 0 then 0 else a / b

/-- `nir_u2u64`: zero extension to 64 bits. -/
def u2u64 {w : Nat} (a : BitVec w) : BitVec 64 := a.setWidth 64

/-- A three-component NIR vector, built by `nir_vec3`. -/
structure Vec3 (α : Type) where
  x : α
  y : α
  z : α
  deriving DecidableEq, Repr

/-- The components of a 32-bit vector as natural numbers. -/
def Vec3.toNat {w : Nat} (v : Vec3 (BitVec w)) : Vec3 Nat := ⟨v.x.toNat, v.y.toNat, v.z.toNat⟩

/-- Vectors of fixed-width values are determined by their components' values. -/
theorem Vec3.toNat_injective {w : Nat} {u v : Vec3 (BitVec w)} (h : u.toNat = v.toNat) :
    u = v := by
  cases u; cases v
  simp only [Vec3.toNat, Vec3.mk.injEq] at h
  simp only [Vec3.mk.injEq]
  exact ⟨BitVec.eq_of_toNat_eq h.1, BitVec.eq_of_toNat_eq h.2.1, BitVec.eq_of_toNat_eq h.2.2⟩

@[simp] theorem toNat_iadd {w : Nat} (a b : BitVec w) :
    (iadd a b).toNat = (a.toNat + b.toNat) % 2 ^ w := BitVec.toNat_add a b

@[simp] theorem toNat_imul {w : Nat} (a b : BitVec w) :
    (imul a b).toNat = a.toNat * b.toNat % 2 ^ w := BitVec.toNat_mul a b

@[simp] theorem toNat_iand {w : Nat} (a b : BitVec w) :
    (iand a b).toNat = a.toNat &&& b.toNat := BitVec.toNat_and a b

@[simp] theorem toNat_ior {w : Nat} (a b : BitVec w) :
    (ior a b).toNat = a.toNat ||| b.toNat := BitVec.toNat_or a b

@[simp] theorem toNat_u2u64 {w : Nat} (a : BitVec w) (h : w ≤ 64) :
    (u2u64 a).toNat = a.toNat := by
  simp only [u2u64, BitVec.toNat_setWidth]
  exact Nat.mod_eq_of_lt (lt_of_lt_of_le a.isLt (Nat.pow_le_pow_right (by omega) h))

theorem toNat_umod {w : Nat} (a b : BitVec w) (hb : 0 < b.toNat) :
    (umod a b).toNat = a.toNat % b.toNat := by
  have : b ≠ 0 := fun h => by simp [h] at hb
  simp only [umod, this, if_false, BitVec.toNat_umod]

theorem toNat_udiv {w : Nat} (a b : BitVec w) (hb : 0 < b.toNat) :
    (udiv a b).toNat = a.toNat / b.toNat := by
  have : b ≠ 0 := fun h => by simp [h] at hb
  simp only [udiv, this, if_false, BitVec.toNat_udiv]

/-- Shifting left by one doubles, modulo the width. -/
theorem toNat_ishl_one (a : BitVec 32) : (ishl a 1).toNat = 2 * a.toNat % 2 ^ 32 := by
  simp only [ishl, BitVec.toNat_shiftLeft, Nat.shiftLeft_eq]
  simp [Nat.mul_comm]

/-- On a value with a clear sign bit the arithmetic shift by one halves. -/
theorem toNat_ishr_one (a : BitVec 32) (h : a.toNat < 2 ^ 31) :
    (ishr a 1).toNat = a.toNat / 2 := by
  rw [ishr, BitVec.sshiftRight_eq_of_msb_false
    (BitVec.msb_eq_false_iff_two_mul_lt.mpr (by omega)), BitVec.toNat_ushiftRight]
  simp [Nat.shiftRight_eq_div_pow]

/-! ### Masks as arithmetic -/

/-- Or-ing a bit below an even number adds it. -/
theorem lor_two_mul_of_lt_two (a b : Nat) (hb : b < 2) : 2 * a ||| b = 2 * a + b := by
  apply Nat.eq_of_testBit_eq
  intro i
  have h := Nat.testBit_mul_pow_two_add a (i := 1) (by omega : b < 2 ^ 1) i
  rw [pow_one] at h
  rw [h, Nat.testBit_or]
  cases i with
  | zero => simp [Nat.testBit_zero]
  | succ j =>
    have hb' : b.testBit (j + 1) = false :=
      Nat.testBit_lt_two_pow (Nat.lt_of_lt_of_le hb (Nat.le_self_pow (by omega) 2))
    simp [hb', Nat.testBit_add_one]

/-- The mask `0xfffffffe` clears bit 0 of a 32-bit value. -/
theorem land_even_mask (n : Nat) (hn : n < 2 ^ 32) : n &&& 0xfffffffe = 2 * (n / 2) := by
  apply Nat.eq_of_testBit_eq
  intro i
  rw [Nat.testBit_and]
  cases i with
  | zero => simp [Nat.testBit_zero]
  | succ j =>
    have hm : (0xfffffffe : Nat) / 2 = 2 ^ 31 - 1 := by norm_num
    rw [Nat.testBit_add_one, Nat.testBit_add_one, Nat.testBit_add_one, hm,
      Nat.testBit_two_pow_sub_one, Nat.mul_div_cancel_left _ (by omega)]
    by_cases hj : j < 31
    · simp [hj]
    · have : (n / 2).testBit j = false := Nat.testBit_lt_two_pow (by
        have := Nat.pow_le_pow_right (n := 2) (by omega) (show 31 ≤ j by omega); omega)
      simp [this]

end MesaSim.Nir
