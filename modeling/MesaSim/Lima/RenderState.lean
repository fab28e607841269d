import MesaSim.Lima.Varying

/-!
# The render state words of the uniforms and the varyings

`lima_pack_render_state` (`brw_nir_lower_cs_intrinsics.c:986–999`) ORs a size code into the
low bits of `uniforms_address` when a fragment constant buffer is bound:

    uint32_t size = ctx->buffer_state[lima_ctx_buff_pp_uniform].size;
    uint32_t bits = 0;
    if (size >= 8) {
       bits = util_last_bit(size >> 3) - 1;
       bits += size & u_bit_consecutive(0, bits + 3) ? 1 : 0;
    }
    render->uniforms_address |= bits > 0xf ? 0xf : bits;

`util_last_bit` and `u_bit_consecutive` are Mesa's `util/bitscan.h` helpers, not in this
source; they are modelled from their definitions. The code is the ceiling of `log2 (size / 8)`,
clamped to 15 (`ppUniformSizeCode_eq_min`).

When the vertex shader has varyings, it also packs a 3-bit type code for each of them
(`:1001–1033`): the first ten into `varying_types`, the eleventh into its top two bits and
bit 0 of `varyings_address`, the twelfth into bits 1–3 of `varyings_address`, whose bits from
4 on are the varying region of `gp_output`. With at most twelve varyings and a 64-byte
aligned buffer the two words give back every code and the region
(`limaPackVaryings_decode`).
-/

namespace MesaSim.Lima

/-- `util_last_bit(u)`: the position, counted from one, of the highest set bit, and 0 for 0
(`u == 0 ? 0 : 32 - __builtin_clz(u)`). -/
def utilLastBit (u : BitVec 32) : BitVec 32 :=
  if u = 0 then 0 else BitVec.ofNat 32 (Nat.log2 u.toNat + 1)

/-- `u_bit_consecutive(start, count)`: `count` set bits from bit `start`
(`count == 32 ? ~0 : ((1u << count) - 1) << start`). -/
def uBitConsecutive (start count : BitVec 32) : BitVec 32 :=
  if count = 32 then BitVec.allOnes 32 else (((1 : BitVec 32) <<< count.toNat) - 1) <<< start.toNat

/-- `bits` before the clamp (`:990–994`). -/
def uniformSizeBits (size : BitVec 32) : BitVec 32 :=
  if 8 ≤ size then
    let bits := utilLastBit (size >>> 3) - 1
    bits + (if size &&& uBitConsecutive 0 (bits + 3) ≠ 0 then 1 else 0)
  else 0

/-- The code ORed into `uniforms_address` (`:995`). -/
def ppUniformSizeCode (size : BitVec 32) : BitVec 32 :=
  let bits := uniformSizeBits size
  if bits > 0xf then 0xf else bits

/-- `n` is the least `b` with `n ≤ 8 * 2 ^ b`. -/
def LeastSizeExponent (n b : Nat) : Prop := n ≤ 8 * 2 ^ b ∧ ∀ c < b, 8 * 2 ^ c < n

theorem LeastSizeExponent.unique {n b b' : Nat} (h : LeastSizeExponent n b)
    (h' : LeastSizeExponent n b') : b = b' := by
  rcases Nat.lt_trichotomy b b' with hlt | heq | hgt
  · exact absurd h.1 (Nat.not_le.mpr (h'.2 b hlt))
  · exact heq
  · exact absurd h'.1 (Nat.not_le.mpr (h.2 b' hgt))

/-- From eight bytes on, `bits` is `log2 (size / 8)`, plus one unless `size` is exactly
`8 * 2 ^ log2 (size / 8)`: the low `bits + 3` bits of `size` are its remainder modulo that. -/
theorem uniformSizeBits_toNat {size : BitVec 32} (h : 8 ≤ size.toNat) :
    (uniformSizeBits size).toNat = Nat.log2 (size.toNat / 8) +
      if size.toNat % 2 ^ (Nat.log2 (size.toNat / 8) + 3) = 0 then 0 else 1 := by
  have hm : size.toNat / 8 ≠ 0 := by omega
  have hk : Nat.log2 (size.toNat / 8) < 29 :=
    (Nat.log2_lt hm).mpr (by have := size.isLt; omega)
  have hshr : (size >>> 3).toNat = size.toNat / 8 := by
    rw [BitVec.toNat_ushiftRight, Nat.shiftRight_eq_div_pow]
  have hbits : (utilLastBit (size >>> 3) - 1).toNat = Nat.log2 (size.toNat / 8) := by
    have hne : size >>> 3 ≠ 0 := fun h0 => hm (by rw [← hshr, h0]; rfl)
    rw [utilLastBit, if_neg hne, BitVec.toNat_sub, BitVec.toNat_ofNat, hshr]
    simp only [BitVec.ofNat_eq_ofNat, BitVec.toNat_ofNat]
    omega
  have hcount : (utilLastBit (size >>> 3) - 1 + 3).toNat = Nat.log2 (size.toNat / 8) + 3 := by
    rw [BitVec.toNat_add, hbits]
    simp only [BitVec.ofNat_eq_ofNat, BitVec.toNat_ofNat]
    omega
  have hpow : 2 ^ (Nat.log2 (size.toNat / 8) + 3) < 2 ^ 32 :=
    Nat.pow_lt_pow_right (by omega) (by omega)
  have hpos : 0 < 2 ^ (Nat.log2 (size.toNat / 8) + 3) := Nat.pos_pow_of_pos _ (by omega)
  have hmask : (uBitConsecutive 0 (utilLastBit (size >>> 3) - 1 + 3)).toNat =
      2 ^ (Nat.log2 (size.toNat / 8) + 3) - 1 := by
    have hne : utilLastBit (size >>> 3) - 1 + 3 ≠ 32 := fun h32 => by
      have := congrArg BitVec.toNat h32; rw [hcount] at this; simp at this; omega
    rw [uBitConsecutive, if_neg hne, BitVec.toNat_shiftLeft, BitVec.toNat_sub,
      BitVec.toNat_shiftLeft, hcount]
    simp only [BitVec.ofNat_eq_ofNat, BitVec.toNat_ofNat, Nat.shiftLeft_eq, Nat.one_mul,
      Nat.zero_mod, Nat.pow_zero, Nat.mul_one]
    omega
  have hiff : size &&& uBitConsecutive 0 (utilLastBit (size >>> 3) - 1 + 3) ≠ 0 ↔
      size.toNat % 2 ^ (Nat.log2 (size.toNat / 8) + 3) ≠ 0 := by
    rw [Ne, BitVec.toNat_eq, BitVec.toNat_and, hmask, Nat.and_pow_two_sub_one_eq_mod]; rfl
  have hle : (8 : BitVec 32) ≤ size := by
    simp only [BitVec.le_def, BitVec.ofNat_eq_ofNat, BitVec.toNat_ofNat]; omega
  simp only [uniformSizeBits, if_pos hle, BitVec.toNat_add, hbits]
  by_cases hz : size.toNat % 2 ^ (Nat.log2 (size.toNat / 8) + 3) = 0
  · simp only [hz, hiff, ne_eq, not_true_eq_false, if_false, if_true]; simp; omega
  · simp only [hz, hiff, ne_eq, not_false_eq_true, if_false, if_true]; simp; omega

/-- `bits` is the least `b` with `size ≤ 8 * 2 ^ b`. -/
theorem uniformSizeBits_least (size : BitVec 32) :
    LeastSizeExponent size.toNat (uniformSizeBits size).toNat := by
  by_cases h8 : 8 ≤ size.toNat
  · rw [uniformSizeBits_toNat h8]
    have hm : size.toNat / 8 ≠ 0 := by omega
    have hlo := Nat.log2_self_le hm
    have hhi := Nat.lt_log2_self (n := size.toNat / 8)
    generalize Nat.log2 (size.toNat / 8) = k at hlo hhi
    have hrange : 8 * 2 ^ k ≤ size.toNat ∧ size.toNat < 8 * 2 ^ (k + 1) := by omega
    have hmod : size.toNat % 2 ^ (k + 3) = size.toNat - 8 * 2 ^ k := by
      rw [show 2 ^ (k + 3) = 8 * 2 ^ k by ring, Nat.mod_eq_sub_mod hrange.1,
        Nat.mod_eq_of_lt (by rw [Nat.pow_succ] at hrange; omega)]
    have hmono : ∀ c < k, 8 * 2 ^ c < 8 * 2 ^ k := fun c hc =>
      Nat.mul_lt_mul_of_pos_left (Nat.pow_lt_pow_right (by omega) hc) (by omega)
    rw [hmod]
    split_ifs with hz
    · rw [Nat.add_zero]
      exact ⟨by omega, fun c hc => by have := hmono c hc; omega⟩
    · refine ⟨le_of_lt hrange.2, fun c hc => ?_⟩
      rcases Nat.lt_succ_iff_lt_or_eq.mp hc with hc | rfl
      · have := hmono c hc; omega
      · omega
  · have hlt : ¬(8 : BitVec 32) ≤ size := by
      simp only [BitVec.le_def, BitVec.ofNat_eq_ofNat, BitVec.toNat_ofNat]; omega
    have h0 : uniformSizeBits size = 0 := by rw [uniformSizeBits, if_neg hlt]
    rw [h0]
    exact ⟨by simp; omega, fun c hc => absurd hc (Nat.not_lt_zero c)⟩

theorem ppUniformSizeCode_eq_min (size : BitVec 32) (b : Nat)
    (hb : LeastSizeExponent size.toNat b) : (ppUniformSizeCode size).toNat = min 15 b := by
  rw [← (uniformSizeBits_least size).unique hb, ppUniformSizeCode]
  split_ifs with h <;>
    simp only [gt_iff_lt, BitVec.lt_def, BitVec.ofNat_eq_ofNat, BitVec.toNat_ofNat] at h ⊢ <;>
    omega

theorem ppUniformSizeCode_eq_min_24 :
    LeastSizeExponent (24 : BitVec 32).toNat 2 ∧ (ppUniformSizeCode 24).toNat = min 15 2 :=
  have hb : LeastSizeExponent (24 : BitVec 32).toNat 2 := by unfold LeastSizeExponent; decide
  ⟨hb, ppUniformSizeCode_eq_min 24 2 hb⟩

/-! ### The varying types -/

/-- `val` of `lima_pack_render_state` (`:1013–1016`): 0 or 1 for 4-byte components (more
than two components or not), 2 or 3 for 2-byte ones. -/
def varyingTypeCode (v : VaryingInfo) : BitVec 32 :=
  if v.componentSize = 4 then (if 2 < v.components.toInt then 0 else 1)
  else (if 2 < v.components.toInt then 2 else 3)

/-- Packing the code `val` of the varying numbered `index` (`:1018–1027`). -/
def packVaryingType (index : Nat) (val : BitVec 32) (acc : BitVec 32 × BitVec 32) :
    BitVec 32 × BitVec 32 :=
  if index < 10 then (acc.1 ||| val <<< (3 * index), acc.2)
  else if index = 10 then (acc.1 ||| val <<< 30, acc.2 ||| val >>> 2)
  else if index = 11 then (acc.1, acc.2 ||| val <<< 1)
  else acc

/-- The loop over the outputs (`:1005–1030`), from output `i` with `index` varyings packed. -/
def varyingTypesLoop (vs : VsVaryings) : Nat → Nat → List VaryingInfo →
    BitVec 32 × BitVec 32 → BitVec 32 × BitVec 32
  | _, _, [], acc => acc
  | i, index, v :: outs, acc =>
    if vs.special i then varyingTypesLoop vs (i + 1) index outs acc
    else varyingTypesLoop vs (i + 1) (index + 1) outs (packVaryingType index (varyingTypeCode v) acc)

/-- `render->varying_types` and `render->varyings_address` (`:1001–1035`), from the
`gp_output` buffer's address and `ctx->gp_output_varyings_offt`. -/
def limaPackVaryings (vs : VsVaryings) (va varyingsOfft : BitVec 32) : BitVec 32 × BitVec 32 :=
  if vs.numVaryings ≠ 0 then varyingTypesLoop vs 0 0 vs.varying (0, va + varyingsOfft)
  else (0, 0)

/-- The outputs the loops do not skip, in order, from output `i` on. -/
def VsVaryings.varyingsFrom (vs : VsVaryings) : Nat → List VaryingInfo → List VaryingInfo
  | _, [] => []
  | i, v :: outs =>
    if vs.special i then vs.varyingsFrom (i + 1) outs else v :: vs.varyingsFrom (i + 1) outs

/-- The type code of the `k`-th varying read back from the two words: bits `[3k, 3k + 3)` of
`varying_types` for `k < 10`, its bits 30–31 with bit 0 of `varyings_address` for `k = 10`,
bits 1–3 of `varyings_address` for `k = 11`. -/
def decodeVaryingType (types address : BitVec 32) (k : Nat) : BitVec 32 :=
  if k < 10 then (types >>> (3 * k)) &&& 7
  else if k = 10 then (types >>> 30) ||| ((address &&& 1) <<< 2)
  else (address >>> 1) &&& 7

/-- The number whose base-8 digits, least significant first, are `ds`. -/
def octalValue : List Nat → Nat
  | [] => 0
  | d :: ds => d + 8 * octalValue ds

theorem octalValue_append (l : List Nat) (d : Nat) :
    octalValue (l ++ [d]) = octalValue l + 8 ^ l.length * d := by
  induction l with
  | nil => simp [octalValue]
  | cons e l ih =>
    rw [List.cons_append, octalValue, octalValue, ih, List.length_cons, Nat.pow_succ]; ring

theorem octalValue_lt {l : List Nat} (h : ∀ d ∈ l, d < 8) : octalValue l < 8 ^ l.length := by
  induction l with
  | nil => simp [octalValue]
  | cons d l ih =>
    have := ih fun e he => h e (List.mem_cons_of_mem d he)
    have := h d (List.mem_cons_self d l)
    rw [octalValue, List.length_cons, Nat.pow_succ]; omega

/-- Digit `k` of an octal value is the `k`-th entry. -/
theorem octalValue_digit {l : List Nat} (h : ∀ d ∈ l, d < 8) (k : Nat) :
    octalValue l / 8 ^ k % 8 = l.getD k 0 := by
  induction l generalizing k with
  | nil => simp [octalValue]
  | cons d l ih =>
    have hd := h d (List.mem_cons_self d l)
    cases k with
    | zero => simp [octalValue]; omega
    | succ k =>
      rw [octalValue, Nat.pow_succ', ← Nat.div_div_eq_div_mul,
        Nat.add_mul_div_left _ _ (by omega), Nat.div_eq_of_lt hd, Nat.zero_add]
      exact ih (fun e he => h e (List.mem_cons_of_mem d he)) k

theorem varyingTypeCode_lt (v : VaryingInfo) : (varyingTypeCode v).toNat < 4 := by
  unfold varyingTypeCode; split_ifs <;> decide

/-- A two-bit code shifted into place below bit 32 does not wrap. -/
theorem toNat_code_shiftLeft {c : BitVec 32} (hc : c.toNat < 4) {n : Nat} (hn : n ≤ 30) :
    (c <<< n).toNat = 2 ^ n * c.toNat := by
  have := Nat.mul_le_mul (Nat.pow_le_pow_right (n := 2) (by omega) hn) (by omega : c.toNat ≤ 3)
  rw [BitVec.toNat_shiftLeft, Nat.shiftLeft_eq, Nat.mul_comm]
  exact Nat.mod_eq_of_lt (by omega)

/-- Twice a two-bit code lies in the low four bits a 16-byte aligned address leaves clear. -/
theorem or_two_mul_code {base d : Nat} (hb : base % 16 = 0) (hd : d < 4) :
    base ||| 2 * d = base + 2 * d := by
  have := Nat.mul_add_lt_is_or (i := 4) (by omega : 2 * d < 2 ^ 4) (base / 16)
  rw [show 2 ^ 4 * (base / 16) = base by omega] at this
  exact this.symm

section Pack

variable {base : Nat}

/-- The two words after packing the codes `pre`: `varying_types` holds the first eleven in
base 8, `varyings_address` is the region's address plus twice the twelfth. -/
def PackedAs (base : Nat) (pre : List Nat) (acc : BitVec 32 × BitVec 32) : Prop :=
  acc.1.toNat = octalValue (pre.take 11) ∧ acc.2.toNat = base + 2 * pre.getD 11 0

/-- Packing one more code extends the packed codes by it. -/
theorem packVaryingType_packed (hb : base % 16 = 0) {pre : List Nat}
    (hpre : ∀ d ∈ pre, d < 4) {acc : BitVec 32 × BitVec 32} (h : PackedAs base pre acc)
    {c : BitVec 32} (hc : c.toNat < 4) :
    PackedAs base (pre ++ [c.toNat]) (packVaryingType pre.length c acc) := by
  obtain ⟨h₁, h₂⟩ := h
  have hlt : octalValue pre < 2 ^ (3 * pre.length) := by
    rw [Nat.pow_mul]; exact octalValue_lt fun d hd => by have := hpre d hd; omega
  have hgetD : ∀ n, pre.length < n → (pre ++ [c.toNat]).getD n 0 = pre.getD n 0 := fun n hn => by
    simp [List.getD_eq_getElem?_getD, List.getElem?_eq_none (by simp; omega : (pre ++ [c.toNat]).length ≤ n),
      List.getElem?_eq_none (by omega : pre.length ≤ n)]
  have htake : ∀ l : List Nat, l.length ≤ 11 → l.take 11 = l := fun l hl => List.take_of_length_le hl
  have hpush : pre.length ≤ 10 →
      (acc.1 ||| c <<< (3 * pre.length)).toNat = octalValue (pre ++ [c.toNat]) := fun hl => by
    rw [BitVec.toNat_or, toNat_code_shiftLeft hc (by omega), h₁, htake pre (by omega), Nat.or_comm,
      ← Nat.mul_add_lt_is_or hlt, octalValue_append, Nat.pow_mul]
    ring
  unfold PackedAs packVaryingType
  split_ifs with h10 h10' h11 <;> try dsimp only
  · rw [htake _ (by simp; omega), h₂, hgetD 11 (by omega)]
    exact ⟨hpush (by omega), rfl⟩
  · have hc2 : c >>> 2 = 0#32 := by
      apply BitVec.eq_of_toNat_eq
      rw [BitVec.toNat_ushiftRight, Nat.shiftRight_eq_div_pow]
      show c.toNat / 4 = 0
      omega
    rw [hc2, BitVec.or_zero, htake _ (by simp; omega), h₂, hgetD 11 (by omega)]
    have := hpush (by omega)
    rw [h10'] at this
    exact ⟨this, rfl⟩
  · have hnil : pre.getD 11 0 = 0 := by
      simp [List.getD_eq_getElem?_getD, List.getElem?_eq_none (by omega : pre.length ≤ 11)]
    have hlast : (pre ++ [c.toNat]).getD 11 0 = c.toNat := by
      simp [List.getD_eq_getElem?_getD, ← h11]
    rw [List.take_append_of_le_length (by omega), BitVec.toNat_or, h₂, hnil, hlast,
      toNat_code_shiftLeft hc (by omega), Nat.mul_zero, Nat.add_zero, Nat.pow_one,
      or_two_mul_code hb hc]
    exact ⟨h₁, rfl⟩
  · have hget : (pre ++ [c.toNat]).getD 11 0 = pre.getD 11 0 := by
      simp [List.getD_eq_getElem?_getD, List.getElem?_append_left (by omega : 11 < pre.length)]
    rw [List.take_append_of_le_length (by omega), hget]
    exact ⟨h₁, h₂⟩

/-- The loop packs the codes of the varyings in output order. -/
theorem varyingTypesLoop_packed {vs : VsVaryings} (hb : base % 16 = 0) (i : Nat) (outs : List VaryingInfo) (pre : List Nat) (hpre : ∀ d ∈ pre, d < 4)
    (acc : BitVec 32 × BitVec 32) (h : PackedAs base pre acc) :
    PackedAs base (pre ++ (vs.varyingsFrom i outs).map fun v => (varyingTypeCode v).toNat)
      (varyingTypesLoop vs i pre.length outs acc) := by
  induction outs generalizing i pre acc with
  | nil => simpa [VsVaryings.varyingsFrom, varyingTypesLoop] using h
  | cons v outs ih =>
    by_cases hs : vs.special i
    · simp only [varyingTypesLoop, VsVaryings.varyingsFrom, if_pos hs]
      exact ih (i + 1) pre hpre acc h
    · simp only [varyingTypesLoop, VsVaryings.varyingsFrom, if_neg hs, List.map_cons]
      have := ih (i + 1) (pre ++ [(varyingTypeCode v).toNat]) (by
          simpa [or_imp, forall_and] using ⟨hpre, varyingTypeCode_lt v⟩)
        _ (packVaryingType_packed hb hpre h (varyingTypeCode_lt v))
      simpa using this

/-- Packed codes are read back by `decodeVaryingType`. -/
theorem decodeVaryingType_packed (hb : base % 16 = 0) {codes : List Nat}
    (hc : ∀ d ∈ codes, d < 4) {acc : BitVec 32 × BitVec 32} (h : PackedAs base codes acc)
    {k : Nat} (hk : k < 12) : (decodeVaryingType acc.1 acc.2 k).toNat = codes.getD k 0 := by
  obtain ⟨h₁, h₂⟩ := h
  have h8 : ∀ d ∈ codes.take 11, d < 8 := fun d hd => by
    have := hc d (List.mem_of_mem_take hd); omega
  have hdigit : ∀ j < 11, acc.1.toNat / 8 ^ j % 8 = codes.getD j 0 := fun j hj => by
    rw [h₁, octalValue_digit h8]
    simp [List.getD_eq_getElem?_getD, List.getElem?_take, hj]
  have h7 : (7 : BitVec 32).toNat = 2 ^ 3 - 1 := rfl
  unfold decodeVaryingType
  split_ifs with h10 h10'
  · rw [BitVec.toNat_and, BitVec.toNat_ushiftRight, h7, Nat.and_pow_two_sub_one_eq_mod,
      Nat.shiftRight_eq_div_pow, Nat.pow_mul]
    exact hdigit k (by omega)
  · subst h10'
    have hlt : acc.1.toNat < 8 ^ 11 := by
      rw [h₁]
      exact lt_of_lt_of_le (octalValue_lt h8)
        (Nat.pow_le_pow_right (by omega) (List.length_take_le 11 codes))
    have hodd : (acc.2 &&& 1).toNat = 0 := by
      rw [BitVec.toNat_and, show (1 : BitVec 32).toNat = 2 ^ 1 - 1 from rfl,
        Nat.and_pow_two_sub_one_eq_mod, h₂]
      omega
    rw [BitVec.toNat_or, BitVec.toNat_shiftLeft, hodd, BitVec.toNat_ushiftRight,
      Nat.shiftRight_eq_div_pow, Nat.zero_shiftLeft, Nat.zero_mod, Nat.or_zero,
      ← hdigit 10 (by omega), show 2 ^ 30 = 8 ^ 10 by norm_num, Nat.mod_eq_of_lt]
    rw [Nat.div_lt_iff_lt_mul (by norm_num)]
    calc acc.1.toNat < 8 ^ 11 := hlt
      _ = 8 * 8 ^ 10 := by norm_num
  · obtain rfl : k = 11 := by omega
    have hc11 : codes.getD 11 0 < 4 := by
      rw [List.getD_eq_getElem?_getD]
      cases h : codes[11]? with
      | none => simp
      | some d => exact hc d (List.mem_iff_getElem?.mpr ⟨11, h⟩)
    rw [BitVec.toNat_and, BitVec.toNat_ushiftRight, h7, Nat.and_pow_two_sub_one_eq_mod,
      Nat.shiftRight_eq_div_pow, h₂]
    omega

end Pack

/-- An fp32 `vec3` and an fp16 `vec2` between `gl_Position` and `gl_PointSize`: codes 0 and 3,
the second at bits 3–5; the region at `0x1000 + 64`. -/
example : limaPackVaryings ⟨[⟨4, 4⟩, ⟨3, 4⟩, ⟨2, 2⟩, ⟨1, 4⟩], 0, 3, 2⟩ 0x1000 64 = (24, 0x1040) := by
  decide

/-- The varyings of a shader with varyings make `num_varyings` nonzero. -/
def VsVaryings.Counted (vs : VsVaryings) : Prop :=
  vs.varyingsFrom 0 vs.varying ≠ [] → vs.numVaryings ≠ 0

theorem limaPackVaryings_decode (vs : VsVaryings) (num va varyingsOfft pointSizeOfft : BitVec 32)
    (hvar : vs.Counted) (h12 : (vs.varyingsFrom 0 vs.varying).length ≤ 12)
    (hva : va.toNat % 64 = 0) :
    let L := limaUpdateVarying vs num va varyingsOfft pointSizeOfft
    let w := limaPackVaryings vs va L.varyingsOfft
    (∀ k v, (vs.varyingsFrom 0 vs.varying)[k]? = some v →
      decodeVaryingType w.1 w.2 k = varyingTypeCode v) ∧
    (vs.numVaryings ≠ 0 → w.2 &&& ~~~0xf = va + L.varyingsOfft) := by
  intro L w
  by_cases hnv : vs.numVaryings ≠ 0
  · have hvo : L.varyingsOfft = align (4 * 4 * num) 0x40 := by
      simp only [L, limaUpdateVarying_eq, if_pos hnv]
    have hb : (va + L.varyingsOfft).toNat % 16 = 0 := by
      have := align64_mod (4 * 4 * num)
      rw [BitVec.toNat_add, hvo]; omega
    have hP : PackedAs (va + L.varyingsOfft).toNat
        ((vs.varyingsFrom 0 vs.varying).map fun v => (varyingTypeCode v).toNat) w := by
      have := @varyingTypesLoop_packed _ vs hb 0 vs.varying [] (by simp) (0, va + L.varyingsOfft)
        ⟨rfl, by simp⟩
      simpa only [w, limaPackVaryings, if_pos hnv, List.nil_append] using this
    refine ⟨fun k v hv => BitVec.eq_of_toNat_eq ?_, fun _ => BitVec.eq_of_toNat_eq ?_⟩
    · have hk := (List.getElem?_eq_some_iff.mp hv).1
      rw [decodeVaryingType_packed hb (by simpa using fun v _ => varyingTypeCode_lt v) hP
        (by omega)]
      simp [List.getD_eq_getElem?_getD, hv]
    · have hc11 : ((vs.varyingsFrom 0 vs.varying).map fun v => (varyingTypeCode v).toNat).getD 11 0
          < 4 := by
        rw [List.getD_eq_getElem?_getD, List.getElem?_map]
        cases (vs.varyingsFrom 0 vs.varying)[11]? <;> simp [varyingTypeCode_lt]
      rw [BitVec.toNat_and, BitVec.toNat_not, show (0xf : BitVec 32).toNat = 2 ^ 4 - 1 from rfl,
        land_not_low_bits (BitVec.isLt _) (by omega), hP.2]
      omega
  · have hnil : vs.varyingsFrom 0 vs.varying = [] := by
      by_contra h; exact hnv (hvar h)
    refine ⟨fun k v hv => by simp [hnil] at hv, fun h => absurd h hnv⟩

theorem limaPackVaryings_decode_three_vertices :
    vsPosVec3Vec2PointSize.Counted ∧
      (vsPosVec3Vec2PointSize.varyingsFrom 0 vsPosVec3Vec2PointSize.varying).length ≤ 12 ∧
      (0x1000 : BitVec 32).toNat % 64 = 0 ∧
      let L := limaUpdateVarying vsPosVec3Vec2PointSize 3 0x1000 0 0
      let w := limaPackVaryings vsPosVec3Vec2PointSize 0x1000 L.varyingsOfft
      (∀ k v, (vsPosVec3Vec2PointSize.varyingsFrom 0 vsPosVec3Vec2PointSize.varying)[k]? = some v →
        decodeVaryingType w.1 w.2 k = varyingTypeCode v) ∧
      (vsPosVec3Vec2PointSize.numVaryings ≠ 0 → w.2 &&& ~~~0xf = 0x1000 + L.varyingsOfft) :=
  have hvar : vsPosVec3Vec2PointSize.Counted := fun _ => by decide
  have h12 : (vsPosVec3Vec2PointSize.varyingsFrom 0 vsPosVec3Vec2PointSize.varying).length ≤ 12 :=
    by decide
  have hva : (0x1000 : BitVec 32).toNat % 64 = 0 := by decide
  ⟨hvar, h12, hva, limaPackVaryings_decode vsPosVec3Vec2PointSize 3 0x1000 0 0 hvar h12 hva⟩

end MesaSim.Lima
