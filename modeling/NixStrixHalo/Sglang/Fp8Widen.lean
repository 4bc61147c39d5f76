import NixStrixHalo.Library.BinaryFloat
import Mathlib.Data.BitVec
import Mathlib.Tactic.IntervalCases

/-!
# Widening FP8 operands to FP16

On gfx1151 the quantized matrix products of `sglang/kernels/ops/quantization/fp8_kernel.py` and the
fused mixture-of-experts kernel widen both operands of `tl.dot` with
`sglang/kernels/ops/quantization/fp8_utils.py`'s `widen_e4m3fn_to_fp16`, which works on bits: a
normal magnitude is shifted and its bias corrected, a subnormal one goes through FP32 arithmetic,
the one NaN is written as a constant.

## What is proved

The widening is exact (`widen_exact`): the FP16 pattern stands for what the FP8 pattern stands for,
sign of zero and NaN included. The products that `tl.dot` accumulates in FP32 are then the exact
products of the FP8 operands, as eight significant bits fit.

## The proof

The three formats are instances of `BinaryFloat`, where moving a normal pattern to a wider format is
a shift and an addition. A subnormal magnitude is a product that FP32 has exactly
(`float32_product`), and rounding it to FP16 gives the pattern of the same value. No case is decided
by running through the patterns.
-/

namespace Sglang.Fp8

open BinaryFloat

def float16 : Format := ⟨5, 10, 15⟩

def float32 : Format := ⟨8, 23, 127⟩

/-- `tl.float8e4nv`. -/
def float8e4nv : Format := ⟨4, 3, 7⟩

/-- The pattern of the FP32 product `magnitude * 0.001953125`, converted to FP16. -/
def subnormalBits (magnitude : BitVec 16) : BitVec 16 :=
  let product := float32.nearest
    (float32.nearest (magnitude &&& 7).toNat * float32.nearest 0.001953125)
  BitVec.ofNat 16 (float16.round product)

/-- `widen_e4m3fn_to_fp16`, on the bits of one lane. -/
def widenE4m3fnToFp16 (x : BitVec 8) : BitVec 16 :=
  let bits := x.setWidth 16
  let magnitude := bits &&& 0x7F
  let normal := (magnitude <<< 7) + 0x2000
  let subnormal := subnormalBits magnitude
  let value := if magnitude < 8 then subnormal else normal
  let value := if magnitude = 0x7F then 0x7E00 else value
  value ||| ((bits &&& 0x80) <<< 8)

/-! ### Magnitudes -/

/-- The FP8 subnormals and the smallest normal numbers are multiples of `2 ^ -9`. -/
theorem magnitude_of_lt {m : ℕ} (h : m < 8) : float8e4nv.magnitude m = m * 2 ^ (-9 : ℤ) := by
  rw [Format.magnitude, Format.units_of_lt h]
  rfl

/-- A small natural number times a power of two is a number of FP32. -/
theorem float32_nearest_mul {n s : ℕ} {q : ℚ} (hn : n < 2 ^ 24) (hs : s < 253)
    (hq : q = n * 2 ^ s * 2 ^ (-149 : ℤ)) : float32.nearest q = q :=
  (Format.round_of_eq (f := float32) hn (by show s + 3 ≤ 2 ^ 8; omega) hq).2

/-- The FP32 product is exact. -/
theorem float32_product {m : ℕ} (h : m < 8) :
    float32.nearest (float32.nearest m * float32.nearest 0.001953125) = m * 2 ^ (-9 : ℤ) := by
  have hm : float32.nearest m = m :=
    float32_nearest_mul (n := m) (s := 149) (by omega) (by omega) (by norm_num; ring)
  have hc : float32.nearest 0.001953125 = 2 ^ (-9 : ℤ) := by
    rw [show (0.001953125 : ℚ) = 2 ^ (-9 : ℤ) by norm_num]
    exact float32_nearest_mul (n := 1) (s := 140) (by omega) (by omega) (by norm_num)
  rw [hm, hc]
  exact float32_nearest_mul (n := m) (s := 140) (by omega) (by omega) (by norm_num; ring)

/-! ### Patterns -/

/-- Below the NaN, the magnitude that is computed is the FP8 magnitude rounded to FP16. -/
theorem float16_round_magnitude {m : ℕ} (hm : m < 0x7F) :
    float16.round (float8e4nv.magnitude m) =
      if m < 8 then float16.round (m * 2 ^ (-9 : ℤ)) else m * 2 ^ 7 + 0x2000 := by
  split_ifs with h
  · rw [magnitude_of_lt h]
  · have hrebias : float16.magnitude (m * 2 ^ 7 + 8 * 2 ^ 10) = float8e4nv.magnitude m :=
      Format.magnitude_rebias (f := float8e4nv) (g := float16) (k := 7) (d := 8) rfl rfl
        (by show 2 ^ 3 ≤ m; omega)
    rw [← hrebias]
    exact Format.round_magnitude (by show m * 2 ^ 7 + 8 * 2 ^ 10 ≤ 31744; omega)

/-- An FP8 magnitude has a significand of four bits. -/
theorem exists_magnitude {m : ℕ} (hm : m < 2 ^ 7) :
    ∃ n s : ℕ, n < 2 ^ 4 ∧ s < 15 ∧ float8e4nv.magnitude m = n * 2 ^ s * 2 ^ (-9 : ℤ) := by
  obtain ⟨n, s, hn, hu, hpat, hs⟩ := Format.exists_units (f := float8e4nv) m
  have hsum : m = s * 2 ^ 3 + n := hpat
  have hlead : s = 0 ∨ 2 ^ 3 ≤ n := hs
  refine ⟨n, s, hn, by omega, ?_⟩
  rw [Format.magnitude, hu]
  push_cast
  rfl

/-- FP16 holds every FP8 magnitude. -/
theorem float16_magnitude {m : ℕ} (hm : m < 2 ^ 7) :
    float16.round (float8e4nv.magnitude m) < float16.top ∧
      float16.nearest (float8e4nv.magnitude m) = float8e4nv.magnitude m := by
  obtain ⟨n, s, hn, hs, hval⟩ := exists_magnitude hm
  refine Format.round_of_eq (f := float16) (n := n) (s := s + 15)
    (by show n < 2 ^ 11; omega) (by show s + 15 + 3 ≤ 2 ^ 5; omega) ?_
  have hunit : float16.unit = 2 ^ (-24 : ℤ) := rfl
  rw [hval, hunit, pow_add]
  norm_num
  ring

/-- FP32 holds every product of two FP8 magnitudes. -/
theorem float32_magnitude_mul {m k : ℕ} (hm : m < 2 ^ 7) (hk : k < 2 ^ 7) (neg : Bool) :
    float32.nearestMeaning (.num neg (float8e4nv.magnitude m * float8e4nv.magnitude k)) =
      .num neg (float8e4nv.magnitude m * float8e4nv.magnitude k) := by
  obtain ⟨n, s, hn, hs, hval⟩ := exists_magnitude hm
  obtain ⟨l, t, hl, ht, hval'⟩ := exists_magnitude hk
  have hsig : n * l < 2 ^ 24 := by nlinarith
  refine Format.nearestMeaning_of_eq (f := float32) (n := n * l) (s := s + t + 131) neg
    hsig (by show s + t + 131 + 3 ≤ 2 ^ 8; omega) ?_
  have hunit : float32.unit = 2 ^ (-149 : ℤ) := rfl
  rw [hval, hval', hunit, pow_add, pow_add]
  push_cast
  norm_num
  ring

/-! ### Bits -/

/-- The sign is moved to the sign bit. -/
theorem sign_bits (x : BitVec 8) :
    (x.setWidth 16 &&& 0x80) <<< 8 = if x.msb then 0x8000#16 else 0 := by
  revert x
  decide

/-- The mask leaves the magnitude. -/
theorem toNat_magnitude_bits (x : BitVec 8) :
    (x.setWidth 16 &&& 0x7F).toNat = x.toNat % 2 ^ 7 := by
  revert x
  decide

/-- A number below eight is its own low bits. -/
theorem toNat_low_bits {m : BitVec 16} (h : m.toNat < 8) : (m &&& 7).toNat = m.toNat := by
  rw [BitVec.toNat_and, show (7 : BitVec 16).toNat = 2 ^ 3 - 1 from rfl,
    Nat.and_two_pow_sub_one_eq_mod, Nat.mod_eq_of_lt h]

/-- A subnormal magnitude becomes the FP16 pattern of the same number. -/
theorem toNat_subnormalBits {m : BitVec 16} (h : m.toNat < 8) :
    (subnormalBits m).toNat = float16.round (m.toNat * 2 ^ (-9 : ℤ)) := by
  have hlt : float16.round (m.toNat * 2 ^ (-9 : ℤ)) ≤ float16.top := Nat.min_le_right _ _
  rw [subnormalBits, toNat_low_bits h, float32_product h, BitVec.toNat_ofNat, Nat.mod_eq_of_lt]
  exact lt_of_le_of_lt hlt (by decide)

/-- The magnitude that is selected, before the sign is put in front. -/
def magnitudeBits (magnitude : BitVec 16) : BitVec 16 :=
  if magnitude = 0x7F then 0x7E00
  else if magnitude < 8 then subnormalBits magnitude else (magnitude <<< 7) + 0x2000

/-- The magnitude is widened without its sign. -/
theorem widenE4m3fnToFp16_eq (x : BitVec 8) :
    widenE4m3fnToFp16 x =
      magnitudeBits (x.setWidth 16 &&& 0x7F) ||| if x.msb then 0x8000#16 else 0 :=
  congrArg (magnitudeBits (x.setWidth 16 &&& 0x7F) ||| ·) (sign_bits x)

/-- **The magnitude is widened exactly**: the only pattern that is no number becomes one that is
none. -/
theorem toNat_magnitudeBits {m : BitVec 16} (hm : m.toNat < 2 ^ 7) :
    (magnitudeBits m).toNat =
      if m.toNat = 0x7F then 0x7E00 else float16.round (float8e4nv.magnitude m.toNat) := by
  have hnan : m = 0x7F ↔ m.toNat = 0x7F := BitVec.toNat_inj.symm
  have hsub : m < 8 ↔ m.toNat < 8 := BitVec.lt_def
  simp only [magnitudeBits, hnan, hsub]
  split_ifs with h h'
  · rfl
  · rw [toNat_subnormalBits h', magnitude_of_lt h']
  · rw [float16_round_magnitude (by omega), if_neg h', BitVec.toNat_add, BitVec.toNat_shiftLeft,
      Nat.shiftLeft_eq]
    show (m.toNat * 2 ^ 7 % 2 ^ 16 + 0x2000) % 2 ^ 16 = m.toNat * 2 ^ 7 + 0x2000
    omega

/-- What the widening computes: the magnitude rounded to FP16, after the sign. -/
theorem toNat_widenE4m3fnToFp16 (x : BitVec 8) :
    (widenE4m3fnToFp16 x).toNat = 2 ^ 15 * x.msb.toNat +
      if x.toNat % 2 ^ 7 = 0x7F then 0x7E00
      else float16.round (float8e4nv.magnitude (x.toNat % 2 ^ 7)) := by
  have hm : x.toNat % 2 ^ 7 < 2 ^ 7 := Nat.mod_lt _ (by decide)
  have hsign : (if x.msb then 0x8000#16 else 0).toNat = 2 ^ 15 * x.msb.toNat := by
    cases x.msb <;> rfl
  rw [widenE4m3fnToFp16_eq, BitVec.toNat_or, hsign,
    toNat_magnitudeBits (by rw [toNat_magnitude_bits]; exact hm), toNat_magnitude_bits, Nat.or_comm]
  refine (Nat.two_pow_add_eq_or_of_lt ?_ _).symm
  split_ifs
  · decide
  · exact (float16_magnitude hm).1.trans (by decide)

/-- The sign bit and the magnitude of a byte. -/
theorem decodeFinite_toNat (x : BitVec 8) :
    float8e4nv.decodeFinite x.toNat =
      if x.toNat % 2 ^ 7 = 0x7F then .nan
      else .num x.msb (float8e4nv.magnitude (x.toNat % 2 ^ 7)) := by
  rw [BitVec.msb_eq_getLsbD_last]
  rfl

/-- An FP16 operand stands for what the FP8 operand stands for. -/
theorem decode_widenE4m3fnToFp16 (x : BitVec 8) :
    float16.decode (widenE4m3fnToFp16 x).toNat = float8e4nv.decodeFinite x.toNat := by
  have hm : x.toNat % 2 ^ 7 < 2 ^ 7 := Nat.mod_lt _ (by decide)
  obtain ⟨hround, hnearest⟩ := float16_magnitude hm
  rw [toNat_widenE4m3fnToFp16, decodeFinite_toNat]
  split_ifs with h
  · exact (Format.decode_sign_add (f := float16) x.msb (by decide)).trans rfl
  · have hlt : float16.round (float8e4nv.magnitude (x.toNat % 2 ^ 7)) < 2 ^ 15 :=
      hround.trans (by decide)
    refine (Format.decode_sign_add (f := float16) x.msb hlt).trans ?_
    rw [if_pos hround]
    exact congrArg (Meaning.num x.msb) hnearest

/-- An FP16 operand stands for what the FP8 operand stands for, and the product of two of them that
`tl.dot` adds to its FP32 accumulator is the exact product of the FP8 operands. -/
theorem widen_exact (x y : BitVec 8) :
    float16.decode (widenE4m3fnToFp16 x).toNat = float8e4nv.decodeFinite x.toNat ∧
      float32.nearestMeaning ((float16.decode (widenE4m3fnToFp16 x).toNat).mul
          (float16.decode (widenE4m3fnToFp16 y).toNat)) =
        (float8e4nv.decodeFinite x.toNat).mul (float8e4nv.decodeFinite y.toNat) := by
  refine ⟨decode_widenE4m3fnToFp16 x, ?_⟩
  rw [decode_widenE4m3fnToFp16, decode_widenE4m3fnToFp16, decodeFinite_toNat, decodeFinite_toNat]
  split_ifs
  · rfl
  · rfl
  · rfl
  · exact float32_magnitude_mul (Nat.mod_lt _ (by decide)) (Nat.mod_lt _ (by decide)) _

end Sglang.Fp8
