import Mathlib.Algebra.Ring.Int.Defs
import Mathlib.Algebra.Order.Ring.Int

/-!
# 32-bit integers

Kernels compute their offsets in 32-bit integers, which wrap around, and an offset is extended when
it is added to a pointer.

## What the kernels compute

`toInt32` is the value that is left of a mathematical one. A program id, a lane and every product
or sum of these is such a value; a number that a kernel is compiled for takes the type of the other
operand, and one that is no 32-bit integer raises a `ValueError`.

## When nothing wraps

`toInt32_eq_self_iff` says that a value is kept exactly if it is in range (`InInt32`). The sums and
products inside a wrapped value need not be wrapped themselves, which the `simp` lemmas say.
-/

namespace Sglang

/-- `.to(torch.int32)`. -/
def toInt32 (x : ℤ) : ℤ := Int.bmod x (2 ^ 32)

/-- A number that fits is kept. -/
theorem toInt32_eq_self {x : ℤ} (hlo : -2 ^ 31 ≤ x) (hhi : x < 2 ^ 31) : toInt32 x = x :=
  Int.bmod_eq_of_le (by omega) (by omega)

/-- A natural number below `2 ^ 31` is kept. -/
theorem toInt32_natCast {n : ℕ} (h : n < 2 ^ 31) : toInt32 n = n :=
  toInt32_eq_self (by omega) (by omega)

/-- The value is a 32-bit integer. -/
def InInt32 (x : ℤ) : Prop := -2 ^ 31 ≤ x ∧ x < 2 ^ 31

instance (x : ℤ) : Decidable (InInt32 x) := inferInstanceAs (Decidable (-2 ^ 31 ≤ x ∧ x < 2 ^ 31))

/-- **A value is kept exactly if it is in range.** -/
theorem toInt32_eq_self_iff {x : ℤ} : toInt32 x = x ↔ InInt32 x := by
  constructor
  · intro h
    have hlo : -(2 ^ 31 : ℤ) ≤ Int.bmod x (2 ^ 32) := Int.le_bmod (by decide)
    have hhi : Int.bmod x (2 ^ 32) < 2 ^ 31 := Int.bmod_lt (by decide)
    rw [toInt32] at h
    rw [h] at hlo hhi
    exact ⟨hlo, hhi⟩
  · rintro ⟨hlo, hhi⟩
    exact toInt32_eq_self hlo hhi

@[simp] theorem toInt32_toInt32_add (x y : ℤ) : toInt32 (toInt32 x + y) = toInt32 (x + y) :=
  Int.bmod_add_bmod

@[simp] theorem toInt32_add_toInt32 (x y : ℤ) : toInt32 (x + toInt32 y) = toInt32 (x + y) :=
  Int.add_bmod_bmod

@[simp] theorem toInt32_toInt32_mul (x y : ℤ) : toInt32 (toInt32 x * y) = toInt32 (x * y) :=
  Int.bmod_mul_bmod

/-- A product with a smaller factor is in range when the product is. -/
theorem InInt32.mul_of_le {m n : ℕ} {x : ℤ} (h : InInt32 (n * x)) (hmn : m ≤ n) :
    InInt32 (m * x) := by
  have hmn' : (m : ℤ) ≤ n := by exact_mod_cast hmn
  have hm : (0 : ℤ) ≤ m := Int.natCast_nonneg m
  rcases le_total 0 x with hx | hx
  · have hle : (m : ℤ) * x ≤ n * x := mul_le_mul_of_nonneg_right hmn' hx
    have hnonneg : (0 : ℤ) ≤ m * x := mul_nonneg hm hx
    exact ⟨by omega, hle.trans_lt h.2⟩
  · have hle : (n : ℤ) * x ≤ m * x := mul_le_mul_of_nonpos_right hmn' hx
    have hnonpos : (m : ℤ) * x ≤ 0 := mul_nonpos_of_nonneg_of_nonpos hm hx
    exact ⟨h.1.trans hle, by omega⟩

end Sglang
