import Mathlib.Algebra.Order.Floor.Semiring
import Mathlib.Algebra.Order.Field.Power
import Mathlib.Data.Nat.Log
import Mathlib.Data.Rat.Floor
import Mathlib.Tactic.FieldSimp
import Mathlib.Tactic.Linarith
import Mathlib.Tactic.LinearCombination
import Mathlib.Tactic.NormNum

/-!
# Binary floating-point formats

A format has an exponent field, a mantissa field and a bias. Without its sign, a pattern is a
natural number `m`, exponent field first, and what it stands for is a natural number of units in
the last place of the smallest numbers of the format: `f.units m` of `f.unit`. Patterns of
exponent zero are subnormal.

## Rounding

Rounding is to nearest, ties to even, and reads the pattern off the integer logarithm. A value of
the format is rounded to its own pattern (`round_magnitude`), so a number is left alone by rounding
exactly when its significand fits (`nearest_of_eq`). The error of any other one is bounded by its
last place (`abs_nearest_sub_le`).

## Formats compared

Moving a normal pattern to a format with more mantissa bits and a larger bias is a shift and an
addition (`magnitude_rebias`). Signs and special values are in `Meaning`: a number with its sign, so
that the two zeros differ, an infinity or no number at all.
-/

namespace BinaryFloat

/-- What a pattern stands for. -/
inductive Meaning where
  | nan
  | inf (neg : Bool)
  | num (neg : Bool) (magnitude : ℚ)
deriving DecidableEq

namespace Meaning

/-- The exact product, with the signs and the special values of floating-point multiplication. -/
def mul : Meaning → Meaning → Meaning
  | nan, _ | _, nan => nan
  | inf s, inf t => inf (s ^^ t)
  | inf s, num t q | num t q, inf s => if q = 0 then nan else inf (s ^^ t)
  | num s p, num t q => num (s ^^ t) (p * q)

end Meaning

structure Format where
  exponentBits : ℕ
  mantissaBits : ℕ
  bias : ℤ

/-- The natural number nearest to a nonnegative one, the even one of two that are as near. -/
def halfEven (x : ℚ) : ℕ :=
  if x - ⌊x⌋₊ < 1 / 2 then ⌊x⌋₊
  else if 1 / 2 < x - ⌊x⌋₊ then ⌊x⌋₊ + 1
  else ⌊x⌋₊ + ⌊x⌋₊ % 2

/-- A natural number is its own rounding. -/
@[simp]
theorem halfEven_natCast (n : ℕ) : halfEven n = n := by
  simp [halfEven]

/-- Rounding moves a number by at most a half. -/
theorem abs_halfEven_sub_le {x : ℚ} (hx : 0 ≤ x) : |(halfEven x : ℚ) - x| ≤ 1 / 2 := by
  have hle : (⌊x⌋₊ : ℚ) ≤ x := Nat.floor_le hx
  have hlt : x < ⌊x⌋₊ + 1 := Nat.lt_floor_add_one x
  rw [abs_le, halfEven]
  split_ifs with hbelow habove
  · constructor <;> linarith
  · push_cast
    constructor <;> linarith
  · have hmod : ⌊x⌋₊ % 2 = 0 ∨ ⌊x⌋₊ % 2 = 1 := Nat.mod_two_eq_zero_or_one _
    rcases hmod with h | h <;> rw [h] <;> push_cast <;> constructor <;> linarith

/-- Rounding does not leave an interval between natural numbers. -/
theorem halfEven_mem_Icc {x : ℚ} {a b : ℕ} (ha : a ≤ x) (hb : x ≤ b) :
    a ≤ halfEven x ∧ halfEven x ≤ b := by
  have hround := abs_le.1 (abs_halfEven_sub_le ((Nat.cast_nonneg a).trans ha))
  have hlow : (a : ℚ) < (halfEven x + 1 : ℕ) := by push_cast; linarith
  have hhigh : (halfEven x : ℚ) < (b + 1 : ℕ) := by push_cast; linarith
  exact ⟨Nat.lt_succ_iff.1 (by exact_mod_cast hlow), Nat.lt_succ_iff.1 (by exact_mod_cast hhigh)⟩

/-- A number that is nearer than a half to a natural one is rounded to it. -/
theorem halfEven_of_near {x : ℚ} {n : ℕ} (hx : 0 ≤ x) (h : |x - n| < 1 / 2) : halfEven x = n := by
  have hround := abs_halfEven_sub_le hx
  have hdist : |(halfEven x : ℚ) - n| < 1 := by
    calc |(halfEven x : ℚ) - n| = |((halfEven x : ℚ) - x) + (x - n)| := by ring_nf
      _ ≤ |(halfEven x : ℚ) - x| + |x - n| := abs_add_le _ _
      _ < 1 := by linarith
  have hint : |(halfEven x : ℤ) - n| < 1 := by exact_mod_cast hdist
  have := Int.abs_lt_one_iff.1 hint
  omega

namespace Format

variable (f : Format)

/-- The value of the smallest positive pattern. -/
def unit : ℚ := 2 ^ (1 - f.bias - f.mantissaBits)

/-- How many units a pattern without sign stands for. -/
def units (m : ℕ) : ℕ :=
  if m < 2 ^ f.mantissaBits then m
  else (2 ^ f.mantissaBits + m % 2 ^ f.mantissaBits) * 2 ^ (m / 2 ^ f.mantissaBits - 1)

def magnitude (m : ℕ) : ℚ := f.units m * f.unit

/-- The pattern of infinity, the first one that is no number. -/
def top : ℕ := (2 ^ f.exponentBits - 1) * 2 ^ f.mantissaBits

/-- The pattern a nonnegative number is rounded to. -/
def round (q : ℚ) : ℕ :=
  let x := q / f.unit
  -- The mantissa of a number of `2 ^ (p + s)` units and more starts `s` places further up.
  let s := Nat.log 2 ⌊x⌋₊ - f.mantissaBits
  min (s * 2 ^ f.mantissaBits + halfEven (x / 2 ^ s)) f.top

/-- What is left of a nonnegative number after rounding. -/
def nearest (q : ℚ) : ℚ := f.magnitude (f.round q)

/-- A pattern of a format with infinities: the sign is the first bit. -/
def decode (n : ℕ) : Meaning :=
  let width := f.exponentBits + f.mantissaBits
  let m := n % 2 ^ width
  if m < f.top then .num (n.testBit width) (f.magnitude m)
  else if m = f.top then .inf (n.testBit width)
  else .nan

/-- A pattern of a format that has no infinities and one NaN of either sign, the last pattern. -/
def decodeFinite (n : ℕ) : Meaning :=
  let width := f.exponentBits + f.mantissaBits
  let m := n % 2 ^ width
  if m = 2 ^ width - 1 then .nan else .num (n.testBit width) (f.magnitude m)

/-- Rounding a meaning; a number that is too large becomes infinite. -/
def nearestMeaning : Meaning → Meaning
  | .nan => .nan
  | .inf s => .inf s
  | .num s q => if f.round q < f.top then .num s (f.nearest q) else .inf s

/-- The unit of a format is positive. -/
theorem unit_pos : 0 < f.unit := zpow_pos (by norm_num) _

variable {f} {m n s : ℕ}

/-! ### Patterns and numbers of units -/

/-- Below the normal numbers, a pattern counts its units. -/
theorem units_of_lt (h : m < 2 ^ f.mantissaBits) : f.units m = m := if_pos h

/-- A significand with its leading bit, `s` places up. -/
theorem units_normal (s : ℕ) (hle : 2 ^ f.mantissaBits ≤ n) (hlt : n < 2 ^ (f.mantissaBits + 1)) :
    f.units (s * 2 ^ f.mantissaBits + n) = n * 2 ^ s := by
  have hpos : 0 < 2 ^ f.mantissaBits := by positivity
  obtain ⟨k, rfl⟩ := Nat.exists_eq_add_of_le hle
  have hk : k < 2 ^ f.mantissaBits := by rw [pow_succ] at hlt; omega
  have hm : s * 2 ^ f.mantissaBits + (2 ^ f.mantissaBits + k) =
      k + 2 ^ f.mantissaBits * (s + 1) := by ring
  rw [hm, units, if_neg (by nlinarith), Nat.add_mul_mod_self_left, Nat.mod_eq_of_lt hk,
    Nat.add_mul_div_left _ _ hpos, Nat.div_eq_of_lt hk, Nat.zero_add, Nat.add_sub_cancel]

/-- Every pattern is a significand some places up, with its leading bit if there are any. -/
theorem exists_units (m : ℕ) : ∃ n s, n < 2 ^ (f.mantissaBits + 1) ∧ f.units m = n * 2 ^ s ∧
    m = s * 2 ^ f.mantissaBits + n ∧ (s = 0 ∨ 2 ^ f.mantissaBits ≤ n) := by
  have hpos : 0 < 2 ^ f.mantissaBits := by positivity
  by_cases h : m < 2 ^ f.mantissaBits
  · exact ⟨m, 0, by rw [pow_succ]; omega, by simp [units_of_lt h], by simp, .inl rfl⟩
  · have hmod : m % 2 ^ f.mantissaBits < 2 ^ f.mantissaBits := Nat.mod_lt _ hpos
    have hdiv : 1 ≤ m / 2 ^ f.mantissaBits := (Nat.one_le_div_iff hpos).2 (Nat.le_of_not_lt h)
    refine ⟨2 ^ f.mantissaBits + m % 2 ^ f.mantissaBits, m / 2 ^ f.mantissaBits - 1,
      by rw [pow_succ]; omega, if_neg h, ?_, .inr (Nat.le_add_right _ _)⟩
    calc m = m / 2 ^ f.mantissaBits * 2 ^ f.mantissaBits + m % 2 ^ f.mantissaBits :=
          (Nat.div_add_mod' _ _).symm
      _ = (m / 2 ^ f.mantissaBits - 1) * 2 ^ f.mantissaBits +
          (2 ^ f.mantissaBits + m % 2 ^ f.mantissaBits) := by
        obtain ⟨e, he⟩ := Nat.exists_eq_add_of_le hdiv
        rw [he, Nat.add_sub_cancel_left]; ring

/-- A number of units whose significand fits has a pattern, and the places it is up bound it. -/
theorem exists_pattern (s : ℕ) (hn : n < 2 ^ (f.mantissaBits + 1)) :
    ∃ m, f.units m = n * 2 ^ s ∧ m < (s + 2) * 2 ^ f.mantissaBits := by
  induction s generalizing n with
  | zero =>
    refine ⟨n, ?_, by rw [pow_succ] at hn; omega⟩
    by_cases h : n < 2 ^ f.mantissaBits
    · simp [units_of_lt h]
    · simpa using units_normal 0 (Nat.le_of_not_lt h) hn
  | succ s ih =>
    by_cases h : n < 2 ^ f.mantissaBits
    · -- A significand that starts with a zero is doubled and needs one place less.
      obtain ⟨m, hm, hlt⟩ := ih (n := 2 * n) (by rw [pow_succ]; omega)
      exact ⟨m, by rw [hm, pow_succ]; ring, hlt.trans_le (Nat.mul_le_mul_right _ (by omega))⟩
    · refine ⟨_, units_normal (s + 1) (Nat.le_of_not_lt h) hn, ?_⟩
      rw [pow_succ] at hn
      linarith

/-! ### Rounding -/

/-- A value of the format is rounded to its own pattern. -/
theorem round_magnitude (hm : m ≤ f.top) : f.round (f.magnitude m) = m := by
  have hunits : f.magnitude m / f.unit = f.units m :=
    mul_div_cancel_right₀ _ (unit_pos f).ne'
  obtain ⟨n, s, hn, hu, hround, hs⟩ := exists_units (f := f) m
  have hlog : Nat.log 2 (f.units m) - f.mantissaBits = s := by
    rw [hu]
    rcases hs with rfl | hle
    · have hlt : Nat.log 2 (n * 2 ^ 0) < f.mantissaBits + 1 :=
        Nat.log_lt_of_lt_pow' (Nat.succ_ne_zero _) (by simpa using hn)
      omega
    · have hlog : Nat.log 2 (n * 2 ^ s) = f.mantissaBits + s := by
        refine Nat.log_eq_of_pow_le_of_lt_pow ?_ ?_
        · rw [pow_add]; exact Nat.mul_le_mul_right _ hle
        · rw [add_right_comm, pow_add]; exact Nat.mul_lt_mul_of_pos_right hn (by positivity)
      rw [hlog, Nat.add_sub_cancel_left]
  have hcast : ((f.units m : ℕ) : ℚ) / 2 ^ s = (n : ℕ) := by
    rw [hu]; push_cast; exact mul_div_cancel_right₀ _ (by positivity)
  simp only [round, hunits, Nat.floor_natCast, hlog, hcast, halfEven_natCast, ← hround]
  exact Nat.min_eq_left hm

/-- Rounding a number whose significand fits changes nothing. -/
theorem round_of_eq {q : ℚ} (hn : n < 2 ^ (f.mantissaBits + 1)) (hs : s + 3 ≤ 2 ^ f.exponentBits)
    (hq : q = n * 2 ^ s * f.unit) : f.round q < f.top ∧ f.nearest q = q := by
  obtain ⟨m, hm, hlt⟩ := exists_pattern (f := f) s hn
  have hval : f.magnitude m = q := by rw [magnitude, hm, hq]; push_cast; rfl
  have htop : m < f.top := hlt.trans_le (Nat.mul_le_mul_right _ (by omega))
  rw [nearest, ← hval, round_magnitude htop.le]
  exact ⟨htop, rfl⟩

/-- A value that the format has is its own nearest. -/
theorem nearestMeaning_of_eq {q : ℚ} (neg : Bool) (hn : n < 2 ^ (f.mantissaBits + 1))
    (hs : s + 3 ≤ 2 ^ f.exponentBits) (hq : q = n * 2 ^ s * f.unit) :
    f.nearestMeaning (.num neg q) = .num neg q := by
  obtain ⟨hlt, hval⟩ := round_of_eq hn hs hq
  simp only [nearestMeaning, if_pos hlt, hval]

/-- The pattern that is read off a significand is right for one that has been rounded up, too. -/
theorem units_of_le (s : ℕ) (hle : 2 ^ f.mantissaBits ≤ n) (hn : n ≤ 2 ^ (f.mantissaBits + 1)) :
    f.units (s * 2 ^ f.mantissaBits + n) = n * 2 ^ s := by
  rcases hn.lt_or_eq with hlt | rfl
  · exact units_normal s hle hlt
  · have hsum : s * 2 ^ f.mantissaBits + 2 ^ (f.mantissaBits + 1) =
        (s + 1) * 2 ^ f.mantissaBits + 2 ^ f.mantissaBits := by ring
    rw [hsum, units_normal (s + 1) le_rfl (Nat.pow_lt_pow_right one_lt_two (Nat.lt_succ_self _))]
    ring

/-- The significand of a normal number: `s` is read off the integer logarithm. -/
theorem exists_significand {x : ℚ} (hx : 2 ^ f.mantissaBits ≤ x) :
    ∃ s, Nat.log 2 ⌊x⌋₊ - f.mantissaBits = s ∧ 2 ^ f.mantissaBits ≤ x / 2 ^ s ∧
      x / 2 ^ s < 2 ^ (f.mantissaBits + 1) := by
  have hfloor : 2 ^ f.mantissaBits ≤ ⌊x⌋₊ := Nat.le_floor (by exact_mod_cast hx)
  have hne : ⌊x⌋₊ ≠ 0 := (lt_of_lt_of_le (by positivity) hfloor).ne'
  obtain ⟨s, hs⟩ := Nat.exists_eq_add_of_le (Nat.le_log_of_pow_le one_lt_two hfloor)
  have hlow : (2 : ℚ) ^ (f.mantissaBits + s) ≤ x := by
    have hpow : 2 ^ (f.mantissaBits + s) ≤ ⌊x⌋₊ := hs ▸ Nat.pow_log_le_self 2 hne
    exact (by exact_mod_cast hpow : (2 : ℚ) ^ (f.mantissaBits + s) ≤ ⌊x⌋₊).trans
      (Nat.floor_le ((by positivity : (0 : ℚ) ≤ 2 ^ f.mantissaBits).trans hx))
  have hhigh : x < (2 : ℚ) ^ (f.mantissaBits + 1) * 2 ^ s := by
    have hpow : ⌊x⌋₊ + 1 ≤ 2 ^ (f.mantissaBits + s + 1) :=
      hs ▸ Nat.lt_pow_succ_log_self one_lt_two _
    calc x < ⌊x⌋₊ + 1 := Nat.lt_floor_add_one x
      _ ≤ 2 ^ (f.mantissaBits + s + 1) := by exact_mod_cast hpow
      _ = 2 ^ (f.mantissaBits + 1) * 2 ^ s := by ring
  refine ⟨s, by omega, ?_, ?_⟩
  · rw [le_div_iff₀ (by positivity), ← pow_add]
    exact hlow
  · rwa [div_lt_iff₀ (by positivity)]

/-- Rounding a normal number that is not too large moves it by half a unit in the last place at
most. -/
theorem abs_nearest_sub_le {q : ℚ} (hmin : 2 ^ f.mantissaBits * f.unit ≤ q)
    (hmax : q < 2 ^ (f.mantissaBits + (2 ^ f.exponentBits - 3)) * f.unit) :
    |f.nearest q - q| ≤ q / 2 ^ (f.mantissaBits + 1) := by
  have hunit : 0 < f.unit := unit_pos f
  obtain ⟨x, rfl⟩ : ∃ x, q = x * f.unit := ⟨q / f.unit, (div_mul_cancel₀ q hunit.ne').symm⟩
  have hx : 2 ^ f.mantissaBits ≤ x := le_of_mul_le_mul_right hmin hunit
  have hx' : x < 2 ^ (f.mantissaBits + (2 ^ f.exponentBits - 3)) :=
    lt_of_mul_lt_mul_right hmax hunit.le
  obtain ⟨s, hs, hlow, hhigh⟩ := exists_significand hx
  have hnonneg : 0 ≤ x / 2 ^ s := (by positivity : (0 : ℚ) ≤ 2 ^ f.mantissaBits).trans hlow
  have hround := abs_halfEven_sub_le hnonneg
  obtain ⟨hn₁, hn₂⟩ : 2 ^ f.mantissaBits ≤ halfEven (x / 2 ^ s) ∧
      halfEven (x / 2 ^ s) ≤ 2 ^ (f.mantissaBits + 1) :=
    halfEven_mem_Icc (by push_cast; exact hlow) (by push_cast; exact hhigh.le)
  have hplaces : s < 2 ^ f.exponentBits - 3 := by
    rw [le_div_iff₀ (by positivity), ← pow_add] at hlow
    have := (pow_lt_pow_iff_right₀ (one_lt_two : (1 : ℚ) < 2)).1 (hlow.trans_lt hx')
    omega
  -- the bound on `q` leaves room for a carry, so the pattern is below infinity
  have htop : s * 2 ^ f.mantissaBits + halfEven (x / 2 ^ s) ≤ f.top := by
    calc s * 2 ^ f.mantissaBits + halfEven (x / 2 ^ s)
        ≤ (s + 2) * 2 ^ f.mantissaBits := by rw [pow_succ] at hn₂; linarith
      _ ≤ f.top := Nat.mul_le_mul_right _ (by omega)
  have hval : f.nearest (x * f.unit) = halfEven (x / 2 ^ s) * 2 ^ s * f.unit := by
    simp only [nearest, round, mul_div_cancel_right₀ x hunit.ne', hs, Nat.min_eq_left htop,
      magnitude, units_of_le s hn₁ hn₂]
    push_cast
    rfl
  have hexact : x * f.unit = x / 2 ^ s * 2 ^ s * f.unit := by
    rw [div_mul_cancel₀ x (by positivity)]
  calc |f.nearest (x * f.unit) - x * f.unit|
      = |(halfEven (x / 2 ^ s) - x / 2 ^ s) * (2 ^ s * f.unit)| := by
        rw [hval]; congr 1; linear_combination -hexact
    _ = |(halfEven (x / 2 ^ s) : ℚ) - x / 2 ^ s| * (2 ^ s * f.unit) := by
        rw [abs_mul, abs_of_pos (by positivity : 0 < (2 : ℚ) ^ s * f.unit)]
    _ ≤ 1 / 2 * (2 ^ s * f.unit) := mul_le_mul_of_nonneg_right hround (by positivity)
    _ ≤ x * f.unit / 2 ^ (f.mantissaBits + 1) := by
        rw [le_div_iff₀ (by positivity), pow_succ]
        rw [le_div_iff₀ (by positivity)] at hlow
        calc 1 / 2 * (2 ^ s * f.unit) * (2 ^ f.mantissaBits * 2)
            = 2 ^ f.mantissaBits * 2 ^ s * f.unit := by ring
          _ ≤ x * f.unit := mul_le_mul_of_nonneg_right hlow hunit.le

/-! ### Patterns with a sign -/

/-- The sign bit and the rest of a pattern are decoded apart. -/
theorem decode_sign_add (neg : Bool) (hm : m < 2 ^ (f.exponentBits + f.mantissaBits)) :
    f.decode (2 ^ (f.exponentBits + f.mantissaBits) * neg.toNat + m) =
      if m < f.top then .num neg (f.magnitude m) else if m = f.top then .inf neg else .nan := by
  have hmod : (2 ^ (f.exponentBits + f.mantissaBits) * neg.toNat + m) %
      2 ^ (f.exponentBits + f.mantissaBits) = m := by
    rw [Nat.mul_add_mod, Nat.mod_eq_of_lt hm]
  have hbit : (2 ^ (f.exponentBits + f.mantissaBits) * neg.toNat + m).testBit
      (f.exponentBits + f.mantissaBits) = neg := by
    rw [Nat.testBit_two_pow_mul_add _ hm, if_neg (lt_irrefl _), Nat.sub_self]
    cases neg <;> rfl
  simp only [decode, hmod, hbit]

/-! ### Formats with more bits -/

/-- A normal pattern in a format with `k` more mantissa bits and a bias that is larger by `d`. -/
theorem magnitude_rebias {g : Format} {k d : ℕ} (hk : g.mantissaBits = f.mantissaBits + k)
    (hd : g.bias = f.bias + d) (hm : 2 ^ f.mantissaBits ≤ m) :
    g.magnitude (m * 2 ^ k + d * 2 ^ g.mantissaBits) = f.magnitude m := by
  obtain ⟨n, s, hn, hu, hpat, hs⟩ := exists_units (f := f) m
  have hle : 2 ^ f.mantissaBits ≤ n := by
    rcases hs with rfl | hle
    · simpa [hpat] using hm
    · exact hle
  have hsum : m * 2 ^ k + d * 2 ^ g.mantissaBits = (s + d) * 2 ^ g.mantissaBits + n * 2 ^ k := by
    rw [hpat, hk, pow_add]; ring
  have hnormal : g.units ((s + d) * 2 ^ g.mantissaBits + n * 2 ^ k) = n * 2 ^ k * 2 ^ (s + d) := by
    refine units_normal (s + d) ?_ ?_
    · rw [hk, pow_add]; exact Nat.mul_le_mul_right _ hle
    · rw [hk, add_right_comm, pow_add]; exact Nat.mul_lt_mul_of_pos_right hn (by positivity)
  have hunit : f.unit = 2 ^ (k + d) * g.unit := by
    rw [unit, unit, hd, hk, ← zpow_natCast, ← zpow_add₀ two_ne_zero]
    congr 1
    push_cast
    ring
  rw [magnitude, magnitude, hsum, hnormal, hu, hunit]
  push_cast
  ring

end Format

end BinaryFloat
