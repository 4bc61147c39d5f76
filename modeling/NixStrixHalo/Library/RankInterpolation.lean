import Mathlib.Algebra.Order.Field.Basic
import Mathlib.Algebra.Order.Floor.Ring
import Mathlib.Data.Int.ConditionallyCompleteOrder
import Mathlib.Data.List.Forall2
import Mathlib.Data.List.Sort
import Mathlib.Tactic.Linarith
import Mathlib.Tactic.Ring

/-!
# Interpolation between ranks

A sequence is read at a rank that need not be an integer by interpolating linearly between the two
integers around it. Where the sequence is monotone, so is the value in the rank, and the value lies
between those at the two integers.

Sorting is monotone: raising elements of a list lowers none of the sorted list
(`forall₂_insertionSort`), so a value that is read off the sorted list is monotone in the elements
of the list too. The proof inserts one element after the other, and an insertion of a greater
element into a greater list is greater at each place (`forall₂_orderedInsert`).
-/

namespace RankInterpolation

variable {K : Type*} [Field K] [LinearOrder K] [FloorRing K]

/-- The value of `x` at the rank `r`. -/
def interpolate (x : ℤ → K) (r : K) : K := x ⌊r⌋ + (x ⌈r⌉ - x ⌊r⌋) * (r - ⌊r⌋)

/-! ### The value at a rank -/

section

variable {x y : ℤ → K} {r s : K} {S : Set ℤ}

/-- At a rank that is an integer, nothing is interpolated. -/
theorem interpolate_of_floor_eq_ceil (h : ⌊r⌋ = ⌈r⌉) : interpolate x r = x ⌊r⌋ := by
  rw [interpolate, ← h, sub_self, zero_mul, add_zero]

/-- The value as a mean of the two values around it. -/
theorem interpolate_eq (x : ℤ → K) (r : K) :
    interpolate x r = x ⌊r⌋ * (1 - Int.fract r) + x ⌈r⌉ * Int.fract r := by
  rw [interpolate, Int.self_sub_floor]
  ring

variable [IsStrictOrderedRing K]

/-- The interpolation is not below the lower of the two values. -/
theorem le_interpolate (h : x ⌊r⌋ ≤ x ⌈r⌉) : x ⌊r⌋ ≤ interpolate x r := by
  have hterm : 0 ≤ (x ⌈r⌉ - x ⌊r⌋) * (r - ⌊r⌋) :=
    mul_nonneg (sub_nonneg.2 h) (sub_nonneg.2 (Int.floor_le r))
  rw [interpolate]
  linarith

/-- The interpolation is not above the higher of the two values. -/
theorem interpolate_le (h : x ⌊r⌋ ≤ x ⌈r⌉) : interpolate x r ≤ x ⌈r⌉ := by
  have hterm : (x ⌈r⌉ - x ⌊r⌋) * (r - ⌊r⌋) ≤ (x ⌈r⌉ - x ⌊r⌋) * 1 :=
    mul_le_mul_of_nonneg_left (Int.self_sub_floor r ▸ (Int.fract_lt_one r).le) (sub_nonneg.2 h)
  rw [interpolate]
  linarith

/-- **The value is monotone in the sequence.** -/
theorem interpolate_le_interpolate (hfloor : x ⌊r⌋ ≤ y ⌊r⌋) (hceil : x ⌈r⌉ ≤ y ⌈r⌉) :
    interpolate x r ≤ interpolate y r := by
  rw [interpolate_eq, interpolate_eq]
  have hone : 0 ≤ 1 - Int.fract r := sub_nonneg.2 (Int.fract_lt_one r).le
  exact add_le_add (mul_le_mul_of_nonneg_right hfloor hone)
    (mul_le_mul_of_nonneg_right hceil (Int.fract_nonneg r))

/-- **The value is monotone in the rank**, as far as the sequence is monotone. -/
theorem interpolate_mono (hx : MonotoneOn x S) (hr : ⌊r⌋ ∈ S) (hr' : ⌈r⌉ ∈ S) (hs : ⌊s⌋ ∈ S)
    (hs' : ⌈s⌉ ∈ S) (hrs : r ≤ s) : interpolate x r ≤ interpolate x s := by
  have hle : x ⌊r⌋ ≤ x ⌈r⌉ := hx hr hr' (Int.floor_le_ceil r)
  have hle' : x ⌊s⌋ ≤ x ⌈s⌉ := hx hs hs' (Int.floor_le_ceil s)
  rcases (Int.floor_mono hrs).eq_or_lt with hfloor | hfloor
  · rcases (Int.ceil_mono hrs).eq_or_lt with hceil | hceil
    · -- between the same two integers
      rw [interpolate, interpolate, ← hfloor, ← hceil]
      have hterm : (x ⌈r⌉ - x ⌊r⌋) * (r - ⌊r⌋) ≤ (x ⌈r⌉ - x ⌊r⌋) * (s - ⌊r⌋) :=
        mul_le_mul_of_nonneg_left (sub_le_sub_right hrs _) (sub_nonneg.2 hle)
      linarith
    · -- the lower rank is the integer below the higher one
      have hceil' : ⌊r⌋ = ⌈r⌉ := by
        have hsucc := Int.ceil_le_floor_add_one s
        have hmin := Int.floor_le_ceil r
        omega
      rw [interpolate_of_floor_eq_ceil hceil', hfloor]
      exact le_interpolate hle'
  · have hbetween : ⌈r⌉ ≤ ⌊s⌋ := (Int.ceil_le_floor_add_one r).trans hfloor
    exact (interpolate_le hle).trans ((hx hr' hs hbetween).trans (le_interpolate hle'))

end

/-! ### Sorting -/

section

variable {α : Type*} [LinearOrder α] {a b : α} {s t : List α}

/-- Inserting in order into lists that are pointwise ordered keeps them so. -/
theorem forall₂_orderedInsert (hs : s.Pairwise (· ≤ ·)) (ht : t.Pairwise (· ≤ ·)) (hab : a ≤ b)
    (h : List.Forall₂ (· ≤ ·) s t) :
    List.Forall₂ (· ≤ ·) (s.orderedInsert (· ≤ ·) a) (t.orderedInsert (· ≤ ·) b) := by
  induction h generalizing a b with
  | nil => exact .cons hab .nil
  | @cons c d s t hcd h ih =>
    obtain ⟨hc, hs⟩ := List.pairwise_cons.1 hs
    obtain ⟨hd, ht⟩ := List.pairwise_cons.1 ht
    -- the heads stay in front of their own tails, so they can be inserted there
    have hcs : s.orderedInsert (· ≤ ·) c = c :: s := by
      cases s with
      | nil => rfl
      | cons e s => exact List.orderedInsert_cons_of_le _ _ (hc e List.mem_cons_self)
    have hdt : t.orderedInsert (· ≤ ·) d = d :: t := by
      cases t with
      | nil => rfl
      | cons e t => exact List.orderedInsert_cons_of_le _ _ (hd e List.mem_cons_self)
    by_cases hac : a ≤ c
    · rw [List.orderedInsert_cons_of_le _ _ hac]
      by_cases hbd : b ≤ d
      · rw [List.orderedInsert_cons_of_le _ _ hbd]
        exact .cons hab (.cons hcd h)
      · -- `c` takes the place of `a` in the tail
        rw [List.orderedInsert_of_not_le _ _ hbd, ← hcs]
        exact .cons (hac.trans hcd) (ih hs ht (hcd.trans (not_le.1 hbd).le))
    · rw [List.orderedInsert_of_not_le _ _ hac]
      by_cases hbd : b ≤ d
      · rw [List.orderedInsert_cons_of_le _ _ hbd, ← hdt]
        exact .cons ((not_le.1 hac).le.trans hab) (ih hs ht (hab.trans hbd))
      · rw [List.orderedInsert_of_not_le _ _ hbd]
        exact .cons hcd (ih hs ht hab)

/-- **Raising elements lowers none of the sorted list.** -/
theorem forall₂_insertionSort (h : List.Forall₂ (· ≤ ·) s t) :
    List.Forall₂ (· ≤ ·) (s.insertionSort (· ≤ ·)) (t.insertionSort (· ≤ ·)) := by
  induction h with
  | nil => exact .nil
  | cons hab _ ih =>
    exact forall₂_orderedInsert (List.pairwise_insertionSort _ _)
      (List.pairwise_insertionSort _ _) hab ih

end

end RankInterpolation
