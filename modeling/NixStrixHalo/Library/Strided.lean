import Mathlib.Order.Interval.Set.LinearOrder
import Mathlib.Order.Interval.Set.Disjoint
import Mathlib.Tactic.Linarith
import Mathlib.Order.CompletePartialOrder

/-!
# Elements at a stride

`count` elements of `size` bytes are laid out `stride` bytes apart. Whether they stay within a
buffer is decided by the last one (`forall_span_subset_iff`), and whether they overlap by the stride
alone (`pairwise_disjoint_span_iff`).

Nothing is said of the bytes between the elements, and with a stride of zero all elements are at one
place: they are within the buffer if one is, and disjoint only if there are fewer than two of them.
-/

namespace Strided

variable {size stride count length : ℕ}

/-- The bytes of the element with an index. -/
def span (size stride i : ℕ) : Set ℕ := Set.Ico (i * stride) (i * stride + size)

/-- An element lies within the array if its end does. -/
theorem span_subset_iff (hsize : 0 < size) {i : ℕ} :
    span size stride i ⊆ Set.Ico 0 length ↔ i * stride + size ≤ length := by
  rw [span, Set.Ico_subset_Ico_iff (by omega)]
  exact and_iff_right (Nat.zero_le _)

/-- **The elements stay within the buffer where the last one does.** -/
theorem forall_span_subset_iff (hsize : 0 < size) :
    (∀ i < count, span size stride i ⊆ Set.Ico 0 length) ↔
      (0 < count → (count - 1) * stride + size ≤ length) := by
  simp only [span_subset_iff hsize]
  constructor
  · intro h hcount
    exact h (count - 1) (by omega)
  · intro h i hi
    have hlast : i * stride ≤ (count - 1) * stride := Nat.mul_le_mul_right stride (by omega)
    have := h (by omega)
    omega

/-- The elements of two indices are disjoint where the stride is at least their size. -/
theorem disjoint_span (hstride : size ≤ stride) {i j : ℕ} (hij : i < j) :
    Disjoint (span size stride i) (span size stride j) := by
  have hnext : (i + 1) * stride ≤ j * stride := Nat.mul_le_mul_right stride hij
  rw [add_mul, one_mul] at hnext
  rw [span, span, Set.Ico_disjoint_Ico]
  exact (min_le_left _ _).trans ((by omega : _ ≤ j * stride).trans (le_max_right _ _))

/-- **The elements do not overlap** exactly where there is only one, or the stride is at least their
size: otherwise the first two overlap. -/
theorem pairwise_disjoint_span_iff :
    (∀ i < count, ∀ j < count, i ≠ j → Disjoint (span size stride i) (span size stride j)) ↔
      (1 < count → size ≤ stride) := by
  constructor
  · intro h hcount
    have hfirst := h 0 (by omega) 1 hcount zero_ne_one
    rw [span, span, Set.Ico_disjoint_Ico] at hfirst
    omega
  · intro h i hi j hj hij
    rcases lt_or_gt_of_ne hij with hlt | hgt
    · exact disjoint_span (h (by omega)) hlt
    · exact (disjoint_span (h (by omega)) hgt).symm

end Strided
