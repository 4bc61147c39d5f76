import Mathlib.Algebra.BigOperators.Fin
import Mathlib.Algebra.BigOperators.Intervals
import Mathlib.Data.List.FinRange
import Mathlib.Data.List.ProdSigma

/-!
# Ranges cut into blocks

The numbers below `m * n` are those of `m` blocks of `n` numbers, one block after the other. A list
or a sum over them is one over the blocks (`flatMap_range_map`, `sum_range_blocks`).

Where the last block is padded, its lanes beyond the end are masked: a sum over masked lanes is that
over the range (`sum_masked_blocks`), and a list over the lanes that are not masked is the one over
the range (`flatMap_filter_finRange`).
-/

namespace Blocks

/-! ### Lists -/

/-- The numbers of the blocks, in order. -/
theorem flatMap_range_map (m n : ℕ) :
    ((List.range m).flatMap fun i ↦ (List.range n).map fun j ↦ i * n + j) = List.range (m * n) := by
  induction m with
  | zero => simp
  | succ m ih =>
    rw [List.range_succ, List.flatMap_append, ih, List.flatMap_singleton, Nat.succ_mul,
      List.range_add]

/-- The numbers of a range that are below an end within it. -/
theorem filter_lt_range {n m : ℕ} (h : n ≤ m) : (List.range m).filter (· < n) = List.range n := by
  obtain ⟨d, rfl⟩ := Nat.exists_eq_add_of_le h
  rw [List.range_add, List.filter_append, List.filter_eq_self.2 fun j hj ↦ by simpa using hj,
    List.filter_eq_nil_iff.2 ?_, List.append_nil]
  intro j hj
  obtain ⟨i, -, rfl⟩ := List.mem_map.1 hj
  simp

/-- The lanes of a padded tile that are below its end. -/
theorem map_filter_finRange {n m : ℕ} (h : n ≤ m) :
    ((List.finRange m).filter fun i : Fin m ↦ (i : ℕ) < n).map Fin.val = List.range n := by
  have hcomp : (fun i : Fin m ↦ decide ((i : ℕ) < n)) = (fun j ↦ decide (j < n)) ∘ Fin.val := rfl
  rw [hcomp, ← List.filter_map, List.map_coe_finRange_eq_range, filter_lt_range h]

/-- The numbers of the blocks that are below the end. -/
theorem flatMap_filter_finRange {m n k : ℕ} (h : k ≤ m * n) :
    ((List.range m).flatMap fun i ↦
      ((List.finRange n).filter fun j : Fin n ↦ i * n + (j : ℕ) < k).map fun j : Fin n ↦
        i * n + (j : ℕ)) = List.range k := by
  have hblock : ∀ i : ℕ, (((List.finRange n).filter fun j : Fin n ↦ i * n + (j : ℕ) < k).map
      fun j : Fin n ↦ i * n + (j : ℕ)) = ((List.range n).map fun j ↦ i * n + j).filter (· < k) := by
    intro i
    rw [← List.map_coe_finRange_eq_range, List.map_map, List.filter_map]
    rfl
  simp only [hblock]
  rw [← List.filter_flatMap, flatMap_range_map, filter_lt_range h]

/-! ### Sums -/

variable {M : Type*} [AddCommMonoid M]

/-- A sum over the lanes of a padded tile is that over its range. -/
theorem sum_masked {n m : ℕ} (h : n ≤ m) (f : ℕ → M) :
    (∑ i : Fin m, if (i : ℕ) < n then f i else 0) = ∑ k ∈ Finset.range n, f k := by
  rw [Fin.sum_univ_eq_sum_range (fun i ↦ if i < n then f i else 0) m]
  refine (Finset.sum_subset_zero_on_sdiff (Finset.range_mono h) ?_ ?_).symm
  · intro k hk
    exact if_neg fun hlt ↦ (Finset.mem_sdiff.1 hk).2 (Finset.mem_range.2 hlt)
  · intro k hk
    exact (if_pos (Finset.mem_range.1 hk)).symm

/-- A sum over the masked lanes of one block is that over its numbers. -/
theorem sum_masked_block (i n k : ℕ) (f : ℕ → M) :
    (∑ j : Fin n, if i * n + j < k then f (i * n + j) else 0) =
      ∑ m ∈ Finset.Ico (i * n) (min ((i + 1) * n) k), f m := by
  rw [Finset.sum_Ico_eq_sum_range, add_mul, one_mul,
    ← sum_masked (by omega : min (i * n + n) k - i * n ≤ n)]
  refine Finset.sum_congr rfl fun j _ ↦ if_congr ?_ rfl rfl
  have := j.isLt
  omega

/-- A sum over the blocks is one over all their numbers. -/
theorem sum_range_blocks (m n : ℕ) (f : ℕ → M) :
    ∑ i ∈ Finset.range m, ∑ j ∈ Finset.range n, f (i * n + j) =
      ∑ k ∈ Finset.range (m * n), f k := by
  induction m with
  | zero => simp
  | succ m ih => rw [Finset.sum_range_succ, ih, Nat.succ_mul, Finset.sum_range_add]

/-- **A sum over blocks of masked lanes** is that over the range that the blocks cover. -/
theorem sum_masked_blocks {m n k : ℕ} (h : k ≤ m * n) (f : ℕ → M) :
    (∑ i ∈ Finset.range m, ∑ j : Fin n, if i * n + j < k then f (i * n + j) else 0) =
      ∑ j ∈ Finset.range k, f j := by
  rw [← sum_masked h, Fin.sum_univ_eq_sum_range (fun j ↦ if j < k then f j else 0) (m * n),
    ← sum_range_blocks]
  exact Finset.sum_congr rfl fun i _ ↦
    Fin.sum_univ_eq_sum_range (fun j ↦ if i * n + j < k then f (i * n + j) else 0) n

end Blocks
