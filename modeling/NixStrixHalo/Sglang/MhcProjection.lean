import Mathlib.Algebra.Field.Defs
import NixStrixHalo.Library.Blocks
import NixStrixHalo.Library.Tile
import NixStrixHalo.Sglang.MqaLogits

/-!
# The split mHC projection

`_mhc_project_hip` projects each token by two kernels: the first one sums blocks of the products
with each row of the weights, and of the squares, into a scratch tensor, and the second one adds the
blocks up and scales the products by the root mean square. It equals the projection that the
fallback computes (`mhcProject_refines`).

## The two launches

Programs run in an order of the device's choosing, so each launch is the memory after its stores in
some order, and what is read of it does not depend on that order because no address is stored twice
(`perm_map_fst_trace_partials`, `perm_map_fst_trace_finalize`).

## What is exact

Arithmetic is exact, that of the offsets included, and `rsqrt` is any function. A block that goes
beyond the end of a token is masked and adds zeros (`Blocks`), as do the lanes beyond the number of
blocks when they are added up.
-/

namespace Sglang

/-- The arguments of `_mhc_project_hip`, with `x` and `w` contiguous, and its block size. -/
structure MhcProject (R : Type*) where
  X : ℤ → R
  W : ℤ → R
  tokens : ℕ
  N : ℕ
  K : ℕ
  BK : ℕ
  EPS : R
  rsqrt : R → R

namespace MhcProject

section

variable {R : Type*} (a : MhcProject R)

/-- `splits`. -/
def SPLITS : ℕ := (a.K + a.BK - 1) / a.BK

/-- `BN`. -/
def BN : ℕ := nextPowerOf2 a.N

/-- `BS`. -/
def BS : ℕ := nextPowerOf2 a.SPLITS

variable {a}

/-- The blocks cover a row. -/
theorem le_SPLITS_mul (h : 0 < a.BK) : a.K ≤ a.SPLITS * a.BK := by
  have hdiv := Nat.div_add_mod (a.K + a.BK - 1) a.BK
  have hmod := Nat.mod_lt (a.K + a.BK - 1) h
  rw [SPLITS, mul_comm]
  omega

/-- The block of rows covers the rows. -/
theorem N_le_BN : a.N ≤ a.BN := Nat.le_pow_clog one_lt_two a.N

/-- The block of parts covers the parts. -/
theorem SPLITS_le_BS : a.SPLITS ≤ a.BS := Nat.le_pow_clog one_lt_two a.SPLITS

end

variable {R : Type*} [Field R] (a : MhcProject R)

/-! ### The partials -/

/-- A program of `_mhc_project_partials_hip`: `token`, `row` and `part`. -/
structure Program where
  token : ℕ
  row : ℕ
  part : ℕ

/-- The grid `(tokens, n + 1, splits)`. -/
def partialsGrid : List Program :=
  (List.range a.tokens).flatMap fun token ↦
    (List.range (a.N + 1)).flatMap fun row ↦
      (List.range a.SPLITS).map fun part ↦ ⟨token, row, part⟩

/-- `k`. -/
def k (part : ℕ) (i : Fin a.BK) : ℕ := part * a.BK + i

/-- `x`. -/
def x (p : Program) : Tile.Load (Fin a.BK) R where
  memory := a.X
  address i := p.token * a.K + a.k p.part i
  mask i := a.k p.part i < a.K
  other := 0

instance (p : Program) : DecidablePred (a.x p).mask :=
  fun i ↦ inferInstanceAs (Decidable (a.k p.part i < a.K))

/-- `w`. -/
def w (p : Program) : Tile.Load (Fin a.BK) R where
  memory := a.W
  address i := p.row * a.K + a.k p.part i
  mask i := a.k p.part i < a.K
  other := 0

instance (p : Program) : DecidablePred (a.w p).mask :=
  fun i ↦ inferInstanceAs (Decidable (a.k p.part i < a.K))

/-- `value`. -/
def value (p : Program) : R :=
  if p.row < a.N then ∑ i, (a.x p).value i * (a.w p).value i
  else ∑ i, (a.x p).value i * (a.x p).value i

/-- Where a partial is in `P`. -/
def slot (token row part : ℕ) : ℤ := (token * (a.N + 1) + row) * a.SPLITS + part

/-- What a program stores to `P`. -/
def partialsStores (p : Program) : List (ℤ × R) := [(a.slot p.token p.row p.part, a.value p)]

/-- `P` after the launch. -/
def P (d : Tile.Schedule Program R) : ℤ → R := d.launch a.partialsGrid a.partialsStores

/-! ### The finalization -/

variable (P : ℤ → R) (token : ℕ)

/-- `products`. -/
def products : Tile.Load (Fin a.BN × Fin a.BS) R where
  memory := P
  address := fun (row, part) ↦ (token * (a.N + 1) + row) * a.SPLITS + part
  mask := fun (row, part) ↦ (row : ℕ) < a.N ∧ (part : ℕ) < a.SPLITS
  other := 0

instance : DecidablePred (a.products P token).mask :=
  fun i ↦ inferInstanceAs (Decidable ((i.1 : ℕ) < a.N ∧ (i.2 : ℕ) < a.SPLITS))

/-- `squares`. -/
def squares : Tile.Load (Fin a.BS) R where
  memory := P
  address part := (token * (a.N + 1) + a.N) * a.SPLITS + part
  mask part := (part : ℕ) < a.SPLITS
  other := 0

instance : DecidablePred (a.squares P token).mask :=
  fun part ↦ inferInstanceAs (Decidable ((part : ℕ) < a.SPLITS))

/-- `rms`. -/
def rms : R := a.rsqrt ((∑ part, (a.squares P token).value part) / a.K + a.EPS)

/-- `result`. -/
def result (row : Fin a.BN) : R :=
  (∑ part, (a.products P token).value (row, part)) * a.rms P token

/-- What a program stores to `O`. -/
def finalizeStores : List (ℤ × R) :=
  ((List.finRange a.BN).filter fun row : Fin a.BN ↦ (row : ℕ) < a.N).map
    fun row : Fin a.BN ↦ ((token * a.N + (row : ℕ) : ℤ), a.result P token row)

/-- `_mhc_project_hip`: the memory of `out`. -/
def project (d : Tile.Schedule Program R) (e : Tile.Schedule ℕ R) : ℤ → R :=
  e.launch (List.range a.tokens) (a.finalizeStores (a.P d))

/-! ### The fallback -/

/-- Row `row` of `linear(x_flat, fn) * inv_rms` for a token, with
`inv_rms = rsqrt(x_flat.square().mean(-1) + rms_eps)`. -/
def direct (row : ℕ) : R :=
  (∑ k ∈ Finset.range a.K, a.X (token * a.K + k) * a.W (row * a.K + k)) *
    a.rsqrt ((∑ k ∈ Finset.range a.K, a.X (token * a.K + k) ^ 2) / a.K + a.EPS)

/-! ### Every address is written once -/

section

variable {a} {P : ℤ → R} {token : ℕ} {d : Tile.Schedule Program R} {e : Tile.Schedule ℕ R}

/-- The partials are written in the order of the grid, one slot after the other. -/
theorem map_fst_partialsStores : (a.partialsGrid.flatMap a.partialsStores).map Prod.fst =
    (List.range (a.tokens * (a.N + 1) * a.SPLITS)).map fun n : ℕ ↦ (n : ℤ) := by
  have hslot : ∀ t r s : ℕ, a.slot t r s = ((t * (a.N + 1) + r) * a.SPLITS + s : ℕ) := by
    intro t r s
    rw [slot]
    push_cast
    rfl
  rw [← Blocks.flatMap_range_map (a.tokens * (a.N + 1)), ← Blocks.flatMap_range_map a.tokens]
  simp only [partialsGrid, partialsStores, List.flatMap_assoc, List.flatMap_map, List.map_flatMap,
    List.map_map, ← List.map_eq_flatMap, hslot]
  rfl

/-- A program of the second kernel writes the row of its token. -/
theorem map_fst_finalizeStores : ((List.range a.tokens).flatMap (a.finalizeStores P)).map Prod.fst =
    (List.range (a.tokens * a.N)).map fun n : ℕ ↦ (n : ℤ) := by
  have hrow : ∀ t : ℕ, (a.finalizeStores P t).map Prod.fst =
      (List.range a.N).map fun row ↦ ((t * a.N + row : ℕ) : ℤ) := by
    intro t
    rw [finalizeStores, List.map_map, ← Blocks.map_filter_finRange N_le_BN, List.map_map]
    refine List.map_congr_left fun row _ ↦ ?_
    show ((t * a.N + (row : ℕ) : ℤ)) = ((t * a.N + row : ℕ) : ℤ)
    push_cast
    rfl
  rw [List.map_flatMap, ← Blocks.flatMap_range_map, List.map_flatMap]
  simp only [hrow, List.map_map]
  rfl

/-- Every partial sum is written once. -/
theorem perm_map_fst_trace_partials :
    ((d.trace a.partialsGrid a.partialsStores).map Prod.fst).Perm
      ((List.range (a.tokens * (a.N + 1) * a.SPLITS)).map fun n : ℕ ↦ (n : ℤ)) :=
  (Tile.Schedule.perm_trace.map Prod.fst).trans (.of_eq map_fst_partialsStores)

/-- Every element of the projection is written once. -/
theorem perm_map_fst_trace_finalize :
    ((e.trace (List.range a.tokens) (a.finalizeStores P)).map Prod.fst).Perm
      ((List.range (a.tokens * a.N)).map fun n : ℕ ↦ (n : ℤ)) :=
  (Tile.Schedule.perm_trace.map Prod.fst).trans (.of_eq map_fst_finalizeStores)

/-- Addresses are told apart by their numbers. -/
theorem nodup_map_cast (n : ℕ) : ((List.range n).map fun n : ℕ ↦ (n : ℤ)).Nodup :=
  List.nodup_range.map Nat.cast_injective

/-! ### The partials add up -/

/-- A slot holds the value of its program. -/
theorem P_slot {p : Program} (ht : p.token < a.tokens) (hr : p.row < a.N + 1)
    (hs : p.part < a.SPLITS) : a.P d (a.slot p.token p.row p.part) = a.value p := by
  refine Tile.Schedule.launch_eq_of_nodup
    (perm_map_fst_trace_partials.nodup_iff.2 (nodup_map_cast _)) ?_
  refine List.mem_flatMap.2 ⟨p, ?_, List.mem_singleton_self _⟩
  refine List.mem_flatMap.2 ⟨p.token, List.mem_range.2 ht, ?_⟩
  refine List.mem_flatMap.2 ⟨p.row, List.mem_range.2 hr, ?_⟩
  exact List.mem_map.2 ⟨p.part, List.mem_range.2 hs, rfl⟩

/-- The product of the entries of a token and a row. -/
def product (a : MhcProject R) (t r k : ℕ) : R := a.X (t * a.K + k) * a.W (r * a.K + k)

/-- The square of an entry of a token. -/
def square (a : MhcProject R) (t k : ℕ) : R := a.X (t * a.K + k) ^ 2

/-- A lane behind the end of a row is zero. -/
theorem x_value (p : Program) (i : Fin a.BK) : (a.x p).value i =
    if p.part * a.BK + i < a.K then a.X (p.token * a.K + (p.part * a.BK + i : ℕ)) else 0 := rfl

/-- A lane behind the end of a row of weights is zero. -/
theorem w_value (p : Program) (i : Fin a.BK) : (a.w p).value i =
    if p.part * a.BK + i < a.K then a.W (p.row * a.K + (p.part * a.BK + i : ℕ)) else 0 := rfl

/-- The lanes past the end of a row add nothing to a partial. -/
theorem value_of_lt {p : Program} (h : p.row < a.N) : a.value p =
    ∑ i : Fin a.BK, if p.part * a.BK + i < a.K then
      a.product p.token p.row (p.part * a.BK + i) else 0 := by
  rw [value, if_pos h]
  refine Finset.sum_congr rfl fun i _ ↦ ?_
  rw [x_value, w_value]
  split
  · rfl
  · exact mul_zero 0

/-- The row behind the last one is the sum of squares. -/
theorem value_of_eq {p : Program} (h : p.row = a.N) : a.value p =
    ∑ i : Fin a.BK, if p.part * a.BK + i < a.K then
      a.square p.token (p.part * a.BK + i) else 0 := by
  rw [value, if_neg h.not_lt]
  refine Finset.sum_congr rfl fun i _ ↦ ?_
  rw [x_value]
  split
  · exact (pow_two _).symm
  · exact mul_zero 0

variable {t : ℕ}

/-- The partials of a row and a token add up to their product. -/
theorem sum_products (hBK : 0 < a.BK) (ht : t < a.tokens) (row : Fin a.BN) (hr : (row : ℕ) < a.N) :
    ∑ part, (a.products (a.P d) t).value (row, part) =
      ∑ k ∈ Finset.range a.K, a.product t row k := by
  have hlane : ∀ part : Fin a.BS, (a.products (a.P d) t).value (row, part) =
      if (part : ℕ) < a.SPLITS then a.value ⟨t, row, part⟩ else 0 := by
    intro part
    by_cases hs : (part : ℕ) < a.SPLITS
    · rw [if_pos hs]
      refine (if_pos ⟨hr, hs⟩).trans ?_
      exact P_slot (p := ⟨t, row, part⟩) ht (by show (row : ℕ) < a.N + 1; omega) hs
    · rw [if_neg hs]
      exact if_neg fun h ↦ hs h.2
  rw [Finset.sum_congr rfl fun part _ ↦ hlane part,
    Blocks.sum_masked SPLITS_le_BS fun s ↦ a.value ⟨t, row, s⟩,
    ← Blocks.sum_masked_blocks (le_SPLITS_mul hBK)]
  exact Finset.sum_congr rfl fun s _ ↦ value_of_lt hr

/-- The partials of the last row of a token add up to its squares. -/
theorem sum_squares (hBK : 0 < a.BK) (ht : t < a.tokens) :
    ∑ part, (a.squares (a.P d) t).value part = ∑ k ∈ Finset.range a.K, a.square t k := by
  have hlane : ∀ part : Fin a.BS, (a.squares (a.P d) t).value part =
      if (part : ℕ) < a.SPLITS then a.value ⟨t, a.N, part⟩ else 0 := by
    intro part
    by_cases hs : (part : ℕ) < a.SPLITS
    · rw [if_pos hs]
      refine (if_pos hs).trans ?_
      exact P_slot (p := ⟨t, a.N, part⟩) ht (Nat.lt_succ_self a.N) hs
    · rw [if_neg hs]
      exact if_neg hs
  rw [Finset.sum_congr rfl fun part _ ↦ hlane part,
    Blocks.sum_masked SPLITS_le_BS fun s ↦ a.value ⟨t, a.N, s⟩,
    ← Blocks.sum_masked_blocks (le_SPLITS_mul hBK)]
  exact Finset.sum_congr rfl fun s _ ↦ value_of_eq rfl

/-- What the second kernel computes for a row is the row of the fallback. -/
theorem result_eq_direct (hBK : 0 < a.BK) (ht : t < a.tokens) (row : Fin a.BN)
    (hr : (row : ℕ) < a.N) : a.result (a.P d) t row = a.direct t row := by
  rw [result, rms, sum_products hBK ht row hr, sum_squares hBK ht]
  rfl

/-- **The split projection is the direct one**, whichever order the programs of the two launches run
in and whatever fresh memory holds: every element of `out` is that of the fallback, every slot of
the scratch tensor and every element is written once and nothing else is, and a slot has the sum
over the entries of its block that there are. -/
theorem mhcProject_refines (a : MhcProject R) (hBK : 0 < a.BK) (d : Tile.Schedule Program R)
    (e : Tile.Schedule ℕ R) :
    (∀ t < a.tokens, ∀ r < a.N, a.project d e (t * a.N + r) = a.direct t r) ∧
    ((d.trace a.partialsGrid a.partialsStores).map Prod.fst).Perm
      ((List.range (a.tokens * (a.N + 1) * a.SPLITS)).map fun n : ℕ ↦ (n : ℤ)) ∧
    ((e.trace (List.range a.tokens) (a.finalizeStores (a.P d))).map Prod.fst).Perm
      ((List.range (a.tokens * a.N)).map fun n : ℕ ↦ (n : ℤ)) ∧
    ∀ t < a.tokens, ∀ s < a.SPLITS,
      (∀ r < a.N, a.P d (a.slot t r s) =
        ∑ k ∈ Finset.Ico (s * a.BK) (min ((s + 1) * a.BK) a.K), a.product t r k) ∧
      a.P d (a.slot t a.N s) =
        ∑ k ∈ Finset.Ico (s * a.BK) (min ((s + 1) * a.BK) a.K), a.square t k := by
  refine ⟨fun t ht r hr ↦ ?_, perm_map_fst_trace_partials, perm_map_fst_trace_finalize,
    fun t ht s hs ↦ ⟨fun r hr ↦ ?_, ?_⟩⟩
  · have hrow : r < a.BN := hr.trans_le N_le_BN
    -- each slot is written once, so what it holds in the end is what was written there
    refine Tile.Schedule.launch_eq_of_nodup
      (perm_map_fst_trace_finalize.nodup_iff.2 (nodup_map_cast _)) ?_
    refine List.mem_flatMap.2 ⟨t, List.mem_range.2 ht, List.mem_map.2 ⟨⟨r, hrow⟩, ?_, ?_⟩⟩
    · exact List.mem_filter.2 ⟨List.mem_finRange _, decide_eq_true hr⟩
    · rw [result_eq_direct hBK ht ⟨r, hrow⟩ hr]
  · rw [← Blocks.sum_masked_block, ← value_of_lt (p := ⟨t, r, s⟩) hr]
    exact P_slot (p := ⟨t, r, s⟩) ht (Nat.lt_succ_of_lt hr) hs
  · rw [← Blocks.sum_masked_block, ← value_of_eq (p := ⟨t, a.N, s⟩) rfl]
    exact P_slot (p := ⟨t, a.N, s⟩) ht (Nat.lt_succ_self a.N) hs

end

/-- One token of three entries, in blocks of two. -/
def threeEntries : MhcProject ℚ where
  X i := i + 1
  W _ := 2
  tokens := 1
  N := 1
  K := 3
  BK := 2
  EPS := 1 / 3
  rsqrt y := y

/-- The products of `1, 2, 3` are `12`, and the mean of their squares is `14 / 3`; memory is not
zero before. -/
theorem mhcProject_refines_threeEntries :
    threeEntries.project (.lastFirst fun _ ↦ 7) (.lastFirst fun _ ↦ 7) 0 = 12 * 5 := by
  have hproject := (mhcProject_refines threeEntries two_pos (.lastFirst fun _ ↦ 7)
    (.lastFirst fun _ ↦ 7)).1 0 one_pos 0 one_pos
  have hdirect : threeEntries.direct 0 0 = 12 * 5 := by
    norm_num [direct, threeEntries, Finset.sum_range_succ]
  rw [hdirect] at hproject
  simpa only [Nat.cast_zero, zero_mul, zero_add] using hproject

end MhcProject

end Sglang
