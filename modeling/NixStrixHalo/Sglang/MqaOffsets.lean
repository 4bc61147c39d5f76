import NixStrixHalo.Library.Blocks
import NixStrixHalo.Sglang.MqaLogits

/-!
# The offsets of the pooled-DSA logits

`_mqa_logits` computes its offsets in 32-bit integers (`Int32`): program ids and lanes are 32-bit, a
number that the kernel is compiled for takes the type of the other operand, and an offset is
extended when it is added to a pointer. Nothing bounds the shapes and page numbers that a call may
have, so for long contexts and large batches the offsets wrap. `inPlace_iff` says exactly when they
do not; then the kernel stores what the exact one of `MqaLogits` does (`stores32_eq`).

## The same kernel twice

Each value of the kernel that is a 32-bit integer has a second definition here, under the name that
it has in `MqaLogits` and a `32` behind it. `OffsetsExact` says of a program that each of these has
its mathematical value.

## The condition

`Fits` is the condition on a call: the offsets of the last row, of the last block of keys and of the
pages that are used are within the range. That it is enough is a matter of monotonicity
(`Fits.offsetsExact`). That it is needed takes a program for each part of it, one that has the last
row, the last column or a key of that page (`fits_of_offsetsExact`).

## In place

A launch is in place if its offsets are exact and every element of the output is written once and
nothing else is. The second follows from the first, because the exact addresses are the elements of
the output, in another order (`perm_map_fst_trace`).
-/

namespace Sglang

/-! ### The kernel -/

namespace MqaLogits

section

variable {R : Type*} (a : MqaLogits R) (row block : ℕ)

/-- The numbers that the kernel is compiled for are 32-bit integers: others raise a `ValueError`. -/
def Compiles : Prop :=
  InInt32 a.Q0 ∧ InInt32 a.Q1 ∧ InInt32 a.W0 ∧ (a.PAGED → InInt32 a.P0) ∧ InInt32 a.N ∧
    InInt32 a.H

instance : Decidable a.Compiles :=
  inferInstanceAs (Decidable (InInt32 a.Q0 ∧ InInt32 a.Q1 ∧ InInt32 a.W0 ∧
    (a.PAGED → InInt32 a.P0) ∧ InInt32 a.N ∧ InInt32 a.H))

/-- `row`. -/
def row32 : ℤ := toInt32 row

/-- `cols`. -/
def cols32 (i : Fin a.BK) : ℤ := toInt32 (toInt32 (toInt32 block * a.BK) + i)

/-- `start`. -/
def start32 : ℤ := if a.PAGED then 0 else a.Starts (row32 row)

/-- `valid`. -/
def valid32 (i : Fin a.BK) : Prop :=
  a.cols32 block i < a.N ∧ a.start32 row ≤ a.cols32 block i ∧
    a.cols32 block i < a.Ends (row32 row)

instance : DecidablePred (a.valid32 row block) :=
  fun i ↦ inferInstanceAs (Decidable (a.cols32 block i < a.N ∧ a.start32 row ≤ a.cols32 block i ∧
    a.cols32 block i < a.Ends (row32 row)))

/-- `page`. -/
def page32 : Tile.Load (Fin a.BK) ℤ where
  memory := a.Pages
  address i := toInt32 (row32 row * a.P0) + (a.cols32 block i).tdiv 64
  mask := a.valid32 row block
  other := 0

instance : DecidablePred (a.page32 row block).mask :=
  inferInstanceAs (DecidablePred (a.valid32 row block))

/-- `k_offsets`. -/
def kOffsets32 (d : Fin 128) (i : Fin a.BK) : ℤ :=
  if a.PAGED then
    toInt32 (toInt32 (toInt32 ((a.page32 row block).value i * (64 * 132)) +
      toInt32 ((a.cols32 block i).tmod 64 * 128)) + d)
  else toInt32 (toInt32 (a.cols32 block i * 128) + d)

/-- `s_offsets`. -/
def sOffsets32 (i : Fin a.BK) : ℤ :=
  if a.PAGED then
    toInt32 (toInt32 (toInt32 ((a.page32 row block).value i * (64 * 33)) + 64 * 32) +
      (a.cols32 block i).tmod 64)
  else a.cols32 block i

variable [CommSemiring R]

/-- `q`. -/
def q32 : Tile.Load (Fin a.BH × Fin 128) R where
  memory := a.Q
  address := fun (h, d) ↦ toInt32 (row32 row * a.Q0) + toInt32 (h * a.Q1) + d
  mask := fun (h, _) ↦ (h : ℕ) < a.H
  other := 0

instance : DecidablePred (a.q32 row).mask :=
  fun i ↦ inferInstanceAs (Decidable ((i.1 : ℕ) < a.H))

/-- `k`. -/
def k32 : Tile.Load (Fin 128 × Fin a.BK) R where
  memory := a.K
  address := fun (d, i) ↦ a.kOffsets32 row block d i
  mask := fun (_, i) ↦ a.valid32 row block i
  other := 0

instance : DecidablePred (a.k32 row block).mask :=
  fun i ↦ inferInstanceAs (Decidable (a.valid32 row block i.2))

/-- `scale`. -/
def scale32 : Tile.Load (Fin a.BK) R where
  memory := a.S
  address := a.sOffsets32 row block
  mask := a.valid32 row block
  other := 0

instance : DecidablePred (a.scale32 row block).mask :=
  inferInstanceAs (DecidablePred (a.valid32 row block))

/-- `weights`. -/
def weights32 : Tile.Load (Fin a.BH) R where
  memory := a.W
  address h := toInt32 (row32 row * a.W0) + h
  mask h := (h : ℕ) < a.H
  other := 0

instance : DecidablePred (a.weights32 row).mask :=
  fun h ↦ inferInstanceAs (Decidable ((h : ℕ) < a.H))

/-- `dots`. -/
def dots32 (h : Fin a.BH) (i : Fin a.BK) : R :=
  ∑ d, (a.q32 row).value (h, d) * (a.k32 row block).value (d, i)

variable [LinearOrder R]

/-- `logits`. -/
def logits32 (i : Fin a.BK) : WithBot R :=
  if a.valid32 row block i then
    ((∑ h, max (a.dots32 row block h i) 0 * (a.weights32 row).value h) *
      (a.scale32 row block).value i : R)
  else ⊥

/-- What a program stores to `Out`. -/
def stores32 (p : ℕ × ℕ) : List (ℤ × WithBot R) :=
  ((List.finRange a.BK).filter fun i ↦ a.cols32 p.2 i < a.N).map
    fun i ↦ (toInt32 (row32 p.1 * a.N) + a.cols32 p.2 i, a.logits32 p.1 p.2 i)

end

/-! ### Exact offsets -/

section

variable {R : Type*} {a : MqaLogits R} {row block : ℕ} {i : Fin a.BK}

/-- Without a wrap, the masks are the same. -/
theorem valid32_iff (hrow : row32 row = row) (hcols : a.cols32 block i = a.cols block i) :
    a.valid32 row block i ↔ a.valid row block i := by
  rw [valid32, valid, hcols, start32, start, stop, hrow]

/-- Without a wrap, the pages are the same. -/
theorem page32_value (hrow : row32 row = row) (hcols : a.cols32 block i = a.cols block i)
    (htable : toInt32 (row32 row * a.P0) = row * a.P0) :
    (a.page32 row block).value i = (a.page row block).value i := by
  have haddress : (a.page32 row block).address i = (a.page row block).address i := by
    show toInt32 (row32 row * a.P0) + (a.cols32 block i).tdiv 64 = row * a.P0 + a.cols block i / 64
    rw [htable, hcols, Int.tdiv_eq_ediv_of_nonneg (a.cols_nonneg block i)]
  rw [Tile.Load.value, haddress]
  exact if_congr (valid32_iff hrow hcols) rfl rfl

/-- **The offsets of a program are exact**: every 32-bit value has its mathematical value. -/
structure OffsetsExact (a : MqaLogits R) (row block : ℕ) : Prop where
  program : row32 row = row
  cols : ∀ i, a.cols32 block i = a.cols block i
  outRow : toInt32 (row32 row * a.N) = row * a.N
  queryRow : toInt32 (row32 row * a.Q0) = row * a.Q0
  queryHead : ∀ h : Fin a.BH, toInt32 (h * a.Q1) = h * a.Q1
  weightsRow : toInt32 (row32 row * a.W0) = row * a.W0
  tableRow : a.PAGED → toInt32 (row32 row * a.P0) = row * a.P0
  keys : ∀ d i, a.kOffsets32 row block d i = a.kOffsets row block d i
  scales : ∀ i, a.sOffsets32 row block i = a.sOffsets row block i

namespace OffsetsExact

variable (h : OffsetsExact a row block)
include h

variable [CommSemiring R]

/-- Where the offsets fit, the queries are the same. -/
theorem q32_value (x : Fin a.BH × Fin 128) : (a.q32 row).value x = (a.q row).value x := by
  have haddress : (a.q32 row).address x = (a.q row).address x := by
    show toInt32 (row32 row * a.Q0) + toInt32 (x.1 * a.Q1) + x.2 = row * a.Q0 + x.1 * a.Q1 + x.2
    rw [h.queryRow, h.queryHead]
  rw [Tile.Load.value, haddress]
  rfl

/-- Where the offsets fit, the weights are the same. -/
theorem weights32_value (x : Fin a.BH) : (a.weights32 row).value x = (a.weights row).value x := by
  have haddress : (a.weights32 row).address x = (a.weights row).address x := by
    show toInt32 (row32 row * a.W0) + x = row * a.W0 + x
    rw [h.weightsRow]
  rw [Tile.Load.value, haddress]
  rfl

/-- Where the offsets fit, the keys are the same. -/
theorem k32_value (d : Fin 128) :
    (a.k32 row block).value (d, i) = (a.k row block).value (d, i) := by
  have haddress : (a.k32 row block).address (d, i) = (a.k row block).address (d, i) := h.keys d i
  rw [Tile.Load.value, haddress]
  exact if_congr (valid32_iff h.program (h.cols i)) rfl rfl

/-- Where the offsets fit, the scales are the same. -/
theorem scale32_value : (a.scale32 row block).value i = (a.scale row block).value i := by
  have haddress : (a.scale32 row block).address i = (a.scale row block).address i := h.scales i
  rw [Tile.Load.value, haddress]
  exact if_congr (valid32_iff h.program (h.cols i)) rfl rfl

variable [LinearOrder R]

/-- Where the offsets fit, the logits are the same. -/
theorem logits32_eq : a.logits32 row block i = a.logits row block i := by
  rw [logits32, logits, h.scale32_value]
  refine if_congr (valid32_iff h.program (h.cols i)) ?_ rfl
  simp only [dots32, dots, h.q32_value, h.k32_value, h.weights32_value]

/-- **With exact offsets the kernel stores what the exact one does.** -/
theorem stores32_eq : a.stores32 (row, block) = a.stores (row, block) := by
  simp only [stores32, stores, h.cols, h.outRow, h.logits32_eq]

end OffsetsExact

end

/-! ### Every element is written once -/

section

variable {R : Type*} {a : MqaLogits R} {rows : ℕ}

/-- The blocks of a row. -/
def blocks (a : MqaLogits R) : ℕ := (a.N + 63) / 64

/-- The blocks cover the columns. -/
theorem le_blocks_mul (hBK : a.BK = 64) : a.N ≤ a.blocks * a.BK := by
  rw [blocks, hBK]
  omega

/-- Columns are natural numbers. -/
theorem cols_eq_cast (block : ℕ) (i : Fin a.BK) :
    a.cols block i = ((block * a.BK + i : ℕ) : ℤ) := by
  rw [cols]
  push_cast
  rfl

variable [CommSemiring R] [LinearOrder R]

/-- A program writes the columns of its block that there are. -/
theorem map_fst_stores (r block : ℕ) : (a.stores (r, block)).map Prod.fst =
    (((List.finRange a.BK).filter fun i : Fin a.BK ↦ block * a.BK + (i : ℕ) < a.N).map
      fun i : Fin a.BK ↦ block * a.BK + (i : ℕ)).map fun n : ℕ ↦ ((r * a.N + n : ℕ) : ℤ) := by
  have hfilter : ∀ i : Fin a.BK, (a.cols block i < a.N) ↔ block * a.BK + (i : ℕ) < a.N := by
    intro i
    rw [cols_eq_cast]
    exact Nat.cast_lt
  rw [stores, List.map_map, List.map_map]
  simp only [hfilter]
  refine List.map_congr_left fun i _ ↦ ?_
  show (r * a.N + a.cols block i : ℤ) = ((r * a.N + (block * a.BK + i) : ℕ) : ℤ)
  rw [cols_eq_cast]
  push_cast
  rfl

/-- The exact kernel writes the elements of `Out` in the order of the grid. -/
theorem map_fst_flatMap_stores (hBK : a.BK = 64) :
    ((Tile.grid rows a.blocks).flatMap a.stores).map Prod.fst =
      (List.range (rows * a.N)).map fun n : ℕ ↦ (n : ℤ) := by
  have hgrid : (Tile.grid rows a.blocks).flatMap a.stores =
      (List.range rows).flatMap fun r ↦ (List.range a.blocks).flatMap fun b ↦ a.stores (r, b) := by
    show ((List.range rows).flatMap fun r ↦ (List.range a.blocks).map (Prod.mk r)).flatMap _ = _
    rw [List.flatMap_assoc]
    simp only [List.flatMap_map]
  rw [hgrid, List.map_flatMap, ← Blocks.flatMap_range_map, List.map_flatMap]
  simp only [List.map_flatMap, map_fst_stores, List.map_map]
  refine List.flatMap_congr fun r _ ↦ ?_
  rw [← Blocks.flatMap_filter_finRange (le_blocks_mul hBK), List.map_flatMap]
  simp only [List.map_map]
  rfl

/-- With exact offsets every element of `Out` is written once, and nothing else is. -/
theorem perm_map_fst_trace (hBK : a.BK = 64) (d : Tile.Schedule (ℕ × ℕ) (WithBot R))
    (h : ∀ r < rows, ∀ block < a.blocks, a.OffsetsExact r block) :
    ((d.trace (Tile.grid rows a.blocks) a.stores32).map Prod.fst).Perm
      ((List.range (rows * a.N)).map fun n : ℕ ↦ (n : ℤ)) := by
  have hstores : (Tile.grid rows a.blocks).flatMap a.stores32 =
      (Tile.grid rows a.blocks).flatMap a.stores := by
    refine List.flatMap_congr fun p hp ↦ ?_
    obtain ⟨hr, hblock⟩ := Tile.mem_grid.1 hp
    exact (h p.1 hr p.2 hblock).stores32_eq
  refine (Tile.Schedule.perm_trace.map Prod.fst).trans (.of_eq ?_)
  rw [hstores, map_fst_flatMap_stores hBK]

end

/-! ### When the offsets are exact -/

section

variable {R : Type*} {a : MqaLogits R} {rows : ℕ}

/-- The shapes, strides and page numbers for which no offset leaves the 32-bit integers. -/
structure Fits (a : MqaLogits R) (rows : ℕ) : Prop where
  compiles : a.Compiles
  output : InInt32 ((rows - 1 : ℕ) * a.N)
  lanes : a.blocks * 64 ≤ 2 ^ 31
  query : InInt32 ((rows - 1 : ℕ) * a.Q0)
  heads : InInt32 ((a.BH - 1 : ℕ) * a.Q1)
  weights : InInt32 ((rows - 1 : ℕ) * a.W0)
  table : a.PAGED → InInt32 ((rows - 1 : ℕ) * a.P0)
  raggedKeys : ¬ a.PAGED → a.blocks * 64 * 128 ≤ 2 ^ 31
  pagedKeys : a.PAGED → ∀ r < rows, ∀ c < a.N, c < a.stop r →
    InInt32 (a.keyAddress r c) ∧ InInt32 (a.keyAddress r c + 127)
  pagedScales : a.PAGED → ∀ r < rows, ∀ c < a.N, c < a.stop r → InInt32 (a.scaleAddress r c)

/-- The value of an offset in the keys, where rows and columns are exact. -/
theorem kOffsets32_eq (row block : ℕ) (d : Fin 128) (i : Fin a.BK)
    (hcols : a.cols32 block i = a.cols block i)
    (hpage : a.PAGED → (a.page32 row block).value i = (a.page row block).value i) :
    a.kOffsets32 row block d i = toInt32 (a.kOffsets row block d i) := by
  have hnonneg := a.cols_nonneg block i
  rw [kOffsets32, kOffsets, hcols, Int.tmod_eq_emod_of_nonneg hnonneg]
  split
  next hpaged => simp only [hpage hpaged, toInt32_toInt32_add, toInt32_add_toInt32]
  next => rw [toInt32_toInt32_add]

/-- The offset of a scale wraps at the end only. -/
theorem sOffsets32_eq (row block : ℕ) (i : Fin a.BK)
    (hcols : toInt32 (a.cols block i) = a.cols block i)
    (hcols32 : a.cols32 block i = a.cols block i)
    (hpage : a.PAGED → (a.page32 row block).value i = (a.page row block).value i) :
    a.sOffsets32 row block i = toInt32 (a.sOffsets row block i) := by
  have hnonneg := a.cols_nonneg block i
  rw [sOffsets32, sOffsets, hcols32, Int.tmod_eq_emod_of_nonneg hnonneg]
  split
  next hpaged => simp only [hpage hpaged, toInt32_toInt32_add]
  next => exact hcols.symm

variable {r block : ℕ} {i : Fin a.BK}

/-- A wrapped row may be multiplied before it wraps. -/
theorem row32_mul (r : ℕ) (x : ℤ) : toInt32 (row32 r * x) = toInt32 (r * x) :=
  toInt32_toInt32_mul r x

/-- A column wraps at the end only. -/
theorem cols32_eq (block : ℕ) (i : Fin a.BK) : a.cols32 block i = toInt32 (a.cols block i) := by
  rw [cols32, toInt32_toInt32_mul, toInt32_toInt32_add, cols]

/-- Blocks have 64 columns. -/
theorem cols_eq (hBK : a.BK = 64) (block : ℕ) (i : Fin a.BK) : a.cols block i = block * 64 + i := by
  have hBK' : (a.BK : ℤ) = 64 := by exact_mod_cast hBK
  rw [cols, hBK']

/-- A column of a block that there is. -/
theorem cols_lt (hBK : a.BK = 64) (hblock : block < a.blocks) :
    a.cols block i < a.blocks * 64 := by
  have hi : (i : ℕ) < 64 := hBK ▸ i.isLt
  rw [cols_eq hBK]
  omega

/-- The offset in the keys of a lane, valid or not. -/
theorem Fits.inInt32_kOffsets (h : a.Fits rows) (hBK : a.BK = 64) (hr : r < rows)
    (hblock : block < a.blocks) (d : Fin 128) : InInt32 (a.kOffsets r block d i) := by
  have hd := d.isLt
  have hlt := cols_lt (i := i) hBK hblock
  have hnonneg := a.cols_nonneg block i
  by_cases hpaged : a.PAGED
  · by_cases hv : a.valid r block i
    · obtain ⟨c, hc⟩ := Int.eq_ofNat_of_zero_le hnonneg
      obtain ⟨hlo, hhi⟩ := h.pagedKeys hpaged r hr c (by have := hv.1; omega)
        (by have := hv.2.2; omega)
      rw [kOffsets_of_valid hv hc]
      exact ⟨by have := hlo.1; omega, by have := hhi.2; omega⟩
    · have hpage : (a.page r block).value i = 0 := Tile.Load.value_of_not_mask hv
      rw [kOffsets, if_pos hpaged, hpage]
      constructor <;> omega
  · have hlanes := h.raggedKeys hpaged
    rw [kOffsets, if_neg hpaged]
    constructor <;> omega

/-- Where the offsets fit, so does that of every scale. -/
theorem Fits.inInt32_sOffsets (h : a.Fits rows) (hBK : a.BK = 64) (hr : r < rows)
    (hblock : block < a.blocks) : InInt32 (a.sOffsets r block i) := by
  have hlt := cols_lt (i := i) hBK hblock
  have hlanes := h.lanes
  have hnonneg := a.cols_nonneg block i
  by_cases hpaged : a.PAGED
  · by_cases hv : a.valid r block i
    · obtain ⟨c, hc⟩ := Int.eq_ofNat_of_zero_le hnonneg
      rw [sOffsets_of_valid hv hc]
      exact h.pagedScales hpaged r hr c (by have := hv.1; omega) (by have := hv.2.2; omega)
    · have hpage : (a.page r block).value i = 0 := Tile.Load.value_of_not_mask hv
      rw [sOffsets, if_pos hpaged, hpage]
      constructor <;> omega
  · rw [sOffsets, if_neg hpaged]
    constructor <;> omega

/-- Where they fit, the offsets of every program are exact. -/
theorem Fits.offsetsExact (h : a.Fits rows) (hBK : a.BK = 64) (hN : 0 < a.N) (hr : r < rows)
    (hblock : block < a.blocks) : a.OffsetsExact r block := by
  have hle : r ≤ rows - 1 := by omega
  have hscaled : ∀ x : ℤ, InInt32 ((rows - 1 : ℕ) * x) → toInt32 (row32 r * x) = r * x := by
    intro x hx
    rw [row32_mul]
    exact toInt32_eq_self_iff.2 (hx.mul_of_le hle)
  have hrow : row32 r = r := by
    have hprod : (r : ℤ) ≤ r * a.N := by exact_mod_cast Nat.le_mul_of_pos_right r hN
    have hrange := (h.output.mul_of_le hle).2
    exact toInt32_eq_self_iff.2 ⟨by omega, by omega⟩
  have hcols' : ∀ i, toInt32 (a.cols block i) = a.cols block i := by
    intro i
    have hlt := cols_lt (i := i) hBK hblock
    have hlanes := h.lanes
    have hnonneg := a.cols_nonneg block i
    exact toInt32_eq_self_iff.2 ⟨by omega, by omega⟩
  have hcols : ∀ i, a.cols32 block i = a.cols block i :=
    fun i ↦ (cols32_eq block i).trans (hcols' i)
  have hpage : ∀ i, a.PAGED → (a.page32 r block).value i = (a.page r block).value i :=
    fun i hpaged ↦ page32_value hrow (hcols i) (hscaled a.P0 (h.table hpaged))
  exact
    { program := hrow
      cols := hcols
      outRow := hscaled a.N h.output
      queryRow := hscaled a.Q0 h.query
      queryHead := fun x ↦ toInt32_eq_self_iff.2 (h.heads.mul_of_le (by omega))
      weightsRow := hscaled a.W0 h.weights
      tableRow := fun hpaged ↦ hscaled a.P0 (h.table hpaged)
      keys := fun d i ↦ by
        rw [kOffsets32_eq r block d i (hcols i) (hpage i)]
        exact toInt32_eq_self_iff.2 (h.inInt32_kOffsets hBK hr hblock d)
      scales := fun i ↦ by
        rw [sOffsets32_eq r block i (hcols' i) (hcols i) (hpage i)]
        exact toInt32_eq_self_iff.2 (h.inInt32_sOffsets hBK hr hblock) }

/-- A column that there is, as a lane. -/
theorem exists_lane (hBK : a.BK = 64) {c : ℕ} (hc : c < a.N) :
    ∃ block < a.blocks, ∃ i : Fin a.BK, a.cols block i = c := by
  have hi : c % 64 < a.BK := by omega
  refine ⟨c / 64, by rw [blocks]; omega, ⟨c % 64, hi⟩, ?_⟩
  rw [cols_eq hBK]
  show ((c / 64 : ℕ) : ℤ) * 64 + (c % 64 : ℕ) = c
  omega

/-- Where the offsets of every program are exact, they fit: the bounds are offsets of the last row,
the last lane or the last head. -/
theorem fits_of_offsetsExact (hcompiles : a.Compiles) (hBK : a.BK = 64) (hBH : 0 < a.BH)
    (hrows : 0 < rows) (hN : 0 < a.N)
    (h : ∀ r < rows, ∀ block < a.blocks, a.OffsetsExact r block) : a.Fits rows := by
  have hblocks : 0 < a.blocks := by
    rw [blocks]
    omega
  -- the last program has the greatest offsets, so each bound is read off from it
  have hlast := h (rows - 1) (by omega) (a.blocks - 1) (by omega)
  have hscaled : ∀ x : ℤ, toInt32 (row32 (rows - 1) * x) = (rows - 1 : ℕ) * x →
      InInt32 ((rows - 1 : ℕ) * x) := by
    intro x hx
    rw [row32_mul] at hx
    exact toInt32_eq_self_iff.1 hx
  let lane : Fin a.BK := ⟨63, by omega⟩
  have hlane : a.cols (a.blocks - 1) lane = a.blocks * 64 - 1 := by
    rw [cols_eq hBK]
    show ((a.blocks - 1 : ℕ) : ℤ) * 64 + 63 = a.blocks * 64 - 1
    omega
  have hexact : ∀ {r block : ℕ}, r < rows → block < a.blocks → ∀ i, a.PAGED →
      (a.page32 r block).value i = (a.page r block).value i := fun hr hblock i hpaged ↦
    page32_value (h _ hr _ hblock).program ((h _ hr _ hblock).cols i)
      ((h _ hr _ hblock).tableRow hpaged)
  have hkeys : ∀ {r block : ℕ}, r < rows → block < a.blocks → ∀ d i,
      InInt32 (a.kOffsets r block d i) := by
    intro r block hr hblock d i
    have hkey := (h r hr block hblock).keys d i
    rw [kOffsets32_eq r block d i ((h r hr block hblock).cols i) (hexact hr hblock i)] at hkey
    exact toInt32_eq_self_iff.1 hkey
  have hcols : ∀ {r block : ℕ}, r < rows → block < a.blocks → ∀ i,
      toInt32 (a.cols block i) = a.cols block i := by
    intro r block hr hblock i
    rw [← cols32_eq]
    exact (h r hr block hblock).cols i
  refine
    { compiles := hcompiles
      output := hscaled _ hlast.outRow
      lanes := ?_
      query := hscaled _ hlast.queryRow
      heads := toInt32_eq_self_iff.1 (hlast.queryHead ⟨a.BH - 1, by omega⟩)
      weights := hscaled _ hlast.weightsRow
      table := fun hpaged ↦ hscaled _ (hlast.tableRow hpaged)
      raggedKeys := fun hpaged ↦ ?_
      pagedKeys := fun hpaged r hr c hc hstop ↦ ?_
      pagedScales := fun hpaged r hr c hc hstop ↦ ?_ }
  · have hrange := (toInt32_eq_self_iff.1
      (hcols (Nat.sub_lt hrows one_pos) (Nat.sub_lt hblocks one_pos) lane)).2
    rw [hlane] at hrange
    omega
  · have hrange := (hkeys (Nat.sub_lt hrows one_pos) (Nat.sub_lt hblocks one_pos) 127 lane).2
    rw [kOffsets, if_neg hpaged, hlane] at hrange
    have hd : ((127 : Fin 128) : ℤ) = 127 := rfl
    omega
  · obtain ⟨block, hblock, i, hi⟩ := exists_lane hBK hc
    have hv : a.valid r block i := by
      rw [valid, hi, start, if_pos hpaged]
      exact ⟨by exact_mod_cast hc, Int.natCast_nonneg c, hstop⟩
    -- the bytes of a key are consecutive, so the first and the last one bound them
    have hlo := hkeys hr hblock 0 i
    have hhi := hkeys hr hblock 127 i
    rw [kOffsets_of_valid hv hi] at hlo hhi
    exact ⟨by simpa using hlo, hhi⟩
  · obtain ⟨block, hblock, i, hi⟩ := exists_lane hBK hc
    have hv : a.valid r block i := by
      rw [valid, hi, start, if_pos hpaged]
      exact ⟨by exact_mod_cast hc, Int.natCast_nonneg c, hstop⟩
    have hscale := (h r hr block hblock).scales i
    rw [sOffsets32_eq r block i (hcols hr hblock i) ((h r hr block hblock).cols i)
      (hexact hr hblock i), sOffsets_of_valid hv hi] at hscale
    exact toInt32_eq_self_iff.1 hscale

end

section

variable {R : Type*} [CommSemiring R] [LinearOrder R] {a : MqaLogits R} {rows : ℕ}

/-- **A launch computes in place**: the kernel compiles, every offset of every program is exact, and
every element of `Out` is written once and nothing else is, whichever order the programs run in. -/
structure InPlace (a : MqaLogits R) (rows : ℕ) : Prop where
  compiles : a.Compiles
  exact : ∀ r < rows, ∀ block < a.blocks, a.OffsetsExact r block
  once : ∀ d : Tile.Schedule (ℕ × ℕ) (WithBot R),
    ((d.trace (Tile.grid rows a.blocks) a.stores32).map Prod.fst).Perm
      ((List.range (rows * a.N)).map fun n : ℕ ↦ (n : ℤ))

/-- **The kernel works in place** exactly when its offsets fit. -/
theorem inPlace_iff_fits (hBK : a.BK = 64) (hBH : 0 < a.BH) (hrows : 0 < rows) (hN : 0 < a.N) :
    a.InPlace rows ↔ a.Fits rows := by
  constructor
  · intro h
    exact fits_of_offsetsExact h.compiles hBK hBH hrows hN h.exact
  · intro h
    have hexact : ∀ r < rows, ∀ block < a.blocks, a.OffsetsExact r block :=
      fun r hr block hblock ↦ h.offsetsExact hBK hN hr hblock
    exact ⟨h.compiles, hexact, fun d ↦ perm_map_fst_trace hBK d hexact⟩

/-- Where the offsets are exact, a launch leaves what the exact kernel leaves. -/
theorem launch_stores32 (dev : Tile.Device (WithBot R))
    (h : ∀ r < rows, ∀ block < a.blocks, a.OffsetsExact r block) :
    dev.launch rows a.blocks a.stores32 = dev.launch rows a.blocks a.stores := by
  rw [Tile.Device.launch, Tile.Device.launch]
  refine congrArg (Tile.write dev.fresh) (List.flatMap_congr fun p hp ↦ ?_)
  obtain ⟨hr, hblock⟩ := Tile.mem_grid.1 (dev.mem_order.1 hp)
  exact (h p.1 hr p.2 hblock).stores32_eq

end

end MqaLogits

/-! ### The callers -/

section

variable {R : Type} {fmt : Formats R}

/-- What `fp8_mqa_logits` launches, and over how many rows; `none` where an assertion fails or the
output is empty. -/
def RaggedMqa.launch (fmt : Formats R) (c : RaggedMqa R) : Option (MqaLogits R × ℕ) := do
  guard c.Asserts
  let rows ← c.q.shape[0]?
  let n ← c.k.shape[0]?
  if rows * n = 0 then none
  else
    let heads ← c.q.shape[1]?
    some (c.kernel fmt heads, rows)

/-- What `fp8_paged_mqa_logits` launches, and over how many rows. -/
def PagedMqa.launch (fmt : Formats R) (c : PagedMqa R) : Option (MqaLogits R × ℕ) := do
  guard c.Asserts
  let rows ← c.q.select.shape[0]?
  let heads ← c.q.select.shape[1]?
  if rows * c.maxSeqLen = 0 then none else some (c.kernel fmt heads, rows)

/-- The launch of a call whose assertions hold. -/
def Launched (fmt : Formats R) (a : MqaLogits R) (rows : ℕ) : Prop :=
  (∃ c : RaggedMqa R, c.launch fmt = some (a, rows)) ∨
    ∃ c : PagedMqa R, c.launch fmt = some (a, rows)

/-- What a launch over ragged keys has checked. -/
theorem RaggedMqa.launch_spec {c : RaggedMqa R} {a : MqaLogits R} {rows : ℕ}
    (h : c.launch fmt = some (a, rows)) : ∃ n heads, c.Asserts ∧ c.q.shape[0]? = some rows ∧
      c.k.shape[0]? = some n ∧ rows * n ≠ 0 ∧ c.q.shape[1]? = some heads ∧
      a = c.kernel fmt heads := by
  simp only [launch, Option.bind_eq_bind, Option.bind_eq_some_iff, Option.guard_eq_some',
    exists_const] at h
  obtain ⟨hasserts, rows', hrows, n, hn, h⟩ := h
  split at h
  · cases h
  next hne =>
    obtain ⟨heads, hheads, heq⟩ := Option.bind_eq_some_iff.1 h
    obtain ⟨rfl, rfl⟩ := Prod.mk.inj (Option.some.inj heq)
    exact ⟨n, heads, hasserts, hrows, hn, hne, hheads, rfl⟩

/-- What a launch over paged keys has checked. -/
theorem PagedMqa.launch_spec {c : PagedMqa R} {a : MqaLogits R} {rows : ℕ}
    (h : c.launch fmt = some (a, rows)) : ∃ heads, c.Asserts ∧
      c.q.select.shape[0]? = some rows ∧ c.q.select.shape[1]? = some heads ∧
      rows * c.maxSeqLen ≠ 0 ∧ a = c.kernel fmt heads := by
  simp only [launch, Option.bind_eq_bind, Option.bind_eq_some_iff, Option.guard_eq_some',
    exists_const] at h
  obtain ⟨hasserts, rows', hrows, heads, hheads, h⟩ := h
  split at h
  · cases h
  next hne =>
    obtain ⟨rfl, rfl⟩ := Prod.mk.inj (Option.some.inj h)
    exact ⟨heads, hasserts, hrows, hheads, hne, rfl⟩

/-- The block size and the bounds that every launch has. -/
theorem Launched.shape {a : MqaLogits R} {rows : ℕ} (h : Launched fmt a rows) :
    a.BK = 64 ∧ 0 < a.BH ∧ 0 < rows ∧ 0 < a.N := by
  rcases h with ⟨c, hc⟩ | ⟨c, hc⟩
  · obtain ⟨n, heads, -, -, hn, hne, -, rfl⟩ := RaggedMqa.launch_spec hc
    have hN : (c.kernel fmt heads).N = n := by
      show c.k.shape.getD 0 0 = n
      rw [List.getD_eq_getElem?_getD, hn, Option.getD_some]
    refine ⟨rfl, lt_max_of_lt_left (by decide), Nat.pos_of_ne_zero fun h ↦ hne ?_, ?_⟩
    · rw [h, zero_mul]
    · rw [hN]
      exact Nat.pos_of_ne_zero fun h ↦ hne (by rw [h, mul_zero])
  · obtain ⟨heads, -, -, -, hne, rfl⟩ := PagedMqa.launch_spec hc
    refine ⟨rfl, lt_max_of_lt_left (by decide), Nat.pos_of_ne_zero fun h ↦ hne ?_,
      Nat.pos_of_ne_zero fun h ↦ hne ?_⟩
    · rw [h, zero_mul]
    · have h' : c.maxSeqLen = 0 := h
      rw [h', mul_zero]

variable [CommSemiring R] [LinearOrder R]

/-- What is launched is what the call with exact offsets returns the output of. -/
theorem RaggedMqa.fp8MqaLogits_of_launch (dev : Tile.Device (WithBot R)) {c : RaggedMqa R}
    {a : MqaLogits R} {rows : ℕ} (h : c.launch fmt = some (a, rows)) :
    fp8MqaLogits fmt dev c = some (a.output dev rows) := by
  obtain ⟨n, heads, hasserts, hrows, hn, hne, hheads, rfl⟩ := launch_spec h
  simp only [fp8MqaLogits, guard, hasserts, hrows, hn, hheads, if_true, if_neg hne,
    Option.bind_eq_bind, Option.pure_def, Option.bind_some]

/-- The logits of a call are those of its launch. -/
theorem PagedMqa.fp8PagedMqaLogits_of_launch (dev : Tile.Device (WithBot R)) {c : PagedMqa R}
    {a : MqaLogits R} {rows : ℕ} (h : c.launch fmt = some (a, rows)) :
    fp8PagedMqaLogits fmt dev c = some (a.output dev rows) := by
  obtain ⟨heads, hasserts, hrows, hheads, hne, rfl⟩ := launch_spec h
  simp only [fp8PagedMqaLogits, guard, hasserts, hrows, hheads, if_true, if_neg hne,
    Option.bind_eq_bind, Option.pure_def, Option.bind_some]

/-- **The offsets of the pooled-DSA logits**: a call whose assertions hold computes in place if and
only if its shapes, strides and page numbers fit. -/
theorem inPlace_iff {a : MqaLogits R} {rows : ℕ} (h : Launched fmt a rows) :
    a.InPlace rows ↔ a.Fits rows := by
  obtain ⟨hBK, hBH, hrows, hN⟩ := h.shape
  exact MqaLogits.inPlace_iff_fits hBK hBH hrows hN

end

/-- The launch over the pages in reverse order. -/
theorem launched_reversedPages : reversedPages.launch byteFormats =
    some (reversedPages.kernel byteFormats 3, 1) := by
  have hasserts : reversedPages.Asserts := by decide
  simp only [PagedMqa.launch, guard, hasserts, if_true]
  rfl

/-- Its offsets fit. -/
theorem inPlace_iff_reversedPages : (reversedPages.kernel byteFormats 3).InPlace 1 := by
  refine (inPlace_iff (Or.inr ⟨reversedPages, launched_reversedPages⟩)).2 ?_
  exact
    { compiles := by decide
      output := by decide
      lanes := by decide
      query := by decide
      heads := by decide
      weights := by decide
      table := fun _ ↦ by decide
      raggedKeys := fun h ↦ absurd rfl h
      pagedKeys := fun _ ↦ by decide +kernel
      pagedScales := fun _ ↦ by decide +kernel }

/-- A long chunk of a prefill over a long context: 8192 queries and 262208 keys. -/
def longPrefill : RaggedMqa ℤ where
  q := Strided.ofRowMajor (fun _ ↦ 1) [8192, 1, 128]
  k := Strided.ofRowMajor (fun _ ↦ 1) [262208, 128]
  scales := Strided.ofRowMajor (fun _ ↦ 1) [262208]
  weights := Strided.ofRowMajor (fun _ ↦ 1) [8192, 1]
  starts := Strided.ofRowMajor (fun _ ↦ 0) [8192]
  ends := Strided.ofRowMajor (fun _ ↦ 262208) [8192]

/-- The last row starts at `8191 * 262208`, which wraps to a negative offset. -/
theorem not_inPlace : ∃ a rows, longPrefill.launch byteFormats = some (a, rows) ∧
    ¬ a.InPlace rows := by
  have hasserts : longPrefill.Asserts := by decide +kernel
  refine ⟨longPrefill.kernel byteFormats 1, 8192, ?_, fun h ↦ ?_⟩
  · simp only [RaggedMqa.launch, guard, hasserts, if_true]
    rfl
  · have hexact := h.exact 8191 (by decide) 0 (by decide)
    exact absurd hexact.outRow (by decide)

end Sglang
