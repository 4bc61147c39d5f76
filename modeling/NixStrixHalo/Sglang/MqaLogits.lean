import Mathlib.Algebra.BigOperators.Fin
import Mathlib.Algebra.BigOperators.Ring.Finset
import Mathlib.Data.Nat.Log
import Mathlib.Tactic.Positivity
import Mathlib.Tactic.Ring
import NixStrixHalo.Library.Tile
import NixStrixHalo.Sglang.PooledTopk

/-!
# Pooled-DSA logits

`_mqa_logits` is one kernel for two layouts of the keys. The ragged one has a row of 128 bytes for
each key and a separate tensor of scales; the paged one has, for each physical page, 64 such rows
followed by 64 four-byte scales, and addresses that buffer both as bytes and as 32-bit words. The
definitions below follow the kernel tile by tile, with the strides and masks it has, and the two
functions that launch it; `PagedMqa.logit_eq_ragged` says that the layouts agree.

Arithmetic is exact, that of the offsets included. A row of logits has entries in `WithBot`, where
`⊥` is `-inf`.

## The kernel

A program handles a row and a block of keys. `stores` is what it stores, and an entry of the output
is the logit of its key where the key belongs to the row, and `-inf` everywhere else
(`MqaLogits.output_entry`). The masks of the loads do not matter for keys that are valid, since
these are within their page and below the length of the row.

## The calls

`RaggedMqa` and `PagedMqa` are the two calls with their assertions, without which neither launches
anything. A paged call is compared with the ragged one on keys and scales that are gathered through
the page table (`IsGather`), row by row.

An entry of the page table that no key of the row needs neither matters nor addresses the buffer:
the logits are the same with another one in its place (`withPages`), and every byte that is read is
on a page that a key of the row is on (`PagedMqa.mem_bufferReads`).
-/

namespace Sglang

/-! ### Strided tensors -/

/-- A tensor: a view of memory by a shape and as many strides. -/
structure Strided (α : Type*) where
  data : ℤ → α
  shape : List ℕ
  stride : List ℤ
  length_stride : stride.length = shape.length

namespace Strided

variable {α : Type*} (t : Strided α)

/-- `t[i, j, ..]`. -/
def get (i : List ℕ) : α := t.data (List.zipWith (fun (i : ℕ) (s : ℤ) ↦ i * s) i t.stride).sum

/-- `t.numel()`. -/
def numel : ℕ := t.shape.prod

/-- The strides of a tensor laid out in row-major order. -/
def rowMajor : List ℕ → List ℤ
  | [] => []
  | _ :: shape => (shape.prod : ℕ) :: rowMajor shape

/-- There is a stride for each dimension. -/
@[simp] theorem length_rowMajor (shape : List ℕ) : (rowMajor shape).length = shape.length := by
  induction shape with
  | nil => rfl
  | cons n shape ih => simp [rowMajor, ih]

/-- `t.is_contiguous()`: the stride of a dimension of size one does not matter. -/
def isContiguous : Bool :=
  t.numel == 0 ||
    (t.shape.zip (t.stride.zip (rowMajor t.shape))).all fun (n, s, s') ↦ n == 1 || s == s'

/-- A tensor laid out in row-major order. -/
def ofRowMajor (data : ℤ → α) (shape : List ℕ) : Strided α where
  data := data
  shape := shape
  stride := rowMajor shape
  length_stride := length_rowMajor shape

/-- `t[:, 0]`. -/
def select : Strided α where
  data := t.data
  shape := t.shape.eraseIdx 1
  stride := t.stride.eraseIdx 1
  length_stride := by simp only [List.length_eraseIdx, t.length_stride]

/-- `t[r:r+1]`. -/
def narrow (r : ℕ) : Strided α where
  data x := t.data (r * t.stride.getD 0 0 + x)
  shape := t.shape.set 0 1
  stride := t.stride
  length_stride := by rw [List.length_set, t.length_stride]

/-- A tensor in row-major order is contiguous. -/
theorem isContiguous_ofRowMajor (data : ℤ → α) (shape : List ℕ) :
    (ofRowMajor data shape).isContiguous := by
  have key : ∀ shape : List ℕ, (shape.zip ((rowMajor shape).zip (rowMajor shape))).all
      fun (n, s, s') ↦ n == 1 || s == s' := by
    intro shape
    induction shape with
    | nil => rfl
    | cons n shape ih => simpa [rowMajor] using ih
  rw [isContiguous, Bool.or_eq_true]
  exact Or.inr (key shape)

end Strided

/-! ### The kernel -/

/-- The arguments of `_mqa_logits`. The strides and sizes have the source's names. -/
structure MqaLogits (R : Type*) where
  Q : ℤ → R
  K : ℤ → R
  S : ℤ → R
  W : ℤ → R
  Starts : ℤ → ℤ
  Ends : ℤ → ℤ
  Pages : ℤ → ℤ
  Q0 : ℤ
  Q1 : ℤ
  W0 : ℤ
  P0 : ℤ
  N : ℕ
  H : ℕ
  PAGED : Bool
  BH : ℕ
  BK : ℕ

namespace MqaLogits

variable {R : Type*} (a : MqaLogits R) (row block : ℕ)

/-! ### Addresses -/

/-- `cols`. -/
def cols (i : Fin a.BK) : ℤ := block * a.BK + i

/-- `end`. -/
def stop : ℤ := a.Ends row

/-- `start`. -/
def start : ℤ := if a.PAGED then 0 else a.Starts row

/-- `valid`. -/
def valid (i : Fin a.BK) : Prop :=
  a.cols block i < a.N ∧ a.start row ≤ a.cols block i ∧ a.cols block i < a.stop row

instance : DecidablePred (a.valid row block) :=
  fun i ↦ inferInstanceAs (Decidable (a.cols block i < a.N ∧ a.start row ≤ a.cols block i ∧
    a.cols block i < a.stop row))

/-- `page`. -/
def page : Tile.Load (Fin a.BK) ℤ where
  memory := a.Pages
  address i := row * a.P0 + a.cols block i / 64
  mask := a.valid row block
  other := 0

instance : DecidablePred (a.page row block).mask :=
  inferInstanceAs (DecidablePred (a.valid row block))

/-- `k_offsets`. -/
def kOffsets (d : Fin 128) (i : Fin a.BK) : ℤ :=
  if a.PAGED then (a.page row block).value i * (64 * 132) + a.cols block i % 64 * 128 + d
  else a.cols block i * 128 + d

/-- `s_offsets`. -/
def sOffsets (i : Fin a.BK) : ℤ :=
  if a.PAGED then (a.page row block).value i * (64 * 33) + 64 * 32 + a.cols block i % 64
  else a.cols block i

/-- Where the first byte of key `c` of a row is. -/
def keyAddress (a : MqaLogits R) (r c : ℕ) : ℤ :=
  if a.PAGED then a.Pages (r * a.P0 + (c / 64 : ℕ)) * (64 * 132) + (c % 64 : ℕ) * 128 else c * 128

/-- Where the scale of key `c` of a row is, in words. -/
def scaleAddress (a : MqaLogits R) (r c : ℕ) : ℤ :=
  if a.PAGED then a.Pages (r * a.P0 + (c / 64 : ℕ)) * (64 * 33) + 64 * 32 + (c % 64 : ℕ) else c

/-- Columns count from zero. -/
theorem cols_nonneg (i : Fin a.BK) : 0 ≤ a.cols block i := by
  rw [cols]
  positivity

/-- An element of `Out` belongs to one row and one column. -/
theorem row_col_unique {n r r' c : ℕ} {x : ℤ} (hx : 0 ≤ x) (hxn : x < n) (hc : c < n)
    (h : r' * n + x = (r * n + c : ℤ)) : r' = r ∧ x = c := by
  lift x to ℕ using hx
  have hnat : r' * n + x = r * n + c := by exact_mod_cast h
  have hxn' : x < n := by exact_mod_cast hxn
  have hrow : r' = r := by
    have := congrArg (· / n) hnat
    simpa only [Nat.mul_comm _ n, Nat.mul_add_div (Nat.zero_lt_of_lt hc), Nat.div_eq_of_lt hxn',
      Nat.div_eq_of_lt hc, Nat.add_zero] using this
  subst hrow
  exact ⟨rfl, by exact_mod_cast Nat.add_left_cancel hnat⟩

variable {a row block} {c : ℕ} {i : Fin a.BK}

/-- The page of a valid column is that of its block of 64. -/
theorem page_of_valid (hv : a.valid row block i) (hc : a.cols block i = c) :
    (a.page row block).value i = a.Pages (row * a.P0 + (c / 64 : ℕ)) := by
  have haddress : (a.page row block).address i = row * a.P0 + (c / 64 : ℕ) := by
    change row * a.P0 + a.cols block i / 64 = _
    rw [hc]
    rfl
  rw [Tile.Load.value_of_mask hv, haddress]
  rfl

/-- The keys of a valid column are at its address. -/
theorem kOffsets_of_valid (hv : a.valid row block i) (hc : a.cols block i = c) (d : Fin 128) :
    a.kOffsets row block d i = a.keyAddress row c + d := by
  rw [kOffsets, keyAddress, page_of_valid hv hc, hc]
  split <;> norm_cast

/-- The scale of a valid column is at its address. -/
theorem sOffsets_of_valid (hv : a.valid row block i) (hc : a.cols block i = c) :
    a.sOffsets row block i = a.scaleAddress row c := by
  rw [sOffsets, scaleAddress, page_of_valid hv hc, hc]
  split <;> norm_cast

/-! ### The tile of a program -/

variable [CommSemiring R] (a row block)

/-- `q`. -/
def q : Tile.Load (Fin a.BH × Fin 128) R where
  memory := a.Q
  address := fun (h, d) ↦ row * a.Q0 + h * a.Q1 + d
  mask := fun (h, _) ↦ (h : ℕ) < a.H
  other := 0

instance : DecidablePred (a.q row).mask :=
  fun i ↦ inferInstanceAs (Decidable ((i.1 : ℕ) < a.H))

/-- `k`. -/
def k : Tile.Load (Fin 128 × Fin a.BK) R where
  memory := a.K
  address := fun (d, i) ↦ a.kOffsets row block d i
  mask := fun (_, i) ↦ a.valid row block i
  other := 0

instance : DecidablePred (a.k row block).mask :=
  fun i ↦ inferInstanceAs (Decidable (a.valid row block i.2))

/-- `scale`. -/
def scale : Tile.Load (Fin a.BK) R where
  memory := a.S
  address := a.sOffsets row block
  mask := a.valid row block
  other := 0

instance : DecidablePred (a.scale row block).mask :=
  inferInstanceAs (DecidablePred (a.valid row block))

/-- `weights`. -/
def weights : Tile.Load (Fin a.BH) R where
  memory := a.W
  address h := row * a.W0 + h
  mask h := (h : ℕ) < a.H
  other := 0

instance : DecidablePred (a.weights row).mask :=
  fun h ↦ inferInstanceAs (Decidable ((h : ℕ) < a.H))

/-- `dots`. -/
def dots (h : Fin a.BH) (i : Fin a.BK) : R :=
  ∑ d, (a.q row).value (h, d) * (a.k row block).value (d, i)

variable {a row block}

/-- A head behind the last one is zero. -/
theorem q_value (h : Fin a.BH) (d : Fin 128) : (a.q row).value (h, d) =
    if (h : ℕ) < a.H then a.Q (row * a.Q0 + h * a.Q1 + d) else 0 := rfl

/-- The weight of a head behind the last one is zero. -/
theorem weights_value (h : Fin a.BH) : (a.weights row).value h =
    if (h : ℕ) < a.H then a.W (row * a.W0 + h) else 0 := rfl

/-- The keys of a valid column are loaded. -/
theorem k_value_of_valid (hv : a.valid row block i) (hc : a.cols block i = c) (d : Fin 128) :
    (a.k row block).value (d, i) = a.K (a.keyAddress row c + d) := by
  have haddress : (a.k row block).address (d, i) = a.keyAddress row c + d :=
    kOffsets_of_valid hv hc d
  rw [Tile.Load.value_of_mask hv, haddress]
  rfl

/-- The scale of a valid column is loaded. -/
theorem scale_value_of_valid (hv : a.valid row block i) (hc : a.cols block i = c) :
    (a.scale row block).value i = a.S (a.scaleAddress row c) := by
  have haddress : (a.scale row block).address i = a.scaleAddress row c := sOffsets_of_valid hv hc
  rw [Tile.Load.value_of_mask hv, haddress]
  rfl

/-- The product of a head and a valid column is that of query and key. -/
theorem dots_of_valid (hv : a.valid row block i) (hc : a.cols block i = c) (h : Fin a.BH) :
    a.dots row block h i = if (h : ℕ) < a.H then ∑ d ∈ Finset.range 128,
      a.Q (row * a.Q0 + h * a.Q1 + d) * a.K (a.keyAddress row c + d) else 0 := by
  have hdots : a.dots row block h i = ∑ d : Fin 128,
      (if (h : ℕ) < a.H then a.Q (row * a.Q0 + h * a.Q1 + d) else 0) *
        a.K (a.keyAddress row c + d) :=
    Finset.sum_congr rfl fun d _ ↦ by rw [q_value, k_value_of_valid hv hc]
  rw [hdots]
  split
  · exact Fin.sum_univ_eq_sum_range
      (fun d ↦ a.Q (row * a.Q0 + h * a.Q1 + d) * a.K (a.keyAddress row c + d)) 128
  · simp

variable [LinearOrder R] (a row block)

/-- `logits`. -/
def logits (i : Fin a.BK) : WithBot R :=
  if a.valid row block i then
    ((∑ h, max (a.dots row block h i) 0 * (a.weights row).value h) *
      (a.scale row block).value i : R)
  else ⊥

/-- What a program stores to `Out`. -/
def stores (p : ℕ × ℕ) : List (ℤ × WithBot R) :=
  ((List.finRange a.BK).filter fun i ↦ a.cols p.2 i < a.N).map
    fun i ↦ (p.1 * a.N + a.cols p.2 i, a.logits p.1 p.2 i)

/-- `Out` after a launch over `rows` rows, as a tensor. -/
def output (dev : Tile.Device (WithBot R)) (rows : ℕ) : Tensor2 (WithBot R) where
  rows := rows
  cols := a.N
  entry r c := dev.launch rows ((a.N + 63) / 64) a.stores (r * a.N + c)

/-! ### What the kernel computes -/

variable {a row block}

/-- The logit of key `c` for the query of a row, over the heads there are. -/
def logit (a : MqaLogits R) (r c : ℕ) : R :=
  (∑ h ∈ Finset.range a.H,
      max (∑ d ∈ Finset.range 128, a.Q (r * a.Q0 + h * a.Q1 + d) * a.K (a.keyAddress r c + d)) 0 *
        a.W (r * a.W0 + h)) * a.S (a.scaleAddress r c)

/-- A valid lane computes the logit of its key: the lanes past the last head contribute nothing. -/
theorem logits_of_valid (hH : a.H ≤ a.BH) (hv : a.valid row block i) (hc : a.cols block i = c) :
    a.logits row block i = a.logit row c := by
  set head : ℕ → R := fun h ↦ max (∑ d ∈ Finset.range 128,
    a.Q (row * a.Q0 + h * a.Q1 + d) * a.K (a.keyAddress row c + d)) 0 * a.W (row * a.W0 + h)
    with hhead
  have hlane : ∀ h : Fin a.BH, max (a.dots row block h i) 0 * (a.weights row).value h =
      if (h : ℕ) < a.H then head h else 0 := by
    intro h
    rw [dots_of_valid hv hc, weights_value]
    split
    · rfl
    · rw [mul_zero]
  have hheads : (∑ h, max (a.dots row block h i) 0 * (a.weights row).value h) =
      ∑ h ∈ Finset.range a.H, head h := by
    rw [Finset.sum_congr rfl fun h _ ↦ hlane h,
      Fin.sum_univ_eq_sum_range (fun h ↦ if h < a.H then head h else 0) a.BH]
    symm
    -- the lanes past the last head add nothing
    refine Finset.sum_subset_zero_on_sdiff (Finset.range_mono hH) ?_ ?_
    · intro h hh
      exact if_neg fun hlt ↦ (Finset.mem_sdiff.1 hh).2 (Finset.mem_range.2 hlt)
    · intro h hh
      exact (if_pos (Finset.mem_range.1 hh)).symm
  rw [logits, if_pos hv, hheads, scale_value_of_valid hv hc]
  rfl

/-- What a launch leaves at column `c` of a row: the logit of the key where the column is within
the row's bounds, `-inf` elsewhere, whichever order the programs run in. -/
theorem output_entry (dev : Tile.Device (WithBot R)) {rows r : ℕ} (hH : a.H ≤ a.BH)
    (hBK : a.BK = 64) (hr : r < rows) (hc : c < a.N) :
    (a.output dev rows).entry r c =
      if a.start r ≤ c ∧ c < a.stop r then (a.logit r c : WithBot R) else ⊥ := by
  have hvalue : ∀ (block : ℕ) (i : Fin a.BK), a.cols block i = c → a.logits r block i =
      if a.start r ≤ c ∧ c < a.stop r then (a.logit r c : WithBot R) else ⊥ := by
    intro block i hi
    by_cases hin : a.start r ≤ c ∧ c < a.stop r
    · have hv : a.valid r block i := by
        rw [valid, hi]
        exact ⟨by exact_mod_cast hc, hin⟩
      rw [if_pos hin, logits_of_valid hH hv hi]
    · have hv : ¬ a.valid r block i := by
        rw [valid, hi]
        exact fun hv ↦ hin hv.2
      rw [if_neg hin, logits, if_neg hv]
  refine Tile.Device.launch_eq ?_ ?_
  · -- the program of the block that the column is in writes it
    refine ⟨(r, c / 64), hr, by change c / 64 < _; omega, List.mem_map.2 ?_⟩
    have hlt : c % 64 < a.BK := by omega
    have hcols : a.cols (c / 64) ⟨c % 64, hlt⟩ = c := by
      have hsum : c / 64 * a.BK + c % 64 = c := by rw [hBK, Nat.div_add_mod']
      change ((c / 64 : ℕ) * a.BK + (c % 64 : ℕ) : ℤ) = c
      exact_mod_cast hsum
    refine ⟨⟨c % 64, hlt⟩, List.mem_filter.2 ⟨List.mem_finRange _, ?_⟩, ?_⟩
    · rw [decide_eq_true_eq, hcols]
      exact_mod_cast hc
    · rw [hcols, hvalue _ _ hcols]
  · -- and no program writes another value there
    rintro ⟨r', block⟩ u hr' - hu
    obtain ⟨i, hi, heq⟩ := List.mem_map.1 hu
    have hlt : a.cols block i < a.N := by simpa using (List.mem_filter.1 hi).2
    obtain ⟨haddress, rfl⟩ := Prod.mk.inj heq
    obtain ⟨rfl, hcols⟩ := row_col_unique (a.cols_nonneg block i) hlt hc haddress
    exact hvalue block i hcols

/-! ### The addresses of a program -/

variable (a row block)

/-- The bytes of `K` and `S` that a program reads, where both are views of one buffer. -/
def bufferReads : Set ℤ :=
  (a.k row block).reads ∪ {x | ∃ w ∈ (a.scale row block).reads, 4 * w ≤ x ∧ x < 4 * w + 4}

end MqaLogits

/-! ### The callers -/

/-- How the bytes of FP8 values and of 32-bit floats are read. -/
structure Formats (R : Type) where
  e4m3 : UInt8 → R
  float32 : (Fin 4 → UInt8) → R

/-- `triton.next_power_of_2(n)`, for a positive `n`. -/
def nextPowerOf2 (n : ℕ) : ℕ := 2 ^ Nat.clog 2 n

/-- `_validate`. -/
def validate {R : Type} (q : Strided UInt8) (weights : Strided R) : Prop :=
  q.shape.getLast? = some 128 ∧ q.stride.getLast? = some 1 ∧ weights.stride.getLast? = some 1 ∧
    weights.shape = q.shape.take 2

instance {R : Type} (q : Strided UInt8) (weights : Strided R) : Decidable (validate q weights) :=
  inferInstanceAs (Decidable (q.shape.getLast? = some 128 ∧ q.stride.getLast? = some 1 ∧
    weights.stride.getLast? = some 1 ∧ weights.shape = q.shape.take 2))

/-- The arguments of `fp8_mqa_logits`. -/
structure RaggedMqa (R : Type) where
  q : Strided UInt8
  k : Strided UInt8
  scales : Strided R
  weights : Strided R
  starts : Strided ℤ
  ends : Strided ℤ

/-- The arguments of `fp8_paged_mqa_logits`; `ends` is `context_lens.reshape(-1)`. -/
structure PagedMqa (R : Type) where
  q : Strided UInt8
  cache : Strided UInt8
  weights : Strided R
  ends : Strided ℤ
  pageTable : Strided ℤ
  maxSeqLen : ℕ

namespace RaggedMqa

variable {R : Type} (c : RaggedMqa R)

/-- The assertions of `fp8_mqa_logits`. -/
def Asserts : Prop :=
  validate c.q c.weights ∧ c.k.isContiguous ∧ c.k.shape[1]? = some 128 ∧
    c.scales.isContiguous ∧ c.k.shape[0]? = some c.scales.numel ∧
    c.starts.isContiguous ∧ c.ends.isContiguous ∧
    c.starts.numel = c.ends.numel ∧ c.q.shape[0]? = some c.ends.numel

instance : Decidable c.Asserts :=
  inferInstanceAs (Decidable (validate c.q c.weights ∧ c.k.isContiguous ∧
    c.k.shape[1]? = some 128 ∧ c.scales.isContiguous ∧ c.k.shape[0]? = some c.scales.numel ∧
    c.starts.isContiguous ∧ c.ends.isContiguous ∧
    c.starts.numel = c.ends.numel ∧ c.q.shape[0]? = some c.ends.numel))

/-- What `fp8_mqa_logits` launches `_mqa_logits` with, for `heads` heads. -/
def kernel (fmt : Formats R) (heads : ℕ) : MqaLogits R where
  Q x := fmt.e4m3 (c.q.data x)
  K x := fmt.e4m3 (c.k.data x)
  S := c.scales.data
  W := c.weights.data
  Starts := c.starts.data
  Ends := c.ends.data
  Pages := c.starts.data
  Q0 := c.q.stride.getD 0 0
  Q1 := c.q.stride.getD 1 0
  W0 := c.weights.stride.getD 0 0
  P0 := 0
  N := c.k.shape.getD 0 0
  H := heads
  PAGED := false
  BH := max 16 (nextPowerOf2 heads)
  BK := 64

end RaggedMqa

section

variable {R : Type} [CommSemiring R] [LinearOrder R]

/-- `fp8_mqa_logits`; `none` where an assertion or an index fails. -/
def fp8MqaLogits (fmt : Formats R) (dev : Tile.Device (WithBot R)) (c : RaggedMqa R) :
    Option (Tensor2 (WithBot R)) := do
  guard c.Asserts
  let rows ← c.q.shape[0]?
  let n ← c.k.shape[0]?
  if rows * n = 0 then some ⟨rows, n, fun r col ↦ dev.fresh (r * n + col)⟩
  else
    let heads ← c.q.shape[1]?
    some ((c.kernel fmt heads).output dev rows)

end

namespace PagedMqa

variable {R : Type} (c : PagedMqa R)

/-- The assertions of `fp8_paged_mqa_logits`. -/
def Asserts : Prop :=
  c.q.shape.length = 4 ∧ c.q.shape[1]? = some 1 ∧ validate c.q.select c.weights ∧
    c.cache.isContiguous ∧ c.cache.shape.tail = [64, 1, 132] ∧
    c.ends.isContiguous ∧ c.q.shape[0]? = some c.ends.numel ∧
    c.pageTable.shape[0]? = c.q.shape[0]? ∧ c.pageTable.stride[1]? = some 1 ∧
    c.maxSeqLen ≤ c.pageTable.shape.getD 1 0 * 64

instance : Decidable c.Asserts :=
  inferInstanceAs (Decidable (c.q.shape.length = 4 ∧ c.q.shape[1]? = some 1 ∧
    validate c.q.select c.weights ∧ c.cache.isContiguous ∧ c.cache.shape.tail = [64, 1, 132] ∧
    c.ends.isContiguous ∧ c.q.shape[0]? = some c.ends.numel ∧
    c.pageTable.shape[0]? = c.q.shape[0]? ∧ c.pageTable.stride[1]? = some 1 ∧
    c.maxSeqLen ≤ c.pageTable.shape.getD 1 0 * 64))

/-- What `fp8_paged_mqa_logits` launches `_mqa_logits` with: `K` and `S` are `cache`, viewed as
FP8 values and as 32-bit floats. -/
def kernel (fmt : Formats R) (heads : ℕ) : MqaLogits R where
  Q x := fmt.e4m3 (c.q.select.data x)
  K x := fmt.e4m3 (c.cache.data x)
  S w := fmt.float32 fun b ↦ c.cache.data (4 * w + b)
  W := c.weights.data
  Starts := c.ends.data
  Ends := c.ends.data
  Pages := c.pageTable.data
  Q0 := c.q.select.stride.getD 0 0
  Q1 := c.q.select.stride.getD 1 0
  W0 := c.weights.stride.getD 0 0
  P0 := c.pageTable.stride.getD 0 0
  N := c.maxSeqLen
  H := heads
  PAGED := true
  BH := max 16 (nextPowerOf2 heads)
  BK := 64

end PagedMqa

section

variable {R : Type} [CommSemiring R] [LinearOrder R]

/-- `fp8_paged_mqa_logits`; `none` where an assertion fails. -/
def fp8PagedMqaLogits (fmt : Formats R) (dev : Tile.Device (WithBot R)) (c : PagedMqa R) :
    Option (Tensor2 (WithBot R)) := do
  guard c.Asserts
  let rows ← c.q.select.shape[0]?
  let heads ← c.q.select.shape[1]?
  if rows * c.maxSeqLen = 0 then
    some ⟨rows, c.maxSeqLen, fun r col ↦ dev.fresh (r * c.maxSeqLen + col)⟩
  else some ((c.kernel fmt heads).output dev rows)

end

/-! ### What a call returns -/

/-- The block of heads covers the heads. -/
theorem le_nextPowerOf2 (n : ℕ) : n ≤ max 16 (nextPowerOf2 n) :=
  (Nat.le_pow_clog one_lt_two n).trans (le_max_right 16 _)

variable {R : Type} [CommSemiring R] [LinearOrder R] {fmt : Formats R}
  {dev : Tile.Device (WithBot R)}

/-- A paged call returns when its assertions hold. -/
theorem exists_fp8PagedMqaLogits_eq_some (fmt : Formats R) (dev : Tile.Device (WithBot R))
    {c : PagedMqa R} {rows heads : ℕ} (h : c.Asserts)
    (hrows : c.q.select.shape[0]? = some rows) (hheads : c.q.select.shape[1]? = some heads) :
    ∃ out, fp8PagedMqaLogits fmt dev c = some out ∧ out.rows = rows ∧ out.cols = c.maxSeqLen ∧
      ∀ r < rows, ∀ col < c.maxSeqLen, out.entry r col = if (col : ℤ) < c.ends.data r then
        ((c.kernel fmt heads).logit r col : WithBot R) else ⊥ := by
  by_cases hzero : rows * c.maxSeqLen = 0
  · refine ⟨⟨rows, c.maxSeqLen, fun r col ↦ dev.fresh (r * c.maxSeqLen + col)⟩, ?_, rfl, rfl,
      fun r hr col hcol ↦
        absurd hzero (Nat.mul_ne_zero (Nat.ne_zero_of_lt hr) (Nat.ne_zero_of_lt hcol))⟩
    simp only [fp8PagedMqaLogits, guard, h, hrows, hheads, if_true, if_pos hzero,
      Option.bind_eq_bind, Option.pure_def, Option.bind_some]
  · refine ⟨(c.kernel fmt heads).output dev rows, ?_, rfl, rfl, fun r hr col hcol ↦ ?_⟩
    · simp only [fp8PagedMqaLogits, guard, h, hrows, hheads, if_true, if_neg hzero,
        Option.bind_eq_bind, Option.pure_def, Option.bind_some]
    · rw [MqaLogits.output_entry dev (le_nextPowerOf2 heads) rfl hr hcol]
      simp [MqaLogits.start, MqaLogits.stop, PagedMqa.kernel]

/-- A paged call that returns met its assertions. -/
theorem asserts_of_fp8PagedMqaLogits {c : PagedMqa R} {out : Tensor2 (WithBot R)}
    (h : fp8PagedMqaLogits fmt dev c = some out) :
    c.Asserts ∧ ∃ rows heads, c.q.select.shape[0]? = some rows ∧
      c.q.select.shape[1]? = some heads := by
  simp only [fp8PagedMqaLogits, Option.bind_eq_bind, Option.bind_eq_some_iff,
    Option.guard_eq_some', exists_const] at h
  obtain ⟨hasserts, rows, hrows, heads, hheads, -⟩ := h
  exact ⟨hasserts, rows, heads, hrows, hheads⟩

/-- A ragged call returns when its assertions hold and `q` has a second dimension. -/
theorem exists_fp8MqaLogits_eq_some (fmt : Formats R) (dev : Tile.Device (WithBot R))
    {c : RaggedMqa R} {rows n heads : ℕ} (h : c.Asserts)
    (hrows : c.q.shape[0]? = some rows) (hn : c.k.shape[0]? = some n)
    (hheads : c.q.shape[1]? = some heads) : ∃ out, fp8MqaLogits fmt dev c = some out ∧
      out.rows = rows ∧ out.cols = n ∧ ∀ r < rows, ∀ col < n, out.entry r col =
        if c.starts.data r ≤ col ∧ (col : ℤ) < c.ends.data r then
          ((c.kernel fmt heads).logit r col : WithBot R) else ⊥ := by
  have hN : (c.kernel fmt heads).N = n := by
    change c.k.shape.getD 0 0 = n
    rw [List.getD_eq_getElem?_getD, hn, Option.getD_some]
  by_cases hzero : rows * n = 0
  · refine ⟨⟨rows, n, fun r col ↦ dev.fresh (r * n + col)⟩, ?_, rfl, rfl, fun r hr col hcol ↦
      absurd hzero (Nat.mul_ne_zero (Nat.ne_zero_of_lt hr) (Nat.ne_zero_of_lt hcol))⟩
    simp only [fp8MqaLogits, guard, h, hrows, hn, if_true, if_pos hzero, Option.bind_eq_bind,
      Option.pure_def, Option.bind_some]
  · refine ⟨(c.kernel fmt heads).output dev rows, ?_, rfl, hN, fun r hr col hcol ↦ ?_⟩
    · simp only [fp8MqaLogits, guard, h, hrows, hn, hheads, if_true, if_neg hzero,
        Option.bind_eq_bind, Option.pure_def, Option.bind_some]
    · rw [MqaLogits.output_entry dev (le_nextPowerOf2 heads) rfl hr (hN ▸ hcol)]
      simp [MqaLogits.start, MqaLogits.stop, RaggedMqa.kernel]

/-! ### The two layouts agree -/

/-- `cache` is laid out in pages of 64 rows of 128 key bytes, followed by 64 scales of four
bytes. -/
structure IsPacked (cache : ℤ → UInt8) (keys : ℤ → ℕ → ℕ → UInt8) (scales : ℤ → ℕ → Fin 4 → UInt8) :
    Prop where
  key : ∀ (page : ℤ) (slot d : ℕ), slot < 64 → d < 128 →
    cache (page * (64 * 132) + slot * 128 + d) = keys page slot d
  scale : ∀ (page : ℤ) (slot : ℕ) (b : Fin 4), slot < 64 →
    cache (page * (64 * 132) + 64 * 128 + slot * 4 + b) = scales page slot b

namespace PagedMqa

variable (c : PagedMqa R) (r : ℕ)

/-- An entry of the page table. -/
def page (j : ℕ) : ℤ := c.pageTable.get [r, j]

/-- How many pages the keys of a row take. -/
def usedPages : ℕ := ((c.ends.data r + 63) / 64).toNat

/-- `keys` and `scales` are gathered through the page table of row `r`, as far as its length. -/
def IsGather (fmt : Formats R) (pageKeys : ℤ → ℕ → ℕ → UInt8)
    (pageScales : ℤ → ℕ → Fin 4 → UInt8) (keys : ℕ → ℕ → UInt8) (scales : ℕ → R) : Prop :=
  ∀ j : ℕ, (j : ℤ) < c.ends.data r →
    (∀ d < 128, keys j d = pageKeys (c.page r (j / 64)) (j % 64) d) ∧
      scales j = fmt.float32 (pageScales (c.page r (j / 64)) (j % 64))

/-- The ragged call for row `r`, on keys and scales of its own. -/
def ragged (keys : ℕ → ℕ → UInt8) (scales : ℕ → R) : RaggedMqa R where
  q := c.q.select.narrow r
  k := Strided.ofRowMajor (fun x ↦ keys (x.toNat / 128) (x.toNat % 128)) [c.maxSeqLen, 128]
  scales := Strided.ofRowMajor (fun x ↦ scales x.toNat) [c.maxSeqLen]
  weights := c.weights.narrow r
  starts := Strided.ofRowMajor (fun _ ↦ 0) [1]
  ends := Strided.ofRowMajor (fun _ ↦ c.ends.data r) [1]

variable {c r}

omit [CommSemiring R] [LinearOrder R] in
/-- Narrowing to one row keeps what has been validated. -/
theorem validate_narrow {q : Strided UInt8} {weights : Strided R} (hq : 2 ≤ q.shape.length)
    (h : validate q weights) (r : ℕ) : validate (q.narrow r) (weights.narrow r) := by
  obtain ⟨hshape, hstride, hweights, heq⟩ := h
  refine ⟨?_, hstride, hweights, ?_⟩
  · change (q.shape.set 0 1).getLast? = _
    rw [← hshape, List.getLast?_eq_getElem?, List.getLast?_eq_getElem?, List.length_set,
      List.getElem?_set_ne (by omega)]
  · change weights.shape.set 0 1 = (q.shape.set 0 1).take 2
    rw [heq, List.take_set]

omit [CommSemiring R] [LinearOrder R] in
/-- The ragged call for a row of a paged call that returns meets its assertions. -/
theorem Asserts.ragged (h : c.Asserts) (keys : ℕ → ℕ → UInt8) (scales : ℕ → R) :
    (c.ragged r keys scales).Asserts := by
  obtain ⟨hlength, -, hvalidate, -⟩ := h
  have hselect : c.q.select.shape.length = 3 := by
    change (c.q.shape.eraseIdx 1).length = 3
    rw [List.length_eraseIdx, if_pos (by omega), hlength]
  refine ⟨validate_narrow (by omega) hvalidate r, Strided.isContiguous_ofRowMajor _ _, rfl,
    Strided.isContiguous_ofRowMajor _ _, ?_, Strided.isContiguous_ofRowMajor _ _,
    Strided.isContiguous_ofRowMajor _ _, rfl, ?_⟩
  · simp [PagedMqa.ragged, Strided.ofRowMajor, Strided.numel]
  · change (c.q.select.shape.set 0 1)[0]? = some 1
    rw [List.getElem?_set_self (by omega)]

omit [CommSemiring R] [LinearOrder R] in
/-- It has one row, of as many heads. -/
theorem Asserts.ragged_shape (h : c.Asserts) (keys : ℕ → ℕ → UInt8) (scales : ℕ → R) :
    (c.ragged r keys scales).q.shape[0]? = some 1 ∧
      (c.ragged r keys scales).q.shape[1]? = c.q.select.shape[1]? := by
  obtain ⟨-, -, -, -, -, -, -, -, hrows⟩ := h.ragged (r := r) keys scales
  refine ⟨hrows, ?_⟩
  change (c.q.select.shape.set 0 1)[1]? = _
  rw [List.getElem?_set_ne zero_ne_one]

omit [CommSemiring R] [LinearOrder R] in
/-- The page of a block of 64 is an entry of the row of the table. -/
theorem Asserts.page_eq (h : c.Asserts) (j : ℕ) :
    c.page r j = c.pageTable.data (r * c.pageTable.stride.getD 0 0 + j) := by
  obtain ⟨-, -, -, -, -, -, -, -, hstride, -⟩ := h
  rcases hlist : c.pageTable.stride with _ | ⟨s, _ | ⟨s', rest⟩⟩
  · simp [hlist] at hstride
  · simp [hlist] at hstride
  · obtain rfl : s' = 1 := by simpa [hlist] using hstride
    simp [page, Strided.get, hlist]

omit [CommSemiring R] [LinearOrder R] in
/-- A column before the end of its row lies in a page that is used. -/
theorem div_lt_usedPages {col : ℕ} (hcol : (col : ℤ) < c.ends.data r) :
    col / 64 < c.usedPages r := by
  rw [usedPages]
  omega

variable {pageKeys : ℤ → ℕ → ℕ → UInt8} {pageScales : ℤ → ℕ → Fin 4 → UInt8}
  {keys : ℕ → ℕ → UInt8} {scales : ℕ → R} {heads col : ℕ}

omit [CommSemiring R] [LinearOrder R] in
/-- The paged kernel finds the bytes of a key and of its scale in the page the table names. -/
theorem kernel_key_eq (h : c.Asserts) (hpacked : IsPacked c.cache.data pageKeys pageScales)
    (hgather : c.IsGather r fmt pageKeys pageScales keys scales)
    (hcol : (col : ℤ) < c.ends.data r) {d : ℕ} (hd : d < 128) :
    (c.kernel fmt heads).K ((c.kernel fmt heads).keyAddress r col + d) =
      fmt.e4m3 (keys col d) := by
  have hslot : col % 64 < 64 := Nat.mod_lt _ (by norm_num)
  rw [(hgather col hcol).1 d hd, ← hpacked.key _ _ _ hslot hd, h.page_eq]
  rfl

omit [CommSemiring R] [LinearOrder R] in
/-- **The scale that the kernel reads is the gathered one.** -/
theorem kernel_scale_eq (h : c.Asserts) (hpacked : IsPacked c.cache.data pageKeys pageScales)
    (hgather : c.IsGather r fmt pageKeys pageScales keys scales)
    (hcol : (col : ℤ) < c.ends.data r) :
    (c.kernel fmt heads).S ((c.kernel fmt heads).scaleAddress r col) = scales col := by
  have hslot : col % 64 < 64 := Nat.mod_lt _ (by norm_num)
  rw [(hgather col hcol).2]
  refine congrArg fmt.float32 (funext fun b ↦ ?_)
  rw [← hpacked.scale _ _ b hslot, h.page_eq]
  refine congrArg c.cache.data ?_
  change 4 * (c.pageTable.data (r * c.pageTable.stride.getD 0 0 + (col / 64 : ℕ)) * (64 * 33) +
    64 * 32 + (col % 64 : ℕ)) + b = _
  ring

/-- Within the length of a row, the two layouts have the same logits. -/
theorem logit_eq_ragged (h : c.Asserts) (hpacked : IsPacked c.cache.data pageKeys pageScales)
    (hgather : c.IsGather r fmt pageKeys pageScales keys scales)
    (hcol : (col : ℤ) < c.ends.data r) :
    (c.kernel fmt heads).logit r col =
      ((c.ragged r keys scales).kernel fmt heads).logit 0 col := by
  -- the gathered keys are contiguous, so the address gives back row and dimension
  have hK : ∀ d : ℕ, d < 128 → ((c.ragged r keys scales).kernel fmt heads).K
      (((c.ragged r keys scales).kernel fmt heads).keyAddress 0 col + d) =
        fmt.e4m3 (keys col d) := by
    intro d hd
    change fmt.e4m3 (keys ((col * 128 + d : ℤ).toNat / 128) ((col * 128 + d : ℤ).toNat % 128)) = _
    have hnat : (col * 128 + d : ℤ).toNat = col * 128 + d := by omega
    rw [hnat, show (col * 128 + d) / 128 = col by omega, show (col * 128 + d) % 128 = d by omega]
  have hS : ((c.ragged r keys scales).kernel fmt heads).S
      (((c.ragged r keys scales).kernel fmt heads).scaleAddress 0 col) = scales col := by
    change scales (col : ℤ).toNat = scales col
    rw [Int.toNat_natCast]
  have hQ : ∀ h d : ℕ, ((c.ragged r keys scales).kernel fmt heads).Q
      ((0 : ℕ) * ((c.ragged r keys scales).kernel fmt heads).Q0 +
        h * ((c.ragged r keys scales).kernel fmt heads).Q1 + d) =
      (c.kernel fmt heads).Q (r * (c.kernel fmt heads).Q0 + h * (c.kernel fmt heads).Q1 + d) := by
    intro h d
    refine congrArg (fun x ↦ fmt.e4m3 (c.q.select.data x)) ?_
    change r * c.q.select.stride.getD 0 0 + (((0 : ℕ) : ℤ) * c.q.select.stride.getD 0 0 +
      h * c.q.select.stride.getD 1 0 + d) = r * c.q.select.stride.getD 0 0 +
      h * c.q.select.stride.getD 1 0 + d
    push_cast
    ring
  have hW : ∀ h : ℕ, ((c.ragged r keys scales).kernel fmt heads).W
      ((0 : ℕ) * ((c.ragged r keys scales).kernel fmt heads).W0 + h) =
      (c.kernel fmt heads).W (r * (c.kernel fmt heads).W0 + h) := by
    intro h
    refine congrArg c.weights.data ?_
    change r * c.weights.stride.getD 0 0 + (((0 : ℕ) : ℤ) * c.weights.stride.getD 0 0 + h) =
      r * c.weights.stride.getD 0 0 + h
    push_cast
    ring
  rw [MqaLogits.logit, MqaLogits.logit, kernel_scale_eq h hpacked hgather hcol, hS]
  refine congrArg (· * scales col) (Finset.sum_congr rfl fun h' _ ↦ ?_)
  rw [hW]
  refine congrArg (max · 0 * _) (Finset.sum_congr rfl fun d hd ↦ ?_)
  have hd : d < 128 := Finset.mem_range.1 hd
  rw [hQ, hK d hd, kernel_key_eq h hpacked hgather hcol hd]

/-! ### The pages that are read -/

omit [CommSemiring R] [LinearOrder R] in
/-- A valid lane is the lane of a key within the row's length. -/
theorem exists_col_of_valid {row block : ℕ} {i : Fin 64}
    (hv : (c.kernel fmt heads).valid row block i) :
    ∃ col : ℕ, (c.kernel fmt heads).cols block i = col ∧ (col : ℤ) < c.ends.data row := by
  obtain ⟨col, hcol⟩ := Int.eq_ofNat_of_zero_le ((c.kernel fmt heads).cols_nonneg block i)
  exact ⟨col, hcol, hcol ▸ hv.2.2⟩

omit [CommSemiring R] [LinearOrder R] in
/-- The entries of the page table that a program reads are among those its row uses. -/
theorem mem_page_reads {row block : ℕ} {x : ℤ}
    (hx : x ∈ ((c.kernel fmt heads).page row block).reads) :
    ∃ j < c.usedPages row, x = row * c.pageTable.stride.getD 0 0 + j := by
  obtain ⟨i, hv, rfl⟩ := hx
  obtain ⟨col, hcol, hlt⟩ := exists_col_of_valid hv
  refine ⟨col / 64, div_lt_usedPages hlt, ?_⟩
  change row * c.pageTable.stride.getD 0 0 + (c.kernel fmt heads).cols block i / 64 = _
  rw [hcol]
  rfl

omit [LinearOrder R] in
/-- Every byte of the cache that a program reads is in a page that its row uses. -/
theorem mem_bufferReads (h : c.Asserts) {row block : ℕ} {x : ℤ}
    (hx : x ∈ (c.kernel fmt heads).bufferReads row block) :
    ∃ j < c.usedPages row,
      c.page row j * (64 * 132) ≤ x ∧ x < (c.page row j + 1) * (64 * 132) := by
  rcases hx with ⟨⟨d, i⟩, hv, rfl⟩ | ⟨_, ⟨i, hv, rfl⟩, hlo, hhi⟩
  · obtain ⟨col, hcol, hlt⟩ := exists_col_of_valid hv
    refine ⟨col / 64, div_lt_usedPages hlt, ?_⟩
    have haddress : ((c.kernel fmt heads).k row block).address (d, i) =
        c.page row (col / 64) * (64 * 132) + (col % 64 : ℕ) * 128 + d := by
      rw [h.page_eq]
      exact MqaLogits.kOffsets_of_valid hv hcol d
    rw [haddress]
    omega
  · obtain ⟨col, hcol, hlt⟩ := exists_col_of_valid hv
    refine ⟨col / 64, div_lt_usedPages hlt, ?_⟩
    have haddress : ((c.kernel fmt heads).scale row block).address i =
        c.page row (col / 64) * (64 * 33) + 64 * 32 + (col % 64 : ℕ) := by
      rw [h.page_eq]
      exact MqaLogits.sOffsets_of_valid hv hcol
    rw [haddress] at hlo hhi
    omega

/-- The same call with other entries in the page table. -/
def withPages (c : PagedMqa R) (pages : ℤ → ℤ) : PagedMqa R :=
  { c with pageTable := { c.pageTable with data := pages } }

/-- The logits within a row's length depend only on the pages it uses. -/
theorem logit_withPages (h : c.Asserts) {pages : ℤ → ℤ}
    (hpages : ∀ j < c.usedPages r, (c.withPages pages).page r j = c.page r j)
    (hcol : (col : ℤ) < c.ends.data r) :
    ((c.withPages pages).kernel fmt heads).logit r col = (c.kernel fmt heads).logit r col := by
  have hpage : pages (r * c.pageTable.stride.getD 0 0 + (col / 64 : ℕ)) =
      c.pageTable.data (r * c.pageTable.stride.getD 0 0 + (col / 64 : ℕ)) := by
    rw [← h.page_eq, ← hpages _ (div_lt_usedPages hcol)]
    exact (Asserts.page_eq (c := c.withPages pages) h _).symm
  have hkey : ((c.withPages pages).kernel fmt heads).keyAddress r col =
      (c.kernel fmt heads).keyAddress r col :=
    congrArg (fun page ↦ page * (64 * 132) + ((col % 64 : ℕ) : ℤ) * 128) hpage
  have hscale : ((c.withPages pages).kernel fmt heads).scaleAddress r col =
      (c.kernel fmt heads).scaleAddress r col :=
    congrArg (fun page ↦ page * (64 * 33) + 64 * 32 + ((col % 64 : ℕ) : ℤ)) hpage
  rw [MqaLogits.logit, MqaLogits.logit, hkey, hscale]
  rfl

end PagedMqa

/-! ### The paged call refines the ragged one -/

/-- A paged call on a packed cache gives, row by row, the logits of the ragged call on the keys and
scales gathered through that row's page table, with `-inf` at and after the row's length. The
entries of the page table that a row does not use neither matter nor address the cache. -/
theorem fp8PagedMqaLogits_refines {c : PagedMqa R} {out : Tensor2 (WithBot R)}
    {pageKeys : ℤ → ℕ → ℕ → UInt8} {pageScales : ℤ → ℕ → Fin 4 → UInt8}
    (h : fp8PagedMqaLogits fmt dev c = some out)
    (hpacked : IsPacked c.cache.data pageKeys pageScales) :
    (∀ r < out.rows, ∀ keys scales, c.IsGather r fmt pageKeys pageScales keys scales → ∀ dev',
      ∃ ragged, fp8MqaLogits fmt dev' (c.ragged r keys scales) = some ragged ∧
        ragged.rows = 1 ∧ ragged.cols = out.cols ∧
        ∀ col < out.cols, out.entry r col = ragged.entry 0 col) ∧
    (∀ r < out.rows, ∀ col < out.cols, c.ends.data r ≤ col → out.entry r col = ⊥) ∧
    (∀ pages : ℤ → ℤ,
      (∀ r < out.rows, ∀ j < c.usedPages r, (c.withPages pages).page r j = c.page r j) →
      ∃ out', fp8PagedMqaLogits fmt dev (c.withPages pages) = some out' ∧
        out'.rows = out.rows ∧ out'.cols = out.cols ∧
        ∀ r < out.rows, ∀ col < out.cols, out'.entry r col = out.entry r col) ∧
    ∀ heads row block : ℕ,
      (∀ x ∈ ((c.kernel fmt heads).page row block).reads,
        ∃ j < c.usedPages row, x = row * c.pageTable.stride.getD 0 0 + j) ∧
      ∀ x ∈ (c.kernel fmt heads).bufferReads row block, ∃ j < c.usedPages row,
        c.page row j * (64 * 132) ≤ x ∧ x < (c.page row j + 1) * (64 * 132) := by
  obtain ⟨hasserts, rows, heads, hrows, hheads⟩ := asserts_of_fp8PagedMqaLogits h
  obtain ⟨out₁, hout, rfl, hcols, hentry⟩ :=
    exists_fp8PagedMqaLogits_eq_some fmt dev hasserts hrows hheads
  obtain rfl : out₁ = out := Option.some.inj (hout.symm.trans h)
  rw [← hcols] at hentry
  refine ⟨fun r hr keys scales hgather dev' ↦ ?_, fun r hr col hcol hlen ↦ ?_,
    fun pages hpages ↦ ?_, fun heads row block ↦ ⟨fun x hx ↦ PagedMqa.mem_page_reads hx,
      fun x hx ↦ PagedMqa.mem_bufferReads hasserts hx⟩⟩
  · have hragged := hasserts.ragged (r := r) keys scales
    obtain ⟨ragged, hsome, hone, hcols', hentry'⟩ :=
      exists_fp8MqaLogits_eq_some fmt dev' hragged (hasserts.ragged_shape keys scales).1 rfl
        ((hasserts.ragged_shape keys scales).2.trans hheads)
    refine ⟨ragged, hsome, hone, hcols'.trans hcols.symm, fun col hcol ↦ ?_⟩
    rw [hentry r hr col hcol, hentry' 0 zero_lt_one col (hcols ▸ hcol)]
    -- below the length both rows are the logit, behind it both are minus infinity
    by_cases hlen : (col : ℤ) < c.ends.data r
    · rw [if_pos hlen, PagedMqa.logit_eq_ragged hasserts hpacked hgather hlen]
      exact (if_pos ⟨Int.natCast_nonneg col, hlen⟩).symm
    · rw [if_neg hlen]
      exact (if_neg fun hin ↦ hlen hin.2).symm
  · rw [hentry r hr col hcol, if_neg (not_lt.2 hlen)]
  · obtain ⟨out', hout', hrows', hcols', hentry'⟩ :=
      exists_fp8PagedMqaLogits_eq_some fmt dev (c := c.withPages pages) hasserts hrows hheads
    refine ⟨out', hout', hrows', hcols'.trans hcols.symm, fun r hr col hcol ↦ ?_⟩
    rw [hentry r hr col hcol, hentry' r hr col (hcols ▸ hcol)]
    by_cases hlen : (col : ℤ) < c.ends.data r
    · rw [if_pos hlen, ← PagedMqa.logit_withPages hasserts (hpages r hr) hlen]
      exact if_pos hlen
    · rw [if_neg hlen]
      exact if_neg hlen

/-- A call on two pages, named in reverse order, with a row that ends in the second one. -/
def reversedPages : PagedMqa ℤ where
  q := Strided.ofRowMajor (fun _ ↦ 1) [1, 1, 3, 128]
  cache := Strided.ofRowMajor (fun x ↦ UInt8.ofNat (x.toNat % 251)) [2, 64, 1, 132]
  weights := Strided.ofRowMajor (fun x ↦ x + 1) [1, 3]
  ends := Strided.ofRowMajor (fun _ ↦ 65) [1]
  pageTable := Strided.ofRowMajor (fun x ↦ 1 - x) [1, 2]
  maxSeqLen := 70

/-- Bytes as the integers they are. -/
def byteFormats : Formats ℤ where
  e4m3 b := b.toNat
  float32 w := (w 0).toNat

/-- Programs run in the order of the grid. -/
def inOrder : Tile.Device (WithBot ℤ) where
  fresh _ := 0
  order grid := grid
  mem_order := Iff.rfl

/-- A cache whose pages stand in reverse order. -/
theorem fp8PagedMqaLogits_refines_reversedPages : ∃ out ragged,
    fp8PagedMqaLogits byteFormats inOrder reversedPages = some out ∧
      fp8MqaLogits byteFormats inOrder (reversedPages.ragged 0
        (fun j d ↦ reversedPages.cache.data
          (reversedPages.page 0 (j / 64) * (64 * 132) + (j % 64 : ℕ) * 128 + d))
        (fun j ↦ byteFormats.float32 fun b ↦ reversedPages.cache.data
          (reversedPages.page 0 (j / 64) * (64 * 132) + 64 * 128 + (j % 64 : ℕ) * 4 + b))) =
          some ragged ∧
      ∀ col < 70, out.entry 0 col = ragged.entry 0 col := by
  have hasserts : reversedPages.Asserts := by decide
  have hpacked : IsPacked reversedPages.cache.data
      (fun page slot d ↦ reversedPages.cache.data (page * (64 * 132) + slot * 128 + d))
      (fun page slot b ↦
        reversedPages.cache.data (page * (64 * 132) + 64 * 128 + slot * 4 + b)) :=
    ⟨fun _ _ _ _ _ ↦ rfl, fun _ _ _ _ ↦ rfl⟩
  obtain ⟨out, hout, hrows, hcols, -⟩ :=
    exists_fp8PagedMqaLogits_eq_some byteFormats inOrder hasserts rfl rfl
  obtain ⟨hrefines, -⟩ := fp8PagedMqaLogits_refines hout hpacked
  obtain ⟨ragged, hragged, -, -, heq⟩ :=
    hrefines 0 (hrows ▸ zero_lt_one) _ _ (fun j _ ↦ ⟨fun d _ ↦ rfl, rfl⟩) inOrder
  exact ⟨out, ragged, hout, hragged, fun col hcol ↦ heq col (hcols ▸ hcol)⟩

end Sglang
