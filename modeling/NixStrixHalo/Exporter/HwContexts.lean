import Mathlib.Algebra.BigOperators.Group.List.Basic
import Mathlib.Data.Nat.Digits.Defs
import NixStrixHalo.Exporter.Snapshot
import NixStrixHalo.Library.Strided

/-!
# The hardware contexts of the NPU exporter

`emit_hw_contexts` walks over the entries that the `GET_ARRAY` ioctl has written into an array of
64. The number of entries that comes back is clamped to the array, but the stride is not, so the
walk can leave the array or read overlapping entries.

## What is promised

Every entry is read within the array, different iterations read different bytes, and the published
sums are the exact totals (`GetArray.Sound`). It is so if and only if the last entry ends within the
array, two entries do not overlap and the totals fit their counters (`hwContexts_iff`). The first
two are about strides and nothing else (`Strided`), and the third about sums modulo `2 ^ 64`, which
are exact if and only if they do not wrap (`foldl_add_eq_iff`).

## What is outside

The layout of an entry is in a header of the kernel: `EntryLayout` gives its size and reads its
fields from its bytes. What lies behind the array is memory that nothing is known about, so an entry
that leaves the array is modelled as reading it there.
-/

namespace Exporter

/-! ### The ioctl -/

/-- What is used of a `struct amdxdna_drm_hwctx_entry`. -/
structure HwctxEntry where
  numCol : UInt32
  commandSubmissions : UInt64
  commandCompletions : UInt64
  errors : UInt64

/-- The layout of a `struct amdxdna_drm_hwctx_entry`, which is in a header of the kernel. -/
structure EntryLayout where
  /-- `sizeof entries[0]`. -/
  size : ℕ
  size_pos : 0 < size
  size_lt : size < 2 ^ 32
  read : Bytes → HwctxEntry

/-- What the ioctl writes back into its `struct amdxdna_drm_get_array`. -/
structure GetArray where
  elementSize : UInt32
  numElement : UInt32

/-! ### The walk -/

section

variable (layout : EntryLayout) (arr : GetArray)

/-- `stride`. -/
def GetArray.stride : ℕ := if arr.elementSize ≠ 0 then arr.elementSize.toNat else layout.size

/-- `count`. -/
def GetArray.count : ℕ := if 64 < arr.numElement.toNat then 64 else arr.numElement.toNat

/-- What is published. -/
structure HwContexts where
  active : UInt32
  columnsInUse : UInt32
  submissions : UInt64
  completions : UInt64
  errors : UInt64

/-- The counters before the loop. -/
def HwContexts.zero : HwContexts where
  active := 0
  columnsInUse := 0
  submissions := 0
  completions := 0
  errors := 0

/-- What an entry adds. -/
def HwContexts.add (t : HwContexts) (e : HwctxEntry) : HwContexts where
  active := t.active + 1
  columnsInUse := t.columnsInUse + e.numCol
  submissions := t.submissions + e.commandSubmissions
  completions := t.completions + e.commandCompletions
  errors := t.errors + e.errors

/-- The entry that an iteration reads, in the memory from the start of the array on. -/
def GetArray.entry (memory : ℕ → UInt8) (i : ℕ) : HwctxEntry :=
  layout.read ((List.range layout.size).map fun j ↦ memory (i * arr.stride layout + j))

/-- The entries that the loop reads. -/
def GetArray.entries (memory : ℕ → UInt8) : List HwctxEntry :=
  (List.range arr.count).map (arr.entry layout memory)

/-- The loop. -/
def GetArray.totals (memory : ℕ → UInt8) : HwContexts :=
  (arr.entries layout memory).foldl HwContexts.add .zero

end

/-- A metric with one value. -/
def metric (name help type : String) (value : ℕ) : List String :=
  ["# HELP " ++ name ++ " " ++ help, "# TYPE " ++ name ++ " " ++ type,
    name ++ " " ++ String.ofList (Nat.toDigits 10 value)]

/-- The lines that are printed. -/
def HwContexts.lines (t : HwContexts) : List String :=
  metric "amd_npu_hw_contexts" "Active NPU hardware contexts." "gauge" t.active.toNat ++
  metric "amd_npu_columns_in_use" "AIE columns bound to active contexts." "gauge"
    t.columnsInUse.toNat ++
  metric "amd_npu_command_submissions_total" "Commands submitted across contexts." "counter"
    t.submissions.toNat ++
  metric "amd_npu_command_completions_total" "Commands completed across contexts." "counter"
    t.completions.toNat ++
  metric "amd_npu_context_errors_total" "Context errors across contexts." "counter" t.errors.toNat

/-- `emit_hw_contexts`, where the ioctl succeeds with what it writes back. -/
def emitHwContexts (layout : EntryLayout) (ioctl : Option GetArray) (memory : ℕ → UInt8) :
    List String :=
  match ioctl with
  | none => []
  | some arr => (arr.totals layout memory).lines

/-! ### The totals -/

/-- The sum of a field over the entries. -/
def total (field : HwctxEntry → ℕ) (entries : List HwctxEntry) : ℕ := (entries.map field).sum

/-- The counters hold the exact totals of the entries. -/
structure HwContexts.Exact (t : HwContexts) (entries : List HwctxEntry) : Prop where
  active : t.active.toNat = entries.length
  columnsInUse : t.columnsInUse.toNat = total (fun e ↦ e.numCol.toNat) entries
  submissions : t.submissions.toNat = total (fun e ↦ e.commandSubmissions.toNat) entries
  completions : t.completions.toNat = total (fun e ↦ e.commandCompletions.toNat) entries
  errors : t.errors.toNat = total (fun e ↦ e.errors.toNat) entries

/-- The totals of the entries fit their counters. -/
structure TotalsFit (entries : List HwctxEntry) : Prop where
  columnsInUse : total (fun e ↦ e.numCol.toNat) entries < 2 ^ 32
  submissions : total (fun e ↦ e.commandSubmissions.toNat) entries < 2 ^ 64
  completions : total (fun e ↦ e.commandCompletions.toNat) entries < 2 ^ 64
  errors : total (fun e ↦ e.errors.toNat) entries < 2 ^ 64

/-- A counter that every entry is added to holds the total modulo its range. -/
theorem foldl_add_mod {counter : HwContexts → ℕ} {field : HwctxEntry → ℕ} {m : ℕ}
    (hadd : ∀ t e, counter (t.add e) = (counter t + field e) % m) (t : HwContexts)
    (entries : List HwctxEntry) :
    counter (entries.foldl HwContexts.add t) % m = (counter t + total field entries) % m := by
  induction entries generalizing t with
  | nil => simp [total]
  | cons e entries ih =>
    rw [List.foldl_cons, ih, hadd, Nat.mod_add_mod]
    simp only [total, List.map_cons, List.sum_cons, add_assoc]

/-- Such a counter, started at zero, is exact where the total is below its range. -/
theorem foldl_add_eq_iff (counter : HwContexts → ℕ) (field : HwctxEntry → ℕ) {m : ℕ}
    (hadd : ∀ t e, counter (t.add e) = (counter t + field e) % m) (hlt : ∀ t, counter t < m)
    (hzero : counter .zero = 0) (entries : List HwctxEntry) :
    counter (entries.foldl HwContexts.add .zero) = total field entries ↔
      total field entries < m := by
  have hfold := foldl_add_mod hadd .zero entries
  rw [hzero, Nat.zero_add, Nat.mod_eq_of_lt (hlt _)] at hfold
  constructor
  · intro h
    exact h ▸ hlt _
  · intro h
    rw [hfold, Nat.mod_eq_of_lt h]

section

variable (layout : EntryLayout) (arr : GetArray) (memory : ℕ → UInt8)

theorem GetArray.count_le : arr.count ≤ 64 := by
  rw [GetArray.count]
  split <;> omega

theorem length_entries : (arr.entries layout memory).length = arr.count := by
  rw [GetArray.entries, List.length_map, List.length_range]

/-- The number of entries always fits its counter. -/
theorem active_totals : (arr.totals layout memory).active.toNat = arr.count := by
  have hones : total (fun _ ↦ 1) (arr.entries layout memory) = arr.count := by
    simp [total, length_entries]
  have hiff := foldl_add_eq_iff (fun t ↦ t.active.toNat) (fun _ ↦ 1)
    (fun t _ ↦ UInt32.toNat_add t.active 1) (fun t ↦ UInt32.toNat_lt _) UInt32.toNat_zero
    (arr.entries layout memory)
  rw [hones] at hiff
  exact hiff.2 (arr.count_le.trans_lt (by norm_num))

/-- **The published sums are exact** where the totals fit. -/
theorem exact_totals_iff :
    (arr.totals layout memory).Exact (arr.entries layout memory) ↔
      TotalsFit (arr.entries layout memory) := by
  have hactive := (active_totals layout arr memory).trans (length_entries layout arr memory).symm
  -- a sum of machine words is exact if and only if the sum of their values fits
  have hcolumns := foldl_add_eq_iff (fun t ↦ t.columnsInUse.toNat) (fun e ↦ e.numCol.toNat)
    (fun t e ↦ UInt32.toNat_add t.columnsInUse e.numCol) (fun t ↦ UInt32.toNat_lt _)
    UInt32.toNat_zero (arr.entries layout memory)
  have hsubmissions := foldl_add_eq_iff (fun t ↦ t.submissions.toNat)
    (fun e ↦ e.commandSubmissions.toNat)
    (fun t e ↦ UInt64.toNat_add t.submissions e.commandSubmissions) (fun t ↦ UInt64.toNat_lt _)
    UInt64.toNat_zero (arr.entries layout memory)
  have hcompletions := foldl_add_eq_iff (fun t ↦ t.completions.toNat)
    (fun e ↦ e.commandCompletions.toNat)
    (fun t e ↦ UInt64.toNat_add t.completions e.commandCompletions) (fun t ↦ UInt64.toNat_lt _)
    UInt64.toNat_zero (arr.entries layout memory)
  have herrors := foldl_add_eq_iff (fun t ↦ t.errors.toNat) (fun e ↦ e.errors.toNat)
    (fun t e ↦ UInt64.toNat_add t.errors e.errors) (fun t ↦ UInt64.toNat_lt _)
    UInt64.toNat_zero (arr.entries layout memory)
  constructor
  · intro h
    exact ⟨hcolumns.1 h.columnsInUse, hsubmissions.1 h.submissions,
      hcompletions.1 h.completions, herrors.1 h.errors⟩
  · intro h
    exact ⟨hactive, hcolumns.2 h.columnsInUse, hsubmissions.2 h.submissions,
      hcompletions.2 h.completions, herrors.2 h.errors⟩

end

/-! ### The walk stays in the array -/

/-- **What the walk promises**: every entry is within the array of 64, different iterations read
different bytes, and the published sums are the exact totals. -/
structure GetArray.Sound (layout : EntryLayout) (arr : GetArray) (memory : ℕ → UInt8) : Prop where
  within : ∀ i < arr.count,
    Strided.span layout.size (arr.stride layout) i ⊆ Set.Ico 0 (64 * layout.size)
  distinct : ∀ i < arr.count, ∀ j < arr.count, i ≠ j →
    Disjoint (Strided.span layout.size (arr.stride layout) i)
      (Strided.span layout.size (arr.stride layout) j)
  exact : (arr.totals layout memory).Exact (arr.entries layout memory)

/-- **The hardware contexts**: the walk keeps its promise if and only if the last entry ends within
the array, two entries do not overlap, and the totals of the entries fit their counters. -/
theorem hwContexts_iff (layout : EntryLayout) (arr : GetArray) (memory : ℕ → UInt8) :
    arr.Sound layout memory ↔
      (0 < arr.count → (arr.count - 1) * arr.stride layout + layout.size ≤ 64 * layout.size) ∧
      (1 < arr.count → layout.size ≤ arr.stride layout) ∧
      TotalsFit (arr.entries layout memory) := by
  constructor
  · rintro ⟨hwithin, hdistinct, hexact⟩
    exact ⟨(Strided.forall_span_subset_iff layout.size_pos).1 hwithin,
      Strided.pairwise_disjoint_span_iff.1 hdistinct, (exact_totals_iff layout arr memory).1 hexact⟩
  · rintro ⟨hlast, hstride, hfit⟩
    exact ⟨(Strided.forall_span_subset_iff layout.size_pos).2 hlast,
      Strided.pairwise_disjoint_span_iff.2 hstride, (exact_totals_iff layout arr memory).2 hfit⟩

/-- A little-endian number in the bytes of an entry. -/
def readLe (data : Bytes) (offset width : ℕ) : ℕ :=
  ((data.drop offset).take width).foldr (fun b n ↦ b.toNat + 256 * n) 0

/-- A layout of 144 bytes. -/
def wideLayout : EntryLayout where
  size := 144
  size_pos := by decide
  size_lt := by decide
  read data :=
    { numCol := UInt32.ofNat (readLe data 8 4)
      commandSubmissions := UInt64.ofNat (readLe data 24 8)
      commandCompletions := UInt64.ofNat (readLe data 32 8)
      errors := UInt64.ofNat (readLe data 56 8) }

/-- A driver whose entries are longer fills the array with every second of the places that the
exporter means: the entries from the middle on are behind the array. -/
theorem not_hwContexts :
    ¬ GetArray.Sound wideLayout { elementSize := 288, numElement := 64 } fun _ ↦ 0 := by
  intro h
  have hlast := (Strided.span_subset_iff wideLayout.size_pos).1 (h.within 63 (by decide))
  exact absurd hlast (by decide)

/-- Where the driver reports the size that it was asked for, or none, the walk stays in the array
and its entries are disjoint. -/
theorem within_distinct_of_stride {layout : EntryLayout} {arr : GetArray}
    (hstride : arr.elementSize = 0 ∨ arr.elementSize.toNat = layout.size) :
    (∀ i < arr.count,
      Strided.span layout.size (arr.stride layout) i ⊆ Set.Ico 0 (64 * layout.size)) ∧
    ∀ i < arr.count, ∀ j < arr.count, i ≠ j →
      Disjoint (Strided.span layout.size (arr.stride layout) i)
        (Strided.span layout.size (arr.stride layout) j) := by
  have heq : arr.stride layout = layout.size := by
    rw [GetArray.stride]
    rcases hstride with h | h <;> simp [h]
  rw [heq]
  refine ⟨(Strided.forall_span_subset_iff layout.size_pos).2 fun hcount ↦ ?_,
    Strided.pairwise_disjoint_span_iff.2 fun _ ↦ le_rfl⟩
  calc (arr.count - 1) * layout.size + layout.size
      = arr.count * layout.size := by
        rw [← Nat.succ_mul, Nat.succ_eq_add_one, Nat.sub_add_cancel hcount]
    _ ≤ 64 * layout.size := Nat.mul_le_mul_right _ arr.count_le

end Exporter
