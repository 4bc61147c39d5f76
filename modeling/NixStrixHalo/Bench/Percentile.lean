import Mathlib.Algebra.Order.Ring.Rat
import Mathlib.Data.List.GetD
import Mathlib.Data.Rat.Floor
import Mathlib.Tactic.FieldSimp
import Mathlib.Tactic.NormNum
import NixStrixHalo.Library.RankInterpolation

/-!
# Percentiles

`percentile` of the streaming client: the sorted list is read at a rank between its first and its
last index, with interpolation where the rank is no integer. Arithmetic is that of the rationals.

On a list that is not empty and for a percentage between 0 and 100 no index is out of range
(`percentile_eq`), and the laws follow from those of the interpolation: the value lies between the
least and the greatest element, it is monotone in the percentage and in the elements, and it does
not depend on the order of the list (`percentile_laws`).

**Negative indices count from the end** in Python, so an index that is out of range below is no
error there, and `getItem` has it so. That no rank is negative is part of `percentile_eq`.

`median` is `statistics.median`, with its two branches for lists of even and odd length; the
fiftieth percentile is the same number by another computation (`percentile_fifty`).
-/

namespace Bench

open RankInterpolation

/-- An index that is out of range. -/
inductive IndexError
  | outOfRange
  deriving DecidableEq

/-- `l[i]`. An index below zero counts from the end. -/
def getItem {α : Type} (l : List α) (i : ℤ) : Except IndexError α :=
  let i := if i < 0 then l.length + i else i
  match if i < 0 then none else l[i.toNat]? with
  | some a => .ok a
  | none => .error .outOfRange

/-- `rank`, for a list of length `n`. -/
def rank (n : ℕ) (pct : ℚ) : ℚ := pct / 100 * (n - 1)

/-- `percentile`. -/
def percentile (values : List ℚ) (pct : ℚ) : Except IndexError (Option ℚ) :=
  if values = [] then .ok none
  else
    let ordered := values.insertionSort (· ≤ ·)
    if ordered.length = 1 then do return some (← getItem ordered 0)
    else
      let rank := rank ordered.length pct
      let lo := ⌊rank⌋
      let hi := ⌈rank⌉
      if lo = hi then do return some (← getItem ordered lo)
      else do
        return some ((← getItem ordered lo) +
          ((← getItem ordered hi) - (← getItem ordered lo)) * (rank - lo))

/-- `statistics.median`, which raises an error on the empty list. -/
def median (values : List ℚ) : Option ℚ :=
  let ordered := values.insertionSort (· ≤ ·)
  let n := ordered.length
  if n = 0 then none
  else if n % 2 = 1 then ordered[n / 2]?
  else do return ((← ordered[n / 2 - 1]?) + (← ordered[n / 2]?)) / 2

/-! ### Reading the sorted list -/

/-- The sorted list as a sequence. -/
def sorted (values : List ℚ) (i : ℤ) : ℚ := (values.insertionSort (· ≤ ·)).getD i.toNat 0

variable {values values' : List ℚ} {i : ℤ} {p q : ℚ}

theorem toNat_lt_length (h : i ∈ Set.Icc (0 : ℤ) (values.length - 1)) :
    i.toNat < (values.insertionSort (· ≤ ·)).length := by
  obtain ⟨hnonneg, hle⟩ := h
  rw [List.length_insertionSort]
  omega

theorem getItem_of_mem (h : i ∈ Set.Icc (0 : ℤ) (values.length - 1)) :
    getItem (values.insertionSort (· ≤ ·)) i = .ok (sorted values i) := by
  have hneg : ¬ i < 0 := not_lt.2 h.1
  have hlt := toNat_lt_length h
  rw [getItem, sorted]
  simp only [if_neg hneg]
  rw [List.getElem?_eq_getElem hlt, List.getD_eq_getElem _ _ hlt]

/-- The sorted values do not fall. -/
theorem monotoneOn_sorted (values : List ℚ) :
    MonotoneOn (sorted values) (Set.Icc (0 : ℤ) (values.length - 1)) := by
  intro i hi j hj hij
  have hle : i.toNat ≤ j.toNat := Int.toNat_le_toNat hij
  rw [sorted, sorted, List.getD_eq_getElem _ _ (toNat_lt_length hi),
    List.getD_eq_getElem _ _ (toNat_lt_length hj)]
  exact List.sortedLE_insertionSort.getElem_le_getElem_of_le hle

theorem sorted_mem (h : i ∈ Set.Icc (0 : ℤ) (values.length - 1)) : sorted values i ∈ values := by
  rw [sorted, List.getD_eq_getElem _ _ (toNat_lt_length h), ← List.mem_insertionSort (· ≤ ·)]
  exact List.getElem_mem (toNat_lt_length h)

theorem sorted_le_sorted (h : List.Forall₂ (· ≤ ·) values values') (i : ℤ) :
    sorted values i ≤ sorted values' i := by
  rw [sorted, sorted]
  have hsorted := forall₂_insertionSort h
  generalize values.insertionSort (· ≤ ·) = s, values'.insertionSort (· ≤ ·) = t at hsorted
  generalize i.toNat = n
  induction hsorted generalizing n with
  | nil => exact le_rfl
  | cons hab _ ih =>
    cases n with
    | zero => exact hab
    | succ n => exact ih n

/-! ### Ranks -/

/-- The ranks on both sides are indices of the list. -/
theorem rank_mem (hp : 0 ≤ p) (hp' : p ≤ 100) (hne : values ≠ []) :
    ⌊rank values.length p⌋ ∈ Set.Icc (0 : ℤ) (values.length - 1) ∧
      ⌈rank values.length p⌉ ∈ Set.Icc (0 : ℤ) (values.length - 1) := by
  have hlength : (1 : ℚ) ≤ values.length := by exact_mod_cast List.length_pos_iff.2 hne
  have hlast : (0 : ℚ) ≤ values.length - 1 := sub_nonneg.2 hlength
  have hnonneg : 0 ≤ rank values.length p := mul_nonneg (by linarith) hlast
  have hle : rank values.length p ≤ ((values.length - 1 : ℤ) : ℚ) := by
    have hpct : p / 100 ≤ 1 := by linarith
    push_cast
    exact mul_le_of_le_one_left hlast hpct
  have hfloor : 0 ≤ ⌊rank values.length p⌋ := Int.floor_nonneg.2 hnonneg
  have hceil : ⌈rank values.length p⌉ ≤ values.length - 1 := Int.ceil_le.2 hle
  have hbetween := Int.floor_le_ceil (rank values.length p)
  exact ⟨⟨hfloor, hbetween.trans hceil⟩, ⟨hfloor.trans hbetween, hceil⟩⟩

/-- **What a percentile is**: the sorted list at the rank. -/
theorem percentile_eq (hne : values ≠ []) (hp : 0 ≤ p) (hp' : p ≤ 100) :
    percentile values p = .ok (some (interpolate (sorted values) (rank values.length p))) := by
  obtain ⟨hfloor, hceil⟩ := rank_mem hp hp' hne
  rw [percentile, if_neg hne]
  dsimp only
  rw [List.length_insertionSort]
  split
  next hone =>
    -- the only rank is zero
    have hrank : rank values.length p = ((0 : ℤ) : ℚ) := by rw [rank, hone]; simp
    have hzero : (0 : ℤ) ∈ Set.Icc (0 : ℤ) (values.length - 1) := by rw [hone]; simp
    rw [getItem_of_mem hzero, hrank, interpolate_of_floor_eq_ceil (by simp), Int.floor_intCast]
    rfl
  split
  next heq =>
    rw [getItem_of_mem hfloor, interpolate_of_floor_eq_ceil heq]
    rfl
  · rw [getItem_of_mem hfloor, getItem_of_mem hceil]
    rfl

/-! ### Laws -/

theorem sorted_perm (h : values.Perm values') : sorted values = sorted values' := by
  have heq : values.insertionSort (· ≤ ·) = values'.insertionSort (· ≤ ·) :=
    List.Perm.eq_of_pairwise' (List.pairwise_insertionSort _ _) (List.pairwise_insertionSort _ _)
      ((List.perm_insertionSort _ _).trans (h.trans (List.perm_insertionSort _ _).symm))
  funext i
  rw [sorted, sorted, heq]

theorem getElem?_eq_sorted {k : ℕ} (h : k < values.length) :
    (values.insertionSort (· ≤ ·))[k]? = some (sorted values k) := by
  have hlt : k < (values.insertionSort (· ≤ ·)).length := by rwa [List.length_insertionSort]
  rw [List.getElem?_eq_getElem hlt, sorted, Int.toNat_natCast, List.getD_eq_getElem _ _ hlt]

/-- The rank of the median is the middle index, or halfway between the two middle ones. -/
theorem percentile_fifty (hne : values ≠ []) : percentile values 50 = .ok (median values) := by
  have hpos : 0 < values.length := List.length_pos_iff.2 hne
  rw [percentile_eq hne (by norm_num) (by norm_num), median, List.length_insertionSort,
    if_neg hpos.ne']
  refine congrArg Except.ok ?_
  obtain ⟨k, hk | hk⟩ := Nat.even_or_odd' values.length
  · -- an even number of values: the rank lies half-way between the two in the middle
    obtain ⟨m, rfl⟩ : ∃ m, k = m + 1 := ⟨k - 1, by omega⟩
    have hrank : rank values.length 50 = (m : ℤ) + 1 / 2 := by
      rw [rank, hk]
      push_cast
      ring
    have hfloor : ⌊((m : ℤ) + 1 / 2 : ℚ)⌋ = m := by
      rw [Int.floor_intCast_add, show ⌊(1 / 2 : ℚ)⌋ = 0 by norm_num, add_zero]
    have hceil : ⌈((m : ℤ) + 1 / 2 : ℚ)⌉ = (m + 1 : ℕ) := by
      rw [Int.ceil_intCast_add, show ⌈(1 / 2 : ℚ)⌉ = 1 by norm_num]
      push_cast
      ring
    have heven : ¬ values.length % 2 = 1 := by omega
    have hlow : values.length / 2 - 1 = m := by omega
    have hhigh : values.length / 2 = m + 1 := by omega
    rw [if_neg heven, hlow, hhigh, getElem?_eq_sorted (by omega), getElem?_eq_sorted (by omega),
      hrank, interpolate, hfloor, hceil]
    refine congrArg some ?_
    push_cast
    ring
  · have hrank : rank values.length 50 = ((k : ℤ) : ℚ) := by
      rw [rank, hk]
      push_cast
      ring
    have hodd : values.length % 2 = 1 := by omega
    have hmiddle : values.length / 2 = k := by omega
    rw [if_pos hodd, hmiddle, getElem?_eq_sorted (by omega), hrank,
      interpolate_of_floor_eq_ceil (by simp), Int.floor_intCast]

/-- A higher percentage has a higher rank. -/
theorem rank_mono (hne : values ≠ []) (hpq : p ≤ q) :
    rank values.length p ≤ rank values.length q := by
  have hlength : (1 : ℚ) ≤ values.length := by exact_mod_cast List.length_pos_iff.2 hne
  exact mul_le_mul_of_nonneg_right (by linarith) (sub_nonneg.2 hlength)

/-- **The laws of percentiles.** No index is out of range; a percentile lies between the least and
the greatest element, grows with the percentage and with the elements, does not depend on the order
of the list, and is the median at 50. -/
theorem percentile_laws (hne : values ≠ []) (hp : 0 ≤ p) (hpq : p ≤ q) (hq : q ≤ 100) :
    (0 ≤ ⌊rank values.length p⌋ ∧ ⌈rank values.length p⌉ < values.length) ∧
      ∃ x y, percentile values p = .ok (some x) ∧ percentile values q = .ok (some y) ∧
        (∀ m, IsLeast {v | v ∈ values} m → m ≤ x) ∧
        (∀ m, IsGreatest {v | v ∈ values} m → x ≤ m) ∧ x ≤ y ∧
        (∀ values', values.Perm values' → percentile values' p = .ok (some x)) ∧
        percentile values 50 = .ok (median values) ∧
        ∀ values', List.Forall₂ (· ≤ ·) values values' →
          ∃ x', percentile values' p = .ok (some x') ∧ x ≤ x' := by
  obtain ⟨hfloor, hceil⟩ := rank_mem hp (hpq.trans hq) hne
  obtain ⟨hfloor', hceil'⟩ := rank_mem (hp.trans hpq) hq hne
  have hmono := monotoneOn_sorted values
  have hle := hmono hfloor hceil (Int.floor_le_ceil _)
  refine ⟨⟨hfloor.1, by have h := hceil.2; omega⟩, _, _, percentile_eq hne hp (hpq.trans hq),
    percentile_eq hne (hp.trans hpq) hq, fun m hm ↦ ?_, fun m hm ↦ ?_, ?_, fun values' hperm ↦ ?_,
    percentile_fifty hne, fun values' hle' ↦ ?_⟩
  · exact (hm.2 (sorted_mem hfloor)).trans (le_interpolate hle)
  · exact (interpolate_le hle).trans (hm.2 (sorted_mem hceil))
  · exact interpolate_mono hmono hfloor hceil hfloor' hceil' (rank_mono hne hpq)
  · have hne' : values' ≠ [] := fun h ↦ hne (h ▸ hperm).eq_nil
    rw [percentile_eq hne' hp (hpq.trans hq), sorted_perm hperm, hperm.length_eq]
  · have hne' : values' ≠ [] := by
      rintro rfl
      exact hne (List.forall₂_nil_right_iff.1 hle')
    refine ⟨_, percentile_eq hne' hp (hpq.trans hq), ?_⟩
    rw [← hle'.length_eq]
    exact interpolate_le_interpolate (sorted_le_sorted hle' _) (sorted_le_sorted hle' _)

theorem percentile_laws_latencies :
    ∃ x y, percentile [3, 1, 2, 10] 50 = .ok (some x) ∧ percentile [3, 1, 2, 10] 95 = .ok (some y) ∧
      x ≤ y := by
  have hne : ([3, 1, 2, 10] : List ℚ) ≠ [] := by decide
  obtain ⟨-, x, y, hx, hy, -, -, hxy, -⟩ :=
    percentile_laws hne (p := 50) (q := 95) (by norm_num) (by norm_num) (by norm_num)
  exact ⟨x, y, hx, hy, hxy⟩

end Bench
