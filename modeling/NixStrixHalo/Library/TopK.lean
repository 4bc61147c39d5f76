import Mathlib.Data.List.Sort
import Mathlib.Order.WithBot

/-!
# The best `k` of a row of scores

Indices are compared by their scores, equal scores by the lower index. `best` says which `k` are
selected, as a set in ascending order and with no reference to sorting; `argsort` is the stable
descending sort whose first `k` entries are that set, in another order (`take_argsort_perm`).

## Ranks

An index is among the best `k` if fewer than `k` others come before it (`rank`). As no two indices
tie, the ranks are distinct, and sorting by them is all that a stable sort does.

## Windows

Masking every index outside a window selects from the window, moved to its start (`best_masked`), if
the window has as many indices as are selected: otherwise indices from outside would have to fill
up.
-/

namespace TopK

variable {α : Type*} [LinearOrder α] {score : ℕ → α} {n k i j g : ℕ}

/-- `i` comes before `j`: its score is higher, or the same and it is the lower index. -/
def Beats (score : ℕ → α) (i j : ℕ) : Prop := score j < score i ∨ score i = score j ∧ i < j

instance : Decidable (Beats score i j) := by
  unfold Beats
  infer_instance

/-- Two indices do not beat each other. -/
theorem Beats.asymm (h : Beats score i j) : ¬ Beats score j i := by
  rcases h with hlt | ⟨heq, hlt⟩
  · rintro (hgt | ⟨heq, -⟩)
    · exact lt_asymm hlt hgt
    · exact hlt.ne heq
  · rintro (hgt | ⟨-, hgt⟩)
    · exact hgt.ne heq
    · omega

/-- An index beats what is beaten by one that it beats. -/
theorem Beats.trans {l : ℕ} (h : Beats score i j) (h' : Beats score j l) : Beats score i l := by
  rcases h with hlt | ⟨heq, hlt⟩
  · rcases h' with hlt' | ⟨heq', -⟩
    · exact Or.inl (hlt'.trans hlt)
    · exact Or.inl (heq' ▸ hlt)
  · rcases h' with hlt' | ⟨heq', hlt'⟩
    · exact Or.inl (heq ▸ hlt')
    · exact Or.inr ⟨heq.trans heq', hlt.trans hlt'⟩

/-! ### The selection -/

/-- How many of the first `n` indices come before `g`. -/
def rank (score : ℕ → α) (n g : ℕ) : ℕ := (List.range n).countP fun h ↦ Beats score h g

/-- The best `k` of the first `n` indices, in ascending order. -/
def best (score : ℕ → α) (n k : ℕ) : List ℕ := (List.range n).filter fun g ↦ rank score n g < k

/-- The best indices are listed in their own order. -/
theorem pairwise_best (score : ℕ → α) (n k : ℕ) : (best score n k).Pairwise (· < ·) :=
  List.pairwise_lt_range.filter _

/-! ### The sort -/

/-- The indices of the first `n` scores, highest score first; of equal scores the lower index
first. -/
def argsort (score : ℕ → α) (n : ℕ) : List ℕ :=
  (List.range n).insertionSort fun i j ↦ score j ≤ score i

/-- Sorting by score permutes the indices. -/
theorem argsort_perm (score : ℕ → α) (n : ℕ) : (argsort score n).Perm (List.range n) :=
  List.perm_insertionSort _ _

/-- Inserting an index that is lower than those sorted so far. -/
theorem pairwise_orderedInsert {l : List ℕ} (h : l.Pairwise (Beats score)) (hlt : ∀ j ∈ l, i < j) :
    (l.orderedInsert (fun i j ↦ score j ≤ score i) i).Pairwise (Beats score) := by
  induction l with
  | nil => exact List.pairwise_singleton _ _
  | cons b l ih =>
    obtain ⟨hb, hl⟩ := List.pairwise_cons.1 h
    have hib := hlt b List.mem_cons_self
    rw [List.orderedInsert_cons]
    split
    next hle =>
      -- it goes before `b`, as the lower index if the scores are equal
      have hbeats : Beats score i b := by
        rcases hle.lt_or_eq with hlt | heq
        · exact Or.inl hlt
        · exact Or.inr ⟨heq.symm, hib⟩
      refine List.pairwise_cons.2 ⟨fun j hj ↦ ?_, h⟩
      rcases List.mem_cons.1 hj with rfl | hj
      · exact hbeats
      · exact hbeats.trans (hb j hj)
    next hgt =>
      refine List.pairwise_cons.2
        ⟨fun j hj ↦ ?_, ih hl fun j hj ↦ hlt j (List.mem_cons_of_mem _ hj)⟩
      rcases (List.mem_orderedInsert _).1 hj with rfl | hj
      · exact Or.inl (not_le.1 hgt)
      · exact hb j hj

/-- **The sort is stable**: every index comes before all later ones. -/
theorem pairwise_argsort (score : ℕ → α) (n : ℕ) : (argsort score n).Pairwise (Beats score) := by
  have hsort : ∀ l : List ℕ, l.Pairwise (· < ·) →
      (l.insertionSort fun i j ↦ score j ≤ score i).Pairwise (Beats score) := by
    intro l hl
    induction l with
    | nil => exact List.Pairwise.nil
    | cons i l ih =>
      obtain ⟨hi, hl⟩ := List.pairwise_cons.1 hl
      exact pairwise_orderedInsert (ih hl) fun j hj ↦ hi j ((List.mem_insertionSort _).1 hj)
  exact hsort _ List.pairwise_lt_range

/-- In a list in strict order the first `k` are those that fewer than `k` precede. -/
theorem take_eq_filter {β : Type*} {R : β → β → Prop} [DecidableRel R]
    (hasymm : ∀ a b, R a b → ¬ R b a) {l : List β} (h : l.Pairwise R) (k : ℕ) :
    l.take k = l.filter fun a ↦ l.countP (fun b ↦ R b a) < k := by
  induction l generalizing k with
  | nil => simp
  | cons a l ih =>
    obtain ⟨ha, hl⟩ := List.pairwise_cons.1 h
    have hself : ¬ R a a := fun haa ↦ hasymm a a haa haa
    have hfirst : (a :: l).countP (fun b ↦ R b a) = 0 := by
      rw [List.countP_eq_zero]
      intro b hb
      rcases List.mem_cons.1 hb with rfl | hb
      · simpa using hself
      · simpa using hasymm a b (ha b hb)
    -- the head comes before everything else, which shifts the counts by one
    have hrest : ∀ b ∈ l, (a :: l).countP (fun c ↦ R c b) = l.countP (fun c ↦ R c b) + 1 := by
      intro b hb
      rw [List.countP_cons, if_pos (by simpa using ha b hb)]
    cases k with
    | zero => simp
    | succ k =>
      rw [List.take_succ_cons, List.filter_cons_of_pos (by simp [hfirst]), ih hl k]
      congr 1
      refine List.filter_congr fun b hb ↦ ?_
      rw [hrest b hb]
      simp

/-- **The first `k` of the sort are the best `k`**, in another order. -/
theorem take_argsort_perm (score : ℕ → α) (n k : ℕ) :
    ((argsort score n).take k).Perm (best score n k) := by
  have hrank : ∀ g, (argsort score n).countP (fun h ↦ Beats score h g) = rank score n g :=
    fun g ↦ (argsort_perm score n).countP_eq _
  rw [take_eq_filter (fun _ _ h ↦ h.asymm) (pairwise_argsort score n) k]
  simp only [hrank]
  exact (argsort_perm score n).filter _

/-- There are as many best indices as asked for, as far as there are indices. -/
theorem length_best (score : ℕ → α) (n k : ℕ) : (best score n k).length = min k n := by
  rw [← (take_argsort_perm score n k).length_eq, List.length_take,
    (argsort_perm score n).length_eq, List.length_range]

/-- Nothing is selected ahead of something that comes before it. -/
theorem beats_of_mem_best (hg : g ∈ best score n k) (hi : i < n) (hout : i ∉ best score n k) :
    Beats score g i := by
  have hpairwise := pairwise_argsort score n
  rw [← List.take_append_drop k (argsort score n)] at hpairwise
  have hmem : ∀ j, j ∈ (argsort score n).take k ↔ j ∈ best score n k :=
    fun j ↦ (take_argsort_perm score n k).mem_iff
  have hdrop : i ∈ (argsort score n).drop k := by
    have hall : i ∈ argsort score n := (argsort_perm score n).mem_iff.2 (List.mem_range.2 hi)
    rw [← List.take_append_drop k (argsort score n)] at hall
    exact (List.mem_append.1 hall).resolve_left fun htake ↦ hout ((hmem i).1 htake)
  exact (List.pairwise_append.1 hpairwise).2.2 g ((hmem g).2 hg) i hdrop

/-- When there are no more than `k`, all are selected. -/
theorem best_eq_range (score : ℕ → α) (hnk : n ≤ k) : best score n k = List.range n := by
  refine (List.filter_sublist).eq_of_length ?_
  rw [← best, length_best, List.length_range]
  omega

/-! ### Selecting from a window -/

/-- The scores of a window; every index outside it is worse than any in it. -/
def masked (score : ℕ → α) (start len : ℕ) (i : ℕ) : WithBot α :=
  if start ≤ i ∧ i < start + len then (score i : WithBot α) else ⊥

variable {start len : ℕ}

omit [LinearOrder α] in
/-- Within the window, the scores are kept. -/
theorem masked_add (score : ℕ → α) (start : ℕ) (hg : g < len) :
    masked score start len (start + g) = (score (start + g) : WithBot α) :=
  if_pos (by omega)

omit [LinearOrder α] in
/-- Outside the window, the score is the least. -/
theorem masked_of_not (score : ℕ → α) (hi : ¬ (start ≤ i ∧ i < start + len)) :
    masked score start len i = ⊥ :=
  if_neg hi

/-- Within the window, the masked scores compare like the scores. -/
theorem beats_masked_add (score : ℕ → α) (start : ℕ) (hi : i < len) (hg : g < len) :
    Beats (masked score start len) (start + i) (start + g) ↔
      Beats (fun g ↦ score (start + g)) i g := by
  rw [Beats, Beats, masked_add score start hi, masked_add score start hg, WithBot.coe_lt_coe,
    WithBot.coe_inj]
  simp

/-- An index outside the window comes before none in it, and after all. -/
theorem beats_masked_of_not (score : ℕ → α) (hi : ¬ (start ≤ i ∧ i < start + len)) (hg : g < len) :
    Beats (masked score start len) (start + g) i := by
  refine Or.inl ?_
  rw [masked_of_not score hi, masked_add score start hg]
  exact WithBot.bot_lt_coe _

/-- The first `n` indices, cut at the ends of the window. -/
theorem range_eq_window (h : start + len ≤ n) : List.range n = List.range start ++
    ((List.range len).map (start + ·) ++
      (List.range (n - (start + len))).map (start + len + ·)) := by
  obtain ⟨d, rfl⟩ := Nat.exists_eq_add_of_le h
  rw [List.range_add, List.range_add, List.append_assoc, Nat.add_sub_cancel_left]

/-- What is listed before and behind the window is not in it. -/
theorem not_window_of_mem (hi : i ∈ List.range start ∨
    i ∈ (List.range (n - (start + len))).map (start + len + ·)) :
    ¬ (start ≤ i ∧ i < start + len) := by
  rcases hi with hi | hi
  · have := List.mem_range.1 hi
    omega
  · obtain ⟨j, -, rfl⟩ := List.mem_map.1 hi
    omega

/-- In the window the rank is the rank among the window. -/
theorem rank_masked_add (score : ℕ → α) (h : start + len ≤ n) (hg : g < len) :
    rank (masked score start len) n (start + g) = rank (fun g ↦ score (start + g)) len g := by
  have hnone : ∀ l : List ℕ, (∀ i ∈ l, ¬ (start ≤ i ∧ i < start + len)) →
      l.countP (fun i ↦ Beats (masked score start len) i (start + g)) = 0 := by
    intro l hl
    refine List.countP_eq_zero.2 fun i hi ↦ ?_
    simpa using (beats_masked_of_not score (hl i hi) hg).asymm
  have hwindow : ((List.range len).map (start + ·)).countP
      (fun i ↦ Beats (masked score start len) i (start + g)) =
        rank (fun g ↦ score (start + g)) len g := by
    rw [List.countP_map, rank]
    refine List.countP_congr fun i hi ↦ ?_
    simpa using beats_masked_add score start (List.mem_range.1 hi) hg
  rw [rank, range_eq_window h, List.countP_append, List.countP_append, hwindow,
    hnone _ fun i hi ↦ not_window_of_mem (n := n) (Or.inl hi),
    hnone _ fun i hi ↦ not_window_of_mem (Or.inr hi), Nat.zero_add, Nat.add_zero]

/-- Outside the window everything in the window comes first. -/
theorem le_rank_masked (score : ℕ → α) (h : start + len ≤ n)
    (hi : ¬ (start ≤ i ∧ i < start + len)) : len ≤ rank (masked score start len) n i := by
  have hall : ((List.range len).map (start + ·)).countP
      (fun j ↦ Beats (masked score start len) j i) = len := by
    rw [List.countP_map, List.countP_eq_length.2, List.length_range]
    intro g hg
    simpa using beats_masked_of_not score hi (List.mem_range.1 hg)
  rw [rank, range_eq_window h, List.countP_append, List.countP_append, hall]
  omega

/-- **The best of a masked row are the best of the window**, as long as the window has enough. -/
theorem best_masked (score : ℕ → α) (h : start + len ≤ n) (hk : k ≤ len) :
    best (masked score start len) n k =
      (best (fun g ↦ score (start + g)) len k).map (start + ·) := by
  have hnone : ∀ l : List ℕ, (∀ i ∈ l, ¬ (start ≤ i ∧ i < start + len)) →
      l.filter (fun i ↦ rank (masked score start len) n i < k) = [] := by
    intro l hl
    refine List.filter_eq_nil_iff.2 fun i hi ↦ ?_
    have hle := le_rank_masked score h (hl i hi)
    simpa using hk.trans hle
  rw [best, range_eq_window h, List.filter_append, List.filter_append,
    hnone _ fun i hi ↦ not_window_of_mem (n := n) (Or.inl hi),
    hnone _ fun i hi ↦ not_window_of_mem (Or.inr hi), List.nil_append, List.append_nil,
    List.filter_map, best]
  congr 1
  refine List.filter_congr fun g hg ↦ ?_
  simp only [Function.comp_apply, rank_masked_add score h (List.mem_range.1 hg)]

end TopK
