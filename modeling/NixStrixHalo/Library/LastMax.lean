import Mathlib.Data.List.Sort

/-!
# The last maximum of a list

Sorting a list by a key with a stable sort and taking the last entry picks, among the entries with
the greatest key, the one that comes last in the list. `lastMax` is that selection as programs write
it; `lastMax_eq_some_iff` says which entry it is, with no reference to sorting.

## Entries with a property

Whether the selected entry has a property can be asked one entry at a time: every entry without it
has to lose to a later or greater one that has it (`lastMax_iff_losesTo`).

## Other orders

An entry with the greatest key is selected when it comes last (`lastMax_concat`), so the selection
is the same for every order of the list exactly when there is only one such entry (`lastMax_perm` is
the half that needs it).
-/

namespace LastMax

variable {α κ : Type*} [LinearOrder κ] {key : α → κ} {l : List α} {a x : α}

/-- The last entry of the list sorted by key. -/
def lastMax (key : α → κ) (l : List α) : Option α :=
  (l.insertionSort fun a b ↦ key a ≤ key b).getLast?

/-- The last entry of a sorted list has the greatest key. -/
theorem le_getLast? (hl : l.Pairwise fun a b ↦ key a ≤ key b) (hx : l.getLast? = some x)
    (ha : a ∈ l) : key a ≤ key x := by
  obtain ⟨l', rfl⟩ := List.getLast?_eq_some_iff.1 hx
  rcases List.mem_append.1 ha with ha | ha
  · exact (List.pairwise_append.1 hl).2.2 a ha x (List.mem_singleton_self x)
  · rw [List.mem_singleton.1 ha]

/-- Inserting into a sorted list changes its last entry only if the new key exceeds all others. -/
theorem getLast?_orderedInsert (hl : l.Pairwise fun a b ↦ key a ≤ key b) :
    (l.orderedInsert (fun a b ↦ key a ≤ key b) a).getLast? =
      (l.getLast?.elim a fun x ↦ if key a ≤ key x then x else a) := by
  induction l with
  | nil => rfl
  | cons b l ih =>
    obtain ⟨hb, hl⟩ := List.pairwise_cons.1 hl
    rw [List.orderedInsert_cons]
    split
    next hle =>
      -- the last entry is `b` or beyond it, so its key is no less than that of `a`
      rw [List.getLast?_cons_cons, List.getLast?_cons, Option.elim_some]
      rcases hlast : l.getLast? with _ | x
      · exact congrArg some (if_pos hle).symm
      · exact congrArg some (if_pos (hle.trans (hb x (List.mem_of_getLast? hlast)))).symm
    next hgt =>
      rw [List.getLast?_cons, ih hl, List.getLast?_cons]
      rcases l.getLast? with _ | x
      · simp [hgt]
      · simp

/-- The selection, by recursion on the list. -/
theorem lastMax_cons (key : α → κ) (a : α) (l : List α) : lastMax key (a :: l) =
    ((lastMax key l).elim a fun x ↦ if key a ≤ key x then x else a) :=
  getLast?_orderedInsert (List.pairwise_insertionSort _ _)

/-- Only an empty list has no maximum. -/
@[simp] theorem lastMax_eq_none_iff : lastMax key l = none ↔ l = [] := by
  rw [lastMax, List.getLast?_eq_none_iff, ← List.length_eq_zero_iff, List.length_insertionSort,
    List.length_eq_zero_iff]

/-- Entry `m` of `l` is `x`, and it is the last of the entries with the greatest key. -/
structure IsLastMax (key : α → κ) (l : List α) (m : ℕ) (x : α) : Prop where
  getElem?_eq : l[m]? = some x
  lt_or_eq : ∀ i y, l[i]? = some y → key y < key x ∨ key y = key x ∧ i ≤ m

/-- There is at most one such entry. -/
theorem IsLastMax.unique {m m' : ℕ} {x' : α} (h : IsLastMax key l m x)
    (h' : IsLastMax key l m' x') : x = x' := by
  have hm : m' ≤ m ∧ m ≤ m' := by
    rcases h.lt_or_eq m' x' h'.getElem?_eq with hlt | ⟨heq, hle⟩
    · rcases h'.lt_or_eq m x h.getElem?_eq with hlt' | ⟨heq', -⟩
      · exact absurd hlt' hlt.asymm
      · exact absurd heq' hlt.ne'
    · rcases h'.lt_or_eq m x h.getElem?_eq with hlt' | ⟨-, hle'⟩
      · exact absurd heq hlt'.ne'
      · exact ⟨hle, hle'⟩
  obtain rfl : m = m' := Nat.le_antisymm hm.2 hm.1
  exact Option.some.inj (h.getElem?_eq.symm.trans h'.getElem?_eq)

/-- What the sort picks is the last maximum. -/
theorem exists_isLastMax (h : lastMax key l = some x) : ∃ m, IsLastMax key l m x := by
  induction l generalizing x with
  | nil => exact absurd h nofun
  | cons a l ih =>
    rw [lastMax_cons] at h
    rcases hlast : lastMax key l with _ | y
    · obtain rfl : l = [] := lastMax_eq_none_iff.1 hlast
      obtain rfl : a = x := by simpa [hlast] using h
      refine ⟨0, rfl, fun i y hy ↦ ?_⟩
      rcases i with _ | i
      · obtain rfl : a = y := by simpa using hy
        exact Or.inr ⟨rfl, le_rfl⟩
      · simp at hy
    · obtain ⟨m, hm⟩ := ih hlast
      rw [hlast, Option.elim_some] at h
      by_cases hle : key a ≤ key y
      · -- the head is no greater, so the entry found in the tail stays
        obtain rfl : y = x := by simpa [hle] using h
        refine ⟨m + 1, hm.getElem?_eq, fun i z hz ↦ ?_⟩
        rcases i with _ | i
        · obtain rfl : a = z := by simpa using hz
          exact hle.lt_or_eq.imp_right fun heq ↦ ⟨heq, Nat.zero_le _⟩
        · exact (hm.lt_or_eq i z hz).imp_right fun h ↦ ⟨h.1, Nat.succ_le_succ h.2⟩
      · -- the head exceeds everything in the tail
        obtain rfl : a = x := by simpa [hle] using h
        refine ⟨0, rfl, fun i z hz ↦ ?_⟩
        rcases i with _ | i
        · obtain rfl : a = z := by simpa using hz
          exact Or.inr ⟨rfl, le_rfl⟩
        · rcases hm.lt_or_eq i z hz with hlt | ⟨heq, -⟩
          · exact Or.inl (hlt.trans (not_le.1 hle))
          · exact Or.inl (heq ▸ not_le.1 hle)

/-- **The sort picks the last maximum.** -/
theorem lastMax_eq_some_iff : lastMax key l = some x ↔ ∃ m, IsLastMax key l m x := by
  refine ⟨exists_isLastMax, fun ⟨m, hm⟩ ↦ ?_⟩
  rcases hlast : lastMax key l with _ | y
  · rw [lastMax_eq_none_iff.1 hlast] at hm
    simpa using hm.getElem?_eq
  · obtain ⟨m', hm'⟩ := exists_isLastMax hlast
    rw [hm'.unique hm]

/-- The maximum is in the list. -/
theorem mem_of_lastMax (h : lastMax key l = some x) : x ∈ l := by
  obtain ⟨m, hm⟩ := exists_isLastMax h
  exact List.mem_of_getElem? hm.getElem?_eq

/-- Nothing in the list has a greater key. -/
theorem le_of_lastMax (h : lastMax key l = some x) {y : α} (hy : y ∈ l) : key y ≤ key x := by
  obtain ⟨m, hm⟩ := exists_isLastMax h
  obtain ⟨i, hi⟩ := List.mem_iff_getElem?.1 hy
  exact (hm.lt_or_eq i y hi).elim le_of_lt fun h ↦ h.1.le

/-- A list that is not empty has a maximum. -/
theorem exists_lastMax (key : α → κ) (h : l ≠ []) : ∃ x, lastMax key l = some x :=
  Option.ne_none_iff_exists'.1 fun hnone ↦ h (lastMax_eq_none_iff.1 hnone)

/-! ### When the selection has a property -/

/-- Entry `i` loses to a later or greater entry that satisfies `p`. -/
def LosesTo (key : α → κ) (l : List α) (p : α → Prop) (i : ℕ) (u : α) : Prop :=
  ∃ j t, l[j]? = some t ∧ p t ∧ (key u < key t ∨ key u = key t ∧ i < j)

/-- The selection satisfies `p` exactly when every entry that does not loses to one that does. -/
theorem lastMax_iff_losesTo {p : α → Prop} (h : lastMax key l = some x) :
    p x ↔ ∀ i u, l[i]? = some u → ¬ p u → LosesTo key l p i u := by
  obtain ⟨m, hm⟩ := exists_isLastMax h
  constructor
  · intro hp i u hu hnot
    refine ⟨m, x, hm.getElem?_eq, hp, (hm.lt_or_eq i u hu).imp_right fun ⟨heq, hle⟩ ↦ ⟨heq, ?_⟩⟩
    refine lt_of_le_of_ne hle fun him ↦ hnot ?_
    obtain rfl : u = x := Option.some.inj (hu.symm.trans (him ▸ hm.getElem?_eq))
    exact hp
  · intro hall
    by_contra hnot
    obtain ⟨j, t, ht, -, hlt | ⟨heq, hij⟩⟩ := hall m x hm.getElem?_eq hnot
    · exact absurd (le_of_lastMax h (List.mem_of_getElem? ht)) (not_le.2 hlt)
    · rcases hm.lt_or_eq j t ht with hlt | ⟨-, hle⟩
      · exact absurd heq hlt.ne'
      · exact absurd hij (Nat.not_lt.2 hle)

/-! ### Stability -/

/-- Filtering and inserting in order can be exchanged. -/
theorem filter_orderedInsert (p : α → Bool)
    (hl : l.Pairwise fun a b ↦ key a ≤ key b) :
    (l.orderedInsert (fun a b ↦ key a ≤ key b) a).filter p =
      if p a then (l.filter p).orderedInsert (fun a b ↦ key a ≤ key b) a else l.filter p := by
  induction l with
  | nil => by_cases ha : p a <;> simp [ha]
  | cons b l ih =>
    obtain ⟨hb, hl⟩ := List.pairwise_cons.1 hl
    rw [List.orderedInsert_cons]
    split
    next hle =>
      rw [List.filter_cons]
      refine ite_congr rfl (fun ha ↦ ?_) fun _ ↦ rfl
      -- the entry stays the first one: no key that is left is smaller
      have hmin : ∀ c ∈ (b :: l).filter p, key a ≤ key c := by
        intro c hc
        rcases List.mem_cons.1 (List.mem_filter.1 hc).1 with rfl | hc
        · exact hle
        · exact hle.trans (hb c hc)
      rcases hfilter : (b :: l).filter p with _ | ⟨c, l'⟩
      · rfl
      · rw [List.orderedInsert_cons, if_pos (hmin c (hfilter ▸ List.mem_cons_self))]
    next hgt =>
      rw [List.filter_cons, List.filter_cons, ih hl]
      by_cases hpb : p b
      · rw [if_pos hpb, if_pos hpb, List.orderedInsert_cons, if_neg hgt]
        by_cases ha : p a
        · rw [if_pos ha, if_pos ha]
        · rw [if_neg ha, if_neg ha]
      · rw [if_neg hpb, if_neg hpb]

/-- Leaving entries out does not change the order in which a stable sort puts the others. -/
theorem filter_insertionSort (key : α → κ) (p : α → Bool) (l : List α) :
    (l.insertionSort fun a b ↦ key a ≤ key b).filter p =
      (l.filter p).insertionSort fun a b ↦ key a ≤ key b := by
  induction l with
  | nil => rfl
  | cons a l ih =>
    rw [List.insertionSort_cons, filter_orderedInsert p (List.pairwise_insertionSort _ l), ih,
      List.filter_cons]
    by_cases ha : p a
    · rw [if_pos ha, if_pos ha, List.insertionSort_cons]
    · rw [if_neg ha, if_neg ha]

/-! ### Other orders of the list -/

/-- An entry with the greatest key. -/
def IsMax (key : α → κ) (l : List α) (x : α) : Prop := x ∈ l ∧ ∀ a ∈ l, key a ≤ key x

/-- A maximum depends on the members of the list only. -/
theorem IsMax.congr {l' : List α} (h : IsMax key l x) (hmem : ∀ a, a ∈ l ↔ a ∈ l') :
    IsMax key l' x :=
  ⟨(hmem x).1 h.1, fun a ha ↦ h.2 a ((hmem a).2 ha)⟩

/-- The last maximum is one. -/
theorem isMax_of_lastMax (h : lastMax key l = some x) : IsMax key l x :=
  ⟨mem_of_lastMax h, fun _ ha ↦ le_of_lastMax h ha⟩

/-- The last entry is picked if no key is greater. -/
theorem lastMax_concat (h : ∀ a ∈ l, key a ≤ key x) : lastMax key (l ++ [x]) = some x := by
  refine lastMax_eq_some_iff.2 ⟨l.length, by simp, fun i y hy ↦ ?_⟩
  have hi : i < (l ++ [x]).length := (List.getElem?_eq_some_iff.1 hy).1
  have hle : key y ≤ key x := by
    rcases List.mem_append.1 (List.mem_of_getElem? hy) with hmem | hmem
    · exact h y hmem
    · rw [List.mem_singleton.1 hmem]
  refine hle.lt_or_eq.imp_right fun heq ↦ ⟨heq, ?_⟩
  rw [List.length_append, List.length_singleton] at hi
  exact Nat.lt_succ_iff.1 hi

/-- If one entry only has the greatest key, the order of the list does not matter. -/
theorem lastMax_perm {l' : List α} (hperm : l.Perm l')
    (hunique : ∀ x y, IsMax key l x → IsMax key l y → x = y) :
    lastMax key l = lastMax key l' := by
  rcases hx : lastMax key l with _ | x
  · obtain rfl : l = [] := lastMax_eq_none_iff.1 hx
    rw [← hperm.nil_eq, hx]
  · obtain ⟨y, hy⟩ := exists_lastMax key (List.ne_nil_of_mem (hperm.mem_iff.1 (mem_of_lastMax hx)))
    have hmax : IsMax key l y := (isMax_of_lastMax hy).congr fun _ ↦ hperm.symm.mem_iff
    rw [hy, hunique x y (isMax_of_lastMax hx) hmax]

end LastMax
