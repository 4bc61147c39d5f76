import Mathlib.Data.List.Count
import Mathlib.Data.List.Sort
import Mathlib.Order.Basic

/-!
# Ranks in a list that is sorted by a key

Where a list is strictly sorted by a key, the position of an element is the number of elements with
a smaller key (`getElem?_eq_some_iff`), and the position of the first element with a property is the
number of elements whose key is below those of all elements with it (`findIdx?_eq_some_iff`).

Both numbers do not depend on the order of the list, so that positions in lists that are sorted by
different keys can be compared: each is a count over the same elements.
-/

namespace KeyRank

variable {α κ : Type*} [LinearOrder κ] {key : α → κ} {l : List α} {d : ℕ}

/-- The elements with a smaller key are those before. -/
theorem getElem?_eq_some_iff (h : l.Pairwise fun x y ↦ key x < key y) {x : α} :
    l[d]? = some x ↔ x ∈ l ∧ l.countP (fun y ↦ key y < key x) = d := by
  induction l generalizing d with
  | nil => simp
  | cons a l ih =>
    obtain ⟨ha, hl⟩ := List.pairwise_cons.1 h
    rw [List.countP_cons]
    cases d with
    | zero =>
      rw [List.getElem?_cons_zero, Option.some_inj]
      constructor
      · rintro rfl
        refine ⟨List.mem_cons_self, ?_⟩
        rw [if_neg (by simp), List.countP_eq_zero.2 fun y hy ↦ by simpa using (ha y hy).le]
      · rintro ⟨hx, hcount⟩
        rcases List.mem_cons.1 hx with rfl | hx
        · rfl
        · rw [if_pos (by simpa using ha x hx)] at hcount
          omega
    | succ d =>
      rw [List.getElem?_cons_succ, ih hl]
      constructor
      · rintro ⟨hx, rfl⟩
        exact ⟨List.mem_cons_of_mem a hx, by rw [if_pos (by simpa using ha x hx)]⟩
      · rintro ⟨hx, hcount⟩
        rcases List.mem_cons.1 hx with rfl | hx
        · rw [if_neg (by simp), List.countP_eq_zero.2 fun y hy ↦ by simpa using (ha y hy).le]
            at hcount
          omega
        · rw [if_pos (by simpa using ha x hx)] at hcount
          exact ⟨hx, by omega⟩

/-- The number of elements before the first one with the property. -/
theorem countP_of_findIdx? (h : l.Pairwise fun x y ↦ key x < key y) {p : α → Prop}
    [DecidablePred p] (hd : l.findIdx? (p ·) = some d) :
    l.countP (fun y ↦ ∀ x ∈ l, p x → key y < key x) = d := by
  obtain ⟨hlt, hp, hbefore⟩ := List.findIdx?_eq_some_iff_getElem.1 hd
  have hfirst : ∀ x ∈ l, p x → key l[d] ≤ key x := by
    intro x hx hpx
    obtain ⟨i, hi, rfl⟩ := List.getElem_of_mem hx
    rcases lt_trichotomy d i with hdi | rfl | hid
    · exact (List.pairwise_iff_getElem.1 h d i hlt hi hdi).le
    · exact le_rfl
    · exact absurd (decide_eq_true hpx) (hbefore i hid)
  have hcount := (getElem?_eq_some_iff h).1 (List.getElem?_eq_getElem hlt)
  rw [← hcount.2]
  refine List.countP_congr fun y _ ↦ ?_
  rw [decide_eq_true_iff, decide_eq_true_iff]
  constructor
  · intro hall
    exact hall l[d] (List.getElem_mem hlt) (of_decide_eq_true hp)
  · intro hy x hx hpx
    exact hy.trans_le (hfirst x hx hpx)

/-- The elements before the first one with the property are those whose key is below the keys of all
elements with it. -/
theorem findIdx?_eq_some_iff (h : l.Pairwise fun x y ↦ key x < key y) {p : α → Prop}
    [DecidablePred p] :
    l.findIdx? (p ·) = some d ↔
      (∃ x ∈ l, p x) ∧ l.countP (fun y ↦ ∀ x ∈ l, p x → key y < key x) = d := by
  constructor
  · intro hd
    obtain ⟨hlt, hp, -⟩ := List.findIdx?_eq_some_iff_getElem.1 hd
    exact ⟨⟨l[d], List.getElem_mem hlt, of_decide_eq_true hp⟩, countP_of_findIdx? h hd⟩
  · rintro ⟨⟨x, hx, hpx⟩, hcount⟩
    have hsome : (l.findIdx? (p ·)).isSome := by
      rw [List.findIdx?_isSome, List.any_eq_true]
      exact ⟨x, hx, decide_eq_true hpx⟩
    obtain ⟨i, hi⟩ := Option.isSome_iff_exists.1 hsome
    rw [hi, ← hcount, countP_of_findIdx? h hi]

/-- Sorting by an injective key sorts strictly. -/
theorem pairwise_insertionSort_lt (hl : l.Nodup) (hkey : Function.Injective key) :
    (l.insertionSort fun x y ↦ key x ≤ key y).Pairwise fun x y ↦ key x < key y := by
  have hle : (l.insertionSort fun x y ↦ key x ≤ key y).Pairwise fun x y ↦ key x ≤ key y :=
    List.pairwise_insertionSort _ _
  have hne := (List.perm_insertionSort (fun x y ↦ key x ≤ key y) l).nodup_iff.2 hl
  exact hle.imp₂ (fun _ _ hxy hne ↦ lt_of_le_of_ne hxy (hkey.ne hne)) hne

end KeyRank
