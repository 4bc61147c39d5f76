import Mathlib.Data.List.GetD
import Mathlib.Data.List.Lex
import Mathlib.Order.BoundedOrder.Basic
import Mathlib.Order.PiLex

/-!
# Lists of different lengths, compared

Two ways to compare lists entry by entry differ only in what a missing entry counts for. The
lexicographic order puts a list before its proper extensions; reading missing entries as the least
element makes a list equal to its extensions by least elements.

The first refines the second by the length (`lt_iff`): where the padded lists differ both orders say
the same, and where they are equal one list extends the other by least elements, so the shorter one
is before.
-/

namespace PaddedLex

variable {α : Type*} [LinearOrder α] [OrderBot α] {a b : List α}

/-- The entries of a list, with the least element for the missing ones. -/
def padded (l : List α) (i : ℕ) : α := l.getD i ⊥

/-- Within the list, the sequence is the list. -/
theorem padded_of_lt {l : List α} {i : ℕ} (h : i < l.length) : padded l i = l[i] :=
  List.getD_eq_getElem l ⊥ h

/-- Behind the list, the sequence is the least element. -/
theorem padded_of_le {l : List α} {i : ℕ} (h : l.length ≤ i) : padded l i = ⊥ :=
  List.getD_eq_default l ⊥ h

/-- Lists that agree up to the length of the shorter one are equal there. -/
theorem eq_take_of_padded (hlen : a.length ≤ b.length)
    (h : ∀ j < a.length, padded a j = padded b j) : a = b.take a.length := by
  refine List.ext_getElem (by simpa using hlen) fun j hj hj' ↦ ?_
  have hjb : j < b.length := hj.trans_le hlen
  rw [List.getElem_take, ← padded_of_lt hj, ← padded_of_lt hjb, h j hj]

/-- The order of the padded sequences is that of the lists, as far as it decides. -/
theorem lt_of_padded_lt (h : toLex (padded a) < toLex (padded b)) : a < b := by
  obtain ⟨i, hbefore, hi⟩ := h
  have hib : i < b.length := by
    by_contra hle
    exact not_lt_bot (hi.trans_eq (padded_of_le (not_lt.1 hle)))
  rw [List.lt_iff_exists]
  rcases lt_or_ge i a.length with hia | hai
  · refine Or.inr ⟨i, hia, hib, fun j hj ↦ ?_, ?_⟩
    · have hja : j < a.length := hj.trans hia
      have hjb : j < b.length := hj.trans hib
      rw [← padded_of_lt hja, ← padded_of_lt hjb]
      exact hbefore j hj
    · rw [← padded_of_lt hia, ← padded_of_lt hib]
      exact hi
  · -- the first difference is past the end of `a`
    have hlen : a.length < b.length := hai.trans_lt hib
    exact Or.inl ⟨eq_take_of_padded hlen.le fun j hj ↦ hbefore j (hj.trans_le hai), hlen⟩

/-- Lists that only differ in least elements at their ends are ordered by length. -/
theorem lt_of_padded_eq (h : padded a = padded b) (hlen : a.length < b.length) : a < b :=
  List.lt_iff_exists.2 (Or.inl ⟨eq_take_of_padded hlen.le fun j _ ↦ congrFun h j, hlen⟩)

/-- Lists of one length are told apart by their padded sequences. -/
theorem eq_of_padded_eq (h : padded a = padded b) (hlen : a.length = b.length) : a = b := by
  rw [eq_take_of_padded hlen.le fun j _ ↦ congrFun h j, hlen, List.take_length]

/-- **The lexicographic order** compares the padded entries first and the lengths last. -/
theorem lt_iff : a < b ↔ toLex (padded a) < toLex (padded b) ∨
    padded a = padded b ∧ a.length < b.length := by
  constructor
  · intro hab
    rcases lt_trichotomy (toLex (padded a)) (toLex (padded b)) with hlt | heq | hgt
    · exact Or.inl hlt
    · refine Or.inr ⟨heq, lt_of_not_ge fun hle ↦ ?_⟩
      rcases hle.lt_or_eq with hlt | hlen
      · exact hab.asymm (lt_of_padded_eq heq.symm hlt)
      · exact hab.ne (eq_of_padded_eq heq hlen.symm)
    · exact absurd (lt_of_padded_lt hgt) hab.asymm
  · rintro (hlt | ⟨heq, hlen⟩)
    · exact lt_of_padded_lt hlt
    · exact lt_of_padded_eq heq hlen

end PaddedLex
