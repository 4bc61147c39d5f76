import Mathlib.Data.List.Basic

/-!
# A block between two markers

A generated block of a hand-written file stands between two marker lines and is found by their
first occurrences. What stands around it is the same whichever block was written last
(`splits_block`), as long as the block does not contain the markers itself.

Finding the markers by their positions and splitting the text at them are the same
(`Splits.take_eq`, `Splits.drop_eq`, `exists_splits`), so a program may compute with positions and a
proof with lists.
-/

namespace MarkedBlock

variable {α : Type*} {b e : α} {lines before between after : List α}

/-- The lines before, between and after the first occurrences of two markers, which are in order. -/
structure Splits (b e : α) (lines before between after : List α) : Prop where
  eq : lines = before ++ b :: (between ++ e :: after)
  begin_not_mem : b ∉ before
  end_not_mem : e ∉ before ++ b :: between

/-- The lines before the block. -/
theorem Splits.take_eq (h : Splits b e lines before between after) :
    lines.take before.length = before :=
  h.eq ▸ List.take_left

/-- The lines behind the block. -/
theorem Splits.drop_eq (h : Splits b e lines before between after) :
    lines.drop (before.length + (between.length + 1) + 1) = after := by
  have hlines : lines = (before ++ b :: (between ++ [e])) ++ after := by simp [h.eq]
  have hlength : before.length + (between.length + 1) + 1 =
      (before ++ b :: (between ++ [e])).length := by simp [Nat.add_assoc]
  rw [hlines, hlength, List.drop_left]

/-- **A block that has the markers at its ends only** splits the lines around it as before. -/
theorem splits_block (h : Splits b e lines before between after) {body : List α}
    (hbody : e ∉ body) :
    Splits b e (before ++ (b :: (body ++ [e])) ++ after) before body after where
  eq := by simp
  begin_not_mem := h.begin_not_mem
  end_not_mem := by
    have hend := h.end_not_mem
    simp only [List.mem_append, List.mem_cons, not_or] at hend ⊢
    exact ⟨hend.1, hend.2.1, hbody⟩

section

variable [BEq α] [LawfulBEq α]

/-- The first occurrence is where the text before it ends. -/
theorem idxOf?_append_cons {a : α} {s : List α} (h : a ∉ s) (t : List α) :
    (s ++ a :: t).idxOf? a = some s.length := by
  induction s with
  | nil => simp [List.idxOf?_cons]
  | cons x s ih =>
    have hne : (x == a) = false := beq_eq_false_iff_ne.2 fun heq ↦ h (heq ▸ List.mem_cons_self)
    rw [List.cons_append, List.idxOf?_cons, hne, ih fun hmem ↦ h (List.mem_cons_of_mem x hmem)]
    rfl

/-- A position that is found splits the list at the first occurrence. -/
theorem exists_of_idxOf?_eq_some {a : α} {l : List α} {i : ℕ} (h : l.idxOf? a = some i) :
    ∃ s t, l = s ++ a :: t ∧ a ∉ s ∧ s.length = i := by
  have hmem : a ∈ l := List.isSome_idxOf?.1 (by rw [h]; rfl)
  obtain ⟨s, t, rfl, hs⟩ := List.eq_append_cons_of_mem hmem
  rw [idxOf?_append_cons hs] at h
  exact ⟨s, t, rfl, hs, Option.some.inj h⟩

/-- The first marker is found where the lines before it end. -/
theorem Splits.idxOf?_begin (h : Splits b e lines before between after) :
    lines.idxOf? b = some before.length :=
  h.eq ▸ idxOf?_append_cons h.begin_not_mem _

/-- The second marker is found behind the block. -/
theorem Splits.idxOf?_end (h : Splits b e lines before between after) :
    lines.idxOf? e = some (before.length + (between.length + 1)) := by
  have hlines : lines = (before ++ b :: between) ++ e :: after := by simp [h.eq]
  rw [hlines, idxOf?_append_cons h.end_not_mem, List.length_append, List.length_cons]

/-- Markers that are found in order split the lines. -/
theorem exists_splits {i j : ℕ} (hbegin : lines.idxOf? b = some i) (hend : lines.idxOf? e = some j)
    (hlt : i < j) : ∃ before between after, Splits b e lines before between after := by
  obtain ⟨before, rest, rfl, hb, rfl⟩ := exists_of_idxOf?_eq_some hbegin
  obtain ⟨s, after, heq, hs, rfl⟩ := exists_of_idxOf?_eq_some hend
  -- the second marker is found behind the first one
  obtain ⟨t, rfl⟩ : ∃ t, s = before ++ t := by
    obtain ⟨t, ht⟩ := List.prefix_of_prefix_length_le (heq ▸ List.prefix_append before _)
      (List.prefix_append s _) (Nat.le_of_lt hlt)
    exact ⟨t, ht.symm⟩
  rw [List.append_assoc, List.append_cancel_left_eq] at heq
  rcases t with _ | ⟨c, between⟩
  · simp at hlt
  · obtain ⟨rfl, rfl⟩ := List.cons.inj heq
    exact ⟨before, between, after, rfl, hb, hs⟩

end

end MarkedBlock
