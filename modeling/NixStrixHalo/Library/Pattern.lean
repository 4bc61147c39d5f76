import NixStrixHalo.Library.PythonText

/-!
# Matches of a pattern in a text

The parts that simple regular expressions are put together from, and the search that finds a
pattern at the leftmost place and goes on behind each match. A pattern is a function from a
position, given by the symbol before it and the text behind it, to what it reads there and how many
symbols it takes.

## The search

`pieces` is the text as the matches and the symbols between them, from which both the matches and
the text with replacements are taken. It is a recursion on the text that counts the symbols of a
match it is in, so that no measure is needed for it to end.

## Rules

A text is searched from left to right: a match is one piece (`pieces_of_match`), and symbols at
which the pattern does not match are kept (`pieces_of_no_match`). A position knows the symbol before
it, which is what an anchor or a word boundary looks at.
-/

namespace Pattern

variable {σ α : Type*}

/-! ### Parts -/

section

variable [DecidableEq σ]

/-- The text after a given beginning. -/
def literal (lit text : List σ) : Option (List σ) :=
  if lit <+: text then some (text.drop lit.length) else none

/-- A beginning is taken off the text that it begins. -/
@[simp] theorem literal_append (lit rest : List σ) : literal lit (lit ++ rest) = some rest := by
  rw [literal, if_pos (List.prefix_append lit rest), List.drop_left]

theorem literal_singleton (c : σ) (rest : List σ) : literal [c] (c :: rest) = some rest :=
  literal_append [c] rest

/-- A beginning that is taken off was there. -/
theorem eq_of_literal {lit text rest : List σ} (h : literal lit text = some rest) :
    text = lit ++ rest := by
  rw [literal] at h
  split at h
  next hprefix =>
    obtain ⟨t, rfl⟩ := hprefix
    rw [List.drop_left] at h
    rw [Option.some.inj h]
  · cases h

end

/-- `[p]+`: the longest run, which is not empty. -/
def many1 (p : σ → Bool) (text : List σ) : Option (List σ × List σ) :=
  if (text.span p).1 = [] then none else some (text.span p)

/-- A run ends where another symbol follows. -/
theorem many1_append {p : σ → Bool} {s rest : List σ} (hne : s ≠ []) (hs : ∀ a ∈ s, p a)
    (hrest : rest.head?.any p = false) : many1 p (s ++ rest) = some (s, rest) := by
  rw [many1, PythonText.span_append hs hrest, if_neg hne]

/-- There is no run where the first symbol is none of its own. -/
theorem many1_eq_none {p : σ → Bool} {text : List σ} (h : text.head?.any p = false) :
    many1 p text = none := by
  have hspan : (([] : List σ) ++ text).span p = ([], text) :=
    PythonText.span_append (fun _ ha ↦ absurd ha List.not_mem_nil) h
  rw [List.nil_append] at hspan
  rw [many1, hspan, if_pos rfl]

/-- What is read as a run is one. -/
theorem of_many1 {p : σ → Bool} {text s rest : List σ} (h : many1 p text = some (s, rest)) :
    text = s ++ rest ∧ s ≠ [] ∧ ∀ a ∈ s, p a := by
  rw [many1] at h
  split at h
  · cases h
  next hne =>
    have hspan := Option.some.inj h
    obtain ⟨heq, hs, -⟩ := PythonText.eq_append_of_span hspan
    rw [hspan] at hne
    exact ⟨heq, hne, hs⟩

/-! ### Search -/

/-- The text as the matches of a pattern and the symbols between them. The first `skip` symbols
belong to a match. -/
def pieces (m : Option σ → List σ → Option (α × ℕ)) : ℕ → Option σ → List σ → List (α ⊕ σ)
  | _, _, [] => []
  | skip + 1, _, c :: cs => pieces m skip (some c) cs
  | 0, before, c :: cs =>
    match m before (c :: cs) with
    | some (a, n) => .inl a :: pieces m (n - 1) (some c) cs
    | none => .inr c :: pieces m 0 (some c) cs

/-- The matches. -/
def found (m : Option σ → List σ → Option (α × ℕ)) (text : List σ) : List α :=
  (pieces m 0 none text).filterMap Sum.getLeft?

/-- The text with each match replaced. -/
def replace (m : Option σ → List σ → Option (α × ℕ)) (f : α → List σ) (text : List σ) : List σ :=
  (pieces m 0 none text).flatMap (Sum.elim f ([·]))

/-- Symbols that are kept are no matches. -/
theorem filterMap_getLeft?_map_inr (s : List σ) :
    (s.map (Sum.inr : σ → α ⊕ σ)).filterMap Sum.getLeft? = [] := by
  rw [List.filterMap_map]
  exact List.filterMap_eq_nil_iff.2 fun _ _ ↦ rfl

variable {m : Option σ → List σ → Option (α × ℕ)} {before : Option σ} {s rest : List σ}

/-- The symbol before what follows a text. -/
theorem getLast?_cons_or (c : σ) (s : List σ) (before : Option σ) :
    (c :: s).getLast?.or before = s.getLast?.or (some c) := by
  rw [List.getLast?_cons, Option.some_or, Option.or_some]

/-- The symbols of a match are skipped. -/
theorem pieces_skip (m : Option σ → List σ → Option (α × ℕ)) (before : Option σ)
    (s rest : List σ) :
    pieces m s.length before (s ++ rest) = pieces m 0 (s.getLast?.or before) rest := by
  induction s generalizing before with
  | nil => rfl
  | cons c s ih => rw [List.length_cons, List.cons_append, pieces, ih, getLast?_cons_or]

/-- **A match** is one piece, and the search goes on behind it. -/
theorem pieces_of_match {a : α} (h : m before (s ++ rest) = some (a, s.length)) (hs : s ≠ []) :
    pieces m 0 before (s ++ rest) = .inl a :: pieces m 0 s.getLast? rest := by
  obtain ⟨c, s, rfl⟩ := List.exists_cons_of_ne_nil hs
  rw [List.cons_append] at h ⊢
  rw [pieces, h]
  show Sum.inl a :: pieces m s.length (some c) (s ++ rest) = _
  rw [pieces_skip, ← getLast?_cons_or c s none, Option.or_none]

/-- Where the pattern does not match, the symbols are kept. -/
theorem pieces_of_no_match
    (h : ∀ s₁ c s₂, s = s₁ ++ c :: s₂ → m (s₁.getLast?.or before) (c :: (s₂ ++ rest)) = none) :
    pieces m 0 before (s ++ rest) = s.map .inr ++ pieces m 0 (s.getLast?.or before) rest := by
  induction s generalizing before with
  | nil => rfl
  | cons c s ih =>
    have hc : m before (c :: (s ++ rest)) = none := h [] c s rfl
    have htail := ih fun s₁ d s₂ heq ↦ by
      rw [← getLast?_cons_or]
      exact h (c :: s₁) d s₂ (by rw [heq, List.cons_append])
    rw [List.cons_append, pieces, hc, List.map_cons, List.cons_append, getLast?_cons_or]
    exact congrArg (Sum.inr c :: ·) htail

end Pattern
