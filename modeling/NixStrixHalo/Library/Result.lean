import Mathlib.Data.List.Forall2

/-!
# Computations that may fail

Inversion of runs in `Except`: a sequence succeeds when its parts do, and a traversal when each of
its elements does (`bind_eq_ok_iff`, `mapM_eq_ok_iff`).

A loop that succeeds keeps whatever each of its steps keeps (`foldlM_induction`), and the elements
of a traversal come from those of the list and the other way round (`mem_of_mapM_eq_ok`,
`exists_mem_of_mapM_eq_ok`). Which error a computation ends with is not looked at.
-/

namespace Result

variable {ε α β : Type*}

theorem ok_bind {ε α β : Type} (a : α) (f : α → Except ε β) : (Except.ok a >>= f) = f a := rfl

/-- A sequence succeeds if both of its parts do. -/
theorem bind_eq_ok_iff {ε α β : Type*} {x : Except ε α} {f : α → Except ε β} {b : β} :
    x.bind f = .ok b ↔ ∃ a, x = .ok a ∧ f a = .ok b := by
  rcases x with e | a
  · simp [Except.bind]
  · simp [Except.bind]

/-- A traversal succeeds element by element. -/
theorem mapM_eq_ok_iff {ε α β : Type} {f : α → Except ε β} {l : List α} {bs : List β} :
    l.mapM f = .ok bs ↔ List.Forall₂ (fun a b ↦ f a = .ok b) l bs := by
  induction l generalizing bs with
  | nil =>
    rw [List.mapM_nil, List.forall₂_nil_left_iff]
    exact ⟨fun h ↦ (Except.ok.inj h).symm, fun h ↦ h ▸ rfl⟩
  | cons a l ih =>
    rw [List.mapM_cons, List.forall₂_cons_left_iff]
    constructor
    · intro h
      obtain ⟨b, hb, h⟩ := bind_eq_ok_iff.1 h
      obtain ⟨bs', hbs', h⟩ := bind_eq_ok_iff.1 h
      exact ⟨b, bs', hb, ih.1 hbs', (Except.ok.inj h).symm⟩
    · rintro ⟨b, bs', hb, hbs', rfl⟩
      refine bind_eq_ok_iff.2 ⟨b, hb, bind_eq_ok_iff.2 ⟨bs', ih.2 hbs', rfl⟩⟩

/-- A traversal of elements that all succeed succeeds. -/
theorem exists_mapM_eq_ok {ε α β : Type} {f : α → Except ε β} {l : List α}
    (h : ∀ a ∈ l, ∃ b, f a = .ok b) : ∃ bs, l.mapM f = .ok bs := by
  simp only [mapM_eq_ok_iff]
  induction l with
  | nil => exact ⟨[], List.Forall₂.nil⟩
  | cons a l ih =>
    obtain ⟨b, hb⟩ := h a List.mem_cons_self
    obtain ⟨bs, hbs⟩ := ih fun a ha ↦ h a (List.mem_cons_of_mem _ ha)
    exact ⟨b :: bs, List.Forall₂.cons hb hbs⟩

/-- The results of a traversal are those of its elements. -/
theorem mem_of_mapM_eq_ok {ε α β : Type} {f : α → Except ε β} {l : List α} {bs : List β}
    (h : l.mapM f = .ok bs) {b : β} (hb : b ∈ bs) : ∃ a ∈ l, f a = .ok b := by
  have hall := mapM_eq_ok_iff.1 h
  clear h
  induction hall with
  | nil => exact absurd hb List.not_mem_nil
  | cons hhead _ ih =>
    rcases List.mem_cons.1 hb with rfl | hb
    · exact ⟨_, List.mem_cons_self, hhead⟩
    · obtain ⟨a, ha, hfa⟩ := ih hb
      exact ⟨a, List.mem_cons_of_mem _ ha, hfa⟩

/-- Each element has its result among the results. -/
theorem exists_mem_of_mapM_eq_ok {ε α β : Type} {f : α → Except ε β} {l : List α} {bs : List β}
    (h : l.mapM f = .ok bs) {a : α} (ha : a ∈ l) : ∃ b ∈ bs, f a = .ok b := by
  have hall := mapM_eq_ok_iff.1 h
  clear h
  induction hall with
  | nil => exact absurd ha List.not_mem_nil
  | cons hhead _ ih =>
    rcases List.mem_cons.1 ha with rfl | ha
    · exact ⟨_, List.mem_cons_self, hhead⟩
    · obtain ⟨b, hb, hfb⟩ := ih ha
      exact ⟨b, List.mem_cons_of_mem _ hb, hfb⟩

/-- What each step keeps, a loop that succeeds keeps. -/
theorem foldlM_induction {ε α β : Type} {f : β → α → Except ε β} {P : β → Prop} {l : List α}
    {b b' : β} (hstep : ∀ b a b', P b → f b a = .ok b' → P b') (hb : P b)
    (h : l.foldlM f b = .ok b') : P b' := by
  induction l generalizing b with
  | nil => exact Except.ok.inj h ▸ hb
  | cons a l ih =>
    rw [List.foldlM_cons] at h
    obtain ⟨b₁, hb₁, h⟩ := bind_eq_ok_iff.1 h
    exact ih (hstep b a b₁ hb hb₁) h

end Result
