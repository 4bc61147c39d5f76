import Mathlib.Data.List.Basic

/-!
# Dictionaries that keep the order of insertion

An association list in the order in which its keys were first inserted: assigning to a key that is
there replaces its value in place, and a new key goes to the end.

A lookup after an assignment is one of two cases (`get?_insert`), and where the keys are distinct
the dictionary is the set of its pairs (`NodupKeys.get?_eq_some_iff`). A dictionary that is filled
from a list of pairs has the last value of each key (`get?_ofPairs`), at the place of its first.
-/

namespace OrderedDict

variable {κ α : Type*} [DecidableEq κ] {k k' : κ} {a b : α} {d : List (κ × α)}

/-- `d[k] = a`. -/
def insert (k : κ) (a : α) : List (κ × α) → List (κ × α)
  | [] => [(k, a)]
  | p :: d => if p.1 = k then (k, a) :: d else p :: insert k a d

/-- `d.get(k)`. -/
def get? (d : List (κ × α)) (k : κ) : Option α := (d.find? fun p ↦ p.1 = k).map Prod.snd

theorem insert_nil (k : κ) (a : α) : insert k a [] = [(k, a)] := rfl

/-- An assignment replaces the value of its key where it stands, and is appended otherwise. -/
theorem insert_cons (k : κ) (a : α) (p : κ × α) (d : List (κ × α)) :
    insert k a (p :: d) = if p.1 = k then (k, a) :: d else p :: insert k a d := rfl

theorem get?_cons (p : κ × α) (d : List (κ × α)) (k : κ) :
    get? (p :: d) k = if p.1 = k then some p.2 else get? d k := by
  rw [get?, List.find?_cons]
  by_cases hp : p.1 = k
  · simp [hp]
  · simp [hp, get?]

/-- The first of two dictionaries is asked first. -/
theorem get?_append (d d' : List (κ × α)) (k : κ) :
    get? (d ++ d') k = (get? d k).or (get? d' k) := by
  rw [get?, get?, get?, List.find?_append, Option.map_or]

/-- An entry after an assignment is the assigned one or was there before. -/
theorem mem_insert {p : κ × α} (h : p ∈ insert k a d) : p = (k, a) ∨ p ∈ d := by
  induction d with
  | nil => exact Or.inl (List.mem_singleton.1 h)
  | cons q d ih =>
    rw [insert_cons] at h
    split at h
    · exact (List.mem_cons.1 h).imp_right (List.mem_cons_of_mem q)
    · rcases List.mem_cons.1 h with rfl | h
      · exact Or.inr List.mem_cons_self
      · exact (ih h).imp_right (List.mem_cons_of_mem q)

/-- Assigning to a new key keeps the entries. -/
theorem subset_insert_of_get?_eq_none (h : get? d k = none) : d ⊆ insert k a d := by
  induction d with
  | nil => exact List.nil_subset _
  | cons p d ih =>
    rw [get?_cons] at h
    rw [insert_cons]
    split at h
    · cases h
    next hne =>
      rw [if_neg hne]
      exact List.cons_subset_cons p (ih h)

/-- An assigned value is read back. -/
theorem get?_insert_self (k : κ) (a : α) (d : List (κ × α)) : get? (insert k a d) k = some a := by
  induction d with
  | nil => rw [insert_nil, get?_cons, if_pos rfl]
  | cons p d ih =>
    rw [insert_cons]
    split
    · rw [get?_cons, if_pos rfl]
    next hne => rw [get?_cons, if_neg hne, ih]

/-- An assignment leaves the other keys alone. -/
theorem get?_insert_of_ne (h : k' ≠ k) (a : α) (d : List (κ × α)) :
    get? (insert k a d) k' = get? d k' := by
  induction d with
  | nil => rw [insert_nil, get?_cons, if_neg h.symm]
  | cons p d ih =>
    rw [insert_cons]
    split
    next heq => rw [get?_cons, get?_cons, if_neg h.symm, if_neg (heq ▸ h.symm)]
    · rw [get?_cons, get?_cons, ih]

/-- A value that is read is an entry. -/
theorem mem_of_get? (h : get? d k = some a) : (k, a) ∈ d := by
  obtain ⟨⟨k', a'⟩, hfind, rfl⟩ := Option.map_eq_some_iff.1 h
  obtain rfl : k' = k := by simpa using List.find?_some hfind
  exact List.mem_of_find?_eq_some hfind

/-- The keys are distinct. -/
def NodupKeys (d : List (κ × α)) : Prop := (d.map Prod.fst).Nodup

/-- An assignment adds its key and takes none away. -/
theorem mem_map_fst_insert {k'' : κ} :
    k'' ∈ (insert k a d).map Prod.fst ↔ k'' = k ∨ k'' ∈ d.map Prod.fst := by
  induction d with
  | nil => simp [insert_nil]
  | cons p d ih =>
    rw [insert_cons]
    split
    next heq => simp [heq]
    · rw [List.map_cons, List.mem_cons, ih, List.map_cons, List.mem_cons, or_left_comm]

/-- An assignment keeps the keys distinct. -/
theorem NodupKeys.insert (h : NodupKeys d) (k : κ) (a : α) : NodupKeys (insert k a d) := by
  induction d with
  | nil => simp [insert_nil, NodupKeys]
  | cons p d ih =>
    obtain ⟨hp, hd⟩ := List.nodup_cons.1 h
    rw [insert_cons]
    split
    next heq => exact List.nodup_cons.2 ⟨heq ▸ hp, hd⟩
    next hne =>
      refine List.nodup_cons.2 ⟨fun hmem ↦ ?_, ih hd⟩
      exact (mem_map_fst_insert.1 hmem).elim hne hp

/-- With distinct keys, the entries are what the keys give. -/
theorem NodupKeys.get?_eq_some_iff (h : NodupKeys d) : get? d k = some a ↔ (k, a) ∈ d := by
  refine ⟨mem_of_get?, fun hmem ↦ ?_⟩
  induction d with
  | nil => exact absurd hmem List.not_mem_nil
  | cons p d ih =>
    obtain ⟨hp, hd⟩ := List.nodup_cons.1 h
    rcases List.mem_cons.1 hmem with rfl | hmem
    · rw [get?_cons, if_pos rfl]
    · have hne : p.1 ≠ k := fun heq ↦ hp (heq ▸ List.mem_map_of_mem hmem)
      rw [get?_cons, if_neg hne, ih hd hmem]

/-- Assigning to a key that is there keeps the keys and their order. -/
theorem map_fst_insert_of_mem (h : k ∈ d.map Prod.fst) :
    (insert k a d).map Prod.fst = d.map Prod.fst := by
  induction d with
  | nil => cases h
  | cons p d ih =>
    rw [insert_cons]
    split
    next heq => rw [List.map_cons, List.map_cons, heq]
    next hne =>
      rcases List.mem_cons.1 h with rfl | h
      · exact absurd rfl hne
      · rw [List.map_cons, List.map_cons, ih h]

/-- Assigning what is there changes nothing. -/
theorem insert_of_get? (h : get? d k = some a) : insert k a d = d := by
  induction d with
  | nil => cases h
  | cons p d ih =>
    rw [get?_cons] at h
    rw [insert_cons]
    split at h
    next heq =>
      rw [if_pos heq, ← Option.some.inj h, ← heq]
    next hne => rw [if_neg hne, ih h]

/-- The dictionary filled by assigning pairs one after the other. -/
def ofPairs (pairs : List (κ × α)) : List (κ × α) :=
  pairs.foldl (fun d p ↦ insert p.1 p.2 d) []

/-- Assigning equal values to equal keys, the value of a key is the one assigned to it. -/
theorem get?_foldl_insert {pairs : List (κ × α)} (h : ∀ b, (k, b) ∈ pairs → b = a)
    (hmem : (k, a) ∈ pairs ∨ get? d k = some a) :
    get? (pairs.foldl (fun d p ↦ insert p.1 p.2 d) d) k = some a := by
  induction pairs generalizing d with
  | nil => exact hmem.resolve_left List.not_mem_nil
  | cons p pairs ih =>
    refine ih (fun b hb ↦ h b (List.mem_cons_of_mem _ hb)) ?_
    beta_reduce
    by_cases hp : p.1 = k
    · have hb : p.2 = a := h p.2 (hp ▸ List.mem_cons_self)
      exact Or.inr (by rw [hp, hb, get?_insert_self])
    · rw [get?_insert_of_ne (Ne.symm hp)]
      refine hmem.imp_left fun hmem ↦ (List.mem_cons.1 hmem).resolve_left fun heq ↦ hp ?_
      rw [← heq]

/-- What is read after an assignment. -/
theorem get?_insert (k k' : κ) (a : α) (d : List (κ × α)) :
    get? (insert k a d) k' = if k = k' then some a else get? d k' := by
  split
  next heq => rw [← heq, get?_insert_self]
  next hne => rw [get?_insert_of_ne (Ne.symm hne)]

/-- The value of a key is the last one assigned to it. -/
theorem get?_foldl_insert_eq_foldl (pairs d : List (κ × α)) (k : κ) :
    get? (pairs.foldl (fun d p ↦ insert p.1 p.2 d) d) k =
      pairs.foldl (fun a p ↦ if p.1 = k then some p.2 else a) (get? d k) := by
  induction pairs generalizing d with
  | nil => rfl
  | cons p pairs ih => rw [List.foldl_cons, List.foldl_cons, ih, get?_insert]

/-- A key whose assigned values are all equal has this value. -/
theorem get?_ofPairs {pairs : List (κ × α)} (h : ∀ b, (k, b) ∈ pairs → b = a)
    (hmem : (k, a) ∈ pairs) : get? (ofPairs pairs) k = some a :=
  get?_foldl_insert h (Or.inl hmem)

/-- Every entry was assigned. -/
theorem mem_ofPairs {pairs : List (κ × α)} {p : κ × α} (h : p ∈ ofPairs pairs) : p ∈ pairs := by
  have hall : ∀ d, p ∈ pairs.foldl (fun d p ↦ insert p.1 p.2 d) d → p ∈ pairs ∨ p ∈ d := by
    clear h
    induction pairs with
    | nil => exact fun _ h ↦ Or.inr h
    | cons q pairs ih =>
      intro d h
      rcases ih _ h with h | h
      · exact Or.inl (List.mem_cons_of_mem q h)
      · rcases mem_insert h with rfl | h
        · exact Or.inl List.mem_cons_self
        · exact Or.inr h
  exact (hall [] h).resolve_right List.not_mem_nil

/-- When equal keys are assigned equal values, the dictionary is the relation of its pairs. -/
theorem get?_ofPairs_iff {pairs : List (κ × α)}
    (h : ∀ k a b, (k, a) ∈ pairs → (k, b) ∈ pairs → a = b) :
    get? (ofPairs pairs) k = some a ↔ (k, a) ∈ pairs :=
  ⟨fun hget ↦ mem_ofPairs (mem_of_get? hget),
    fun hmem ↦ get?_ofPairs (fun _ hb ↦ h k _ a hb hmem) hmem⟩

/-- Where no key is assigned two values, the entries are the pairs. -/
theorem mem_ofPairs_iff {pairs : List (κ × α)}
    (h : ∀ k a b, (k, a) ∈ pairs → (k, b) ∈ pairs → a = b) {p : κ × α} :
    p ∈ ofPairs pairs ↔ p ∈ pairs :=
  ⟨mem_ofPairs, fun hmem ↦ mem_of_get? ((get?_ofPairs_iff h).2 hmem)⟩

end OrderedDict
