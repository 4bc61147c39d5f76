import Mathlib.Data.List.Basic

/-!
# Pairing openings with closings

A scan over events that keeps the last opening and pairs it with the next closing. An opening is
paired exactly with the closing that nothing but irrelevant events separate it from
(`mem_pairs_iff`).

The scan is a recursion that carries the opening that waits. What it pairs from within the list is
said in terms of that opening (`PairedFrom`), and the statement about the whole list has none. A
pair knows the positions of its two events, so that a program can ask where they were.
-/

namespace Pairing

variable {α β : Type*}

/-- What a line is for the scan. -/
inductive Event (α β : Type*)
  | start (a : α)
  /-- The last opening is forgotten. -/
  | reset
  | finish (b : β)
  | other
  deriving DecidableEq

/-- An opening and a closing, with their positions. -/
@[ext]
structure Pair (α β : Type*) where
  startAt : ℕ
  started : α
  finishAt : ℕ
  finished : β
  deriving DecidableEq

/-- The pairs of a list of events whose first one has the position `n`. -/
def pairs : ℕ → Option (ℕ × α) → List (Event α β) → List (Pair α β)
  | _, _, [] => []
  | n, _, .start a :: es => pairs (n + 1) (some (n, a)) es
  | n, _, .reset :: es => pairs (n + 1) none es
  | n, some (i, a), .finish b :: es => ⟨i, a, n, b⟩ :: pairs (n + 1) none es
  | n, none, .finish _ :: es => pairs (n + 1) none es
  | n, pending, .other :: es => pairs (n + 1) pending es

/-- The events start with irrelevant ones, and `b` closes behind `k` of them. -/
def FinishesAt (es : List (Event α β)) (b : β) (k : ℕ) : Prop :=
  es[k]? = some (.finish b) ∧ ∀ i < k, es[i]? = some .other

/-- Event `i` opens with `a`, event `k` closes with `b`, and those between are irrelevant. -/
structure Adjacent (es : List (Event α β)) (i : ℕ) (a : α) (k : ℕ) (b : β) : Prop where
  lt : i < k
  start : es[i]? = some (.start a)
  finish : es[k]? = some (.finish b)
  other : ∀ j, i < j → j < k → es[j]? = some .other

variable {e : Event α β} {es : List (Event α β)} {i k n : ℕ} {a : α} {b : β}

/-- A closing at the front closes at once. -/
theorem finishesAt_cons_zero : FinishesAt (e :: es) b 0 ↔ e = .finish b :=
  ⟨fun h ↦ Option.some.inj h.1, fun h ↦ ⟨congrArg some h, fun _ hi ↦ absurd hi (Nat.not_lt_zero _)⟩⟩

/-- An event in front of a closing is irrelevant. -/
theorem finishesAt_cons_succ :
    FinishesAt (e :: es) b (k + 1) ↔ e = .other ∧ FinishesAt es b k := by
  constructor
  · intro h
    exact ⟨Option.some.inj (h.2 0 k.succ_pos), h.1, fun i hi ↦ h.2 (i + 1) (Nat.succ_lt_succ hi)⟩
  · rintro ⟨rfl, hb, hother⟩
    refine ⟨hb, fun i hi ↦ ?_⟩
    rcases i with _ | i
    · rfl
    · exact hother i (Nat.lt_of_succ_lt_succ hi)

/-- An opening at the front, and the closing behind it. -/
theorem adjacent_cons_zero :
    Adjacent (e :: es) 0 a (k + 1) b ↔ e = .start a ∧ FinishesAt es b k := by
  constructor
  · intro h
    exact ⟨Option.some.inj h.start, h.finish,
      fun i hi ↦ h.other (i + 1) i.succ_pos (Nat.succ_lt_succ hi)⟩
  · rintro ⟨rfl, hb, hother⟩
    refine ⟨k.succ_pos, rfl, hb, fun j hj hjk ↦ ?_⟩
    obtain ⟨j, rfl⟩ := Nat.exists_eq_succ_of_ne_zero (Nat.ne_of_gt hj)
    exact hother j (Nat.lt_of_succ_lt_succ hjk)

/-- An event in front of an opening only shifts the positions. -/
theorem adjacent_cons_succ : Adjacent (e :: es) (i + 1) a (k + 1) b ↔ Adjacent es i a k b := by
  constructor
  · intro h
    exact ⟨Nat.lt_of_succ_lt_succ h.lt, h.start, h.finish,
      fun j hj hjk ↦ h.other (j + 1) (Nat.succ_lt_succ hj) (Nat.succ_lt_succ hjk)⟩
  · intro h
    refine ⟨Nat.succ_lt_succ h.lt, h.start, h.finish, fun j hj hjk ↦ ?_⟩
    obtain ⟨j, rfl⟩ := Nat.exists_eq_succ_of_ne_zero (Nat.ne_zero_of_lt hj)
    exact h.other j (Nat.lt_of_succ_lt_succ hj) (Nat.lt_of_succ_lt_succ hjk)

/-- Events before the opening only shift the positions. -/
theorem adjacent_append_left (es' : List (Event α β)) :
    Adjacent (es' ++ es) (es'.length + i) a (es'.length + k) b ↔ Adjacent es i a k b := by
  induction es' with
  | nil => rw [List.nil_append, List.length_nil, Nat.zero_add, Nat.zero_add]
  | cons e es' ih =>
    rw [List.cons_append, List.length_cons, Nat.succ_add, Nat.succ_add, adjacent_cons_succ, ih]

/-! ### The scan -/

/-- `b` closes at position `y`, with irrelevant events before. -/
def FinishesFrom (n : ℕ) (es : List (Event α β)) (b : β) (y : ℕ) : Prop :=
  ∃ k, FinishesAt es b k ∧ y = n + k

/-- The events pair `p`, whose positions count from `n`. -/
def PairedFrom (n : ℕ) (es : List (Event α β)) (p : Pair α β) : Prop :=
  ∃ i k, Adjacent es i p.started k p.finished ∧ p.startAt = n + i ∧ p.finishAt = n + k

/-- A list closes with its first event, or behind it if that one is irrelevant. -/
theorem finishesFrom_cons {y : ℕ} :
    FinishesFrom n (e :: es) b y ↔
      e = .finish b ∧ y = n ∨ e = .other ∧ FinishesFrom (n + 1) es b y := by
  constructor
  · rintro ⟨_ | k, h, rfl⟩
    · exact Or.inl ⟨finishesAt_cons_zero.1 h, rfl⟩
    · obtain ⟨he, h⟩ := finishesAt_cons_succ.1 h
      exact Or.inr ⟨he, k, h, by omega⟩
  · rintro (⟨rfl, rfl⟩ | ⟨rfl, k, h, rfl⟩)
    · exact ⟨0, finishesAt_cons_zero.2 rfl, rfl⟩
    · exact ⟨k + 1, finishesAt_cons_succ.2 ⟨rfl, h⟩, by omega⟩

/-- A pair starts at the first event or behind it. -/
theorem pairedFrom_cons {p : Pair α β} :
    PairedFrom n (e :: es) p ↔
      (e = .start p.started ∧ p.startAt = n ∧ FinishesFrom (n + 1) es p.finished p.finishAt) ∨
        PairedFrom (n + 1) es p := by
  constructor
  · rintro ⟨i, _ | k, h, hi, hk⟩
    · exact absurd h.lt (Nat.not_lt_zero i)
    · rcases i with _ | i
      · obtain ⟨he, h⟩ := adjacent_cons_zero.1 h
        exact Or.inl ⟨he, hi, k, h, by omega⟩
      · exact Or.inr ⟨i, k, adjacent_cons_succ.1 h, by omega, by omega⟩
  · rintro (⟨rfl, hi, k, h, hk⟩ | ⟨i, k, h, hi, hk⟩)
    · exact ⟨0, k + 1, adjacent_cons_zero.2 ⟨rfl, h⟩, hi, by omega⟩
    · exact ⟨i + 1, k + 1, adjacent_cons_succ.2 h, by omega, by omega⟩

/-- What is pending is paired by the first relevant event, if that closes. -/
theorem mem_pairs {pending : Option (ℕ × α)} {p : Pair α β} :
    p ∈ pairs n pending es ↔
      pending = some (p.startAt, p.started) ∧ FinishesFrom n es p.finished p.finishAt ∨
        PairedFrom n es p := by
  induction es generalizing n pending with
  | nil =>
    have hnone : ∀ i k, ¬Adjacent ([] : List (Event α β)) i p.started k p.finished :=
      fun _ _ h ↦ absurd h.start (by simp)
    simp [pairs, FinishesFrom, FinishesAt, PairedFrom, hnone]
  | cons e es ih =>
    rw [finishesFrom_cons, pairedFrom_cons]
    rcases e with a | _ | b | _
    · rw [pairs, ih]
      simp [and_assoc, and_comm, eq_comm]
    · rw [pairs, ih]
      simp
    · rcases pending with _ | ⟨i, a⟩
      · rw [pairs, ih]
        simp
      · rw [pairs, List.mem_cons, ih, Pair.ext_iff]
        simp [and_comm, and_left_comm, and_assoc, eq_comm]
    · rw [pairs, ih]
      simp

/-- **An opening is paired with the closing** that only irrelevant events separate it from. -/
theorem mem_pairs_iff {p : Pair α β} :
    p ∈ pairs 0 none es ↔ Adjacent es p.startAt p.started p.finishAt p.finished := by
  rw [mem_pairs, PairedFrom]
  constructor
  · rintro (⟨h, -⟩ | ⟨i, k, h, hi, hk⟩)
    · cases h
    · rwa [hi, hk, Nat.zero_add, Nat.zero_add]
  · exact fun h ↦ Or.inr ⟨p.startAt, p.finishAt, h, (Nat.zero_add _).symm, (Nat.zero_add _).symm⟩

end Pairing
