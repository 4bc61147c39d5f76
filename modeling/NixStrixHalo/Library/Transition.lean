import Mathlib.Data.List.Induction

/-!
# Guarded runs of a partial step function

The transition systems of this development are partial step functions `step : σ → α → Option σ`
over a type `α` of actions: `step s a = none` says that `a` is not enabled in `s`.

## Guards

What an environment may do is not part of the step function but a **guard** `σ → α → Prop`, so that
one system is studied under several environments: a link that may reorder, a link that may only
lose, a link on which every step meets some condition. `Reach step guard s₀ s` says that `s` is
reached from `s₀` by a run all of whose steps meet the guard in the state they leave.

## Rules

What holds at first and is kept by every step of the guard holds in every state reached
(`Reach.invariant`); a bound that the last state keeps to may be used along the way, where it only
grows (`Reach.invariant_of_bound`). Runs given as a list of actions are evaluated by `guardedRun`,
which is what a concrete counterexample computes with.

A step function that is total is run by a fold, and two rules say when a property holds all along a
run exactly if its steps meet a condition (`forall_prefix_foldl_iff`, `forall_steps_foldl_iff`).
-/

namespace Transition

variable {σ α : Type*} {step : σ → α → Option σ} {guard guard' : σ → α → Prop} {s₀ s s' : σ}

/-- The states reached from `s₀` by steps that meet the guard. -/
inductive Reach (step : σ → α → Option σ) (guard : σ → α → Prop) (s₀ : σ) : σ → Prop
  | refl : Reach step guard s₀ s₀
  | tail {s s' : σ} {a : α} :
      Reach step guard s₀ s → guard s a → step s a = some s' → Reach step guard s₀ s'

/-- A property that holds initially and is preserved by every guarded step holds of every state
reached. The step may use that its source is itself reached. -/
theorem Reach.invariant {I : σ → Prop} (h : Reach step guard s₀ s) (h₀ : I s₀)
    (hstep : ∀ s a s', Reach step guard s₀ s → I s → guard s a → step s a = some s' → I s') :
    I s := by
  induction h with
  | refl => exact h₀
  | tail hr hg hs ih => exact hstep _ _ _ hr ih hg hs

/-- The invariant rule under a bound `B` that is inherited by the source of a step: only the states
within the bound have to be preserved. -/
theorem Reach.invariant_of_bound {I B : σ → Prop} (h : Reach step guard s₀ s) (h₀ : I s₀)
    (hback : ∀ s a s', step s a = some s' → B s' → B s)
    (hstep : ∀ s a s', Reach step guard s₀ s → I s → guard s a → step s a = some s' → B s' → I s')
    (hB : B s) : I s := by
  induction h with
  | refl => exact h₀
  | tail hr hg hs ih => exact hstep _ _ _ hr (ih (hback _ _ _ hs hB)) hg hs hB

/-- A weaker guard reaches more. -/
theorem Reach.mono (hg : ∀ s a, guard s a → guard' s a) (h : Reach step guard s₀ s) :
    Reach step guard' s₀ s := by
  induction h with
  | refl => exact Reach.refl
  | tail _ ha hs ih => exact ih.tail (hg _ _ ha) hs

/-- Runs compose. -/
theorem Reach.trans {s₁ : σ} (h₁ : Reach step guard s₀ s₁) (h₂ : Reach step guard s₁ s) :
    Reach step guard s₀ s := by
  induction h₂ with
  | refl => exact h₁
  | tail _ ha hs ih => exact ih.tail ha hs

/-! ### Runs given as a list of actions -/

/-- Run a list of actions, checking the guard before each step. -/
def guardedRun (step : σ → α → Option σ) (guard : σ → α → Prop)
    [∀ s a, Decidable (guard s a)] : σ → List α → Option σ
  | s, [] => some s
  | s, a :: as => if guard s a then (step s a).bind (guardedRun step guard · as) else none

/-- A run that evaluates is a run. -/
theorem Reach.of_guardedRun [∀ s a, Decidable (guard s a)] {as : List α}
    (h : guardedRun step guard s as = some s') : Reach step guard s s' := by
  induction as generalizing s with
  | nil =>
    obtain rfl : s = s' := by simpa [guardedRun] using h
    exact Reach.refl
  | cons a as ih =>
    by_cases hg : guard s a
    · obtain ⟨t, ht, hrun⟩ : ∃ t, step s a = some t ∧ guardedRun step guard t as = some s' := by
        simpa [guardedRun, hg, Option.bind_eq_some_iff] using h
      exact (Reach.refl.tail hg ht).trans (ih hrun)
    · simp [guardedRun, hg] at h

/-- What a run that evaluates ends in is reached. -/
theorem exists_reach_of_guardedRun [∀ s a, Decidable (guard s a)] {β : Type*} {as : List α}
    {f : σ → β} {b : β} (h : (guardedRun step guard s as).map f = some b) :
    ∃ s', Reach step guard s s' ∧ f s' = b := by
  obtain ⟨s', hs', hf⟩ := Option.map_eq_some_iff.1 h
  exact ⟨s', Reach.of_guardedRun hs', hf⟩

/-! ### Runs of a total step function -/

/-- A property that a step keeps exactly where it meets the guard holds in every state of a run
exactly when every step of the run meets the guard. -/
theorem forall_prefix_foldl_iff {f : σ → α → σ} {I : σ → Prop} {as : List α} (h₀ : I s₀)
    (hstep : ∀ s a, I s → (I (f s a) ↔ guard s a)) :
    (∀ bs, bs <+: as → I (bs.foldl f s₀)) ↔
      ∀ bs a, bs ++ [a] <+: as → guard (bs.foldl f s₀) a := by
  constructor
  · intro h bs a hprefix
    have hafter := h (bs ++ [a]) hprefix
    rw [List.foldl_append, List.foldl_cons, List.foldl_nil] at hafter
    exact (hstep _ a (h bs ((List.prefix_append bs [a]).trans hprefix))).1 hafter
  · intro h bs
    induction bs using List.reverseRecOn with
    | nil => exact fun _ ↦ h₀
    | append_singleton bs a ih =>
      intro hprefix
      have hbefore := ih ((List.prefix_append bs [a]).trans hprefix)
      rw [List.foldl_append, List.foldl_cons, List.foldl_nil]
      exact (hstep _ a hbefore).2 (h bs a hprefix)

/-- A property of steps that keeps an invariant, and that holds of a step from the invariant exactly
where the action is good, holds of every step of a run exactly when every action is good. -/
theorem forall_steps_foldl_iff {f : σ → α → σ} {I : σ → Prop} {P : σ → α → Prop} {good : α → Prop}
    {as : List α} (h₀ : I s₀) (hstep : ∀ s a, I s → (P s a ↔ good a))
    (hkeep : ∀ s a, I s → P s a → I (f s a)) :
    (∀ bs a, bs ++ [a] <+: as → P (bs.foldl f s₀) a) ↔ ∀ a ∈ as, good a := by
  induction as generalizing s₀ with
  | nil =>
    refine iff_of_true (fun bs a hprefix ↦ ?_) fun a ha ↦ absurd ha List.not_mem_nil
    exact absurd (List.prefix_nil.1 hprefix) (by simp)
  | cons a as ih =>
    rw [List.forall_mem_cons]
    constructor
    · intro h
      have hfirst : P s₀ a := h [] a (by simp)
      refine ⟨(hstep s₀ a h₀).1 hfirst, (ih (hkeep s₀ a h₀ hfirst)).1 fun bs b hprefix ↦ ?_⟩
      exact h (a :: bs) b (List.cons_prefix_cons.2 ⟨rfl, hprefix⟩)
    · rintro ⟨hgood, hrest⟩
      have hfirst : P s₀ a := (hstep s₀ a h₀).2 hgood
      intro bs b hprefix
      rcases bs with _ | ⟨c, bs⟩
      · obtain ⟨rfl, -⟩ := List.cons_prefix_cons.1 hprefix
        exact hfirst
      · obtain ⟨rfl, hpre⟩ := List.cons_prefix_cons.1 hprefix
        exact (ih (hkeep s₀ c h₀ hfirst)).2 hrest bs b hpre

end Transition
