import Mathlib.Data.List.Basic

/-!
# Shell commands under `errexit`

Commands of a shell with functions, over a state that simple commands change. A run ends normally
with a status, returns from the function it is in, or exits the shell.

## `errexit`

It makes a simple command or a call of a function exit the shell when its status is not zero; it is
not in force in the condition of an `if` and on the left of `||` and `&&`, in whatever these call.
So whether it is in force is an argument of `exec`, and a function is run with the one of its call.
Where it is not in force no run exits the shell (`exec_false_ne_exited`).

## Rules

Each way to put commands together has the equations for the ways in which its first part can end
(`exec_seq_of_done`, `exec_seq_of_exited`, …), and a block of commands is a sequence of them. What
every simple command of a program keeps, the program keeps, in whichever way it ends
(`exec_induction`); a program whose simple commands only read the state leaves it alone
(`Cmd.ReadOnly.exec_eq`).
-/

namespace Shell

/-- How the run of a command ends. -/
inductive Outcome
  | done (status : ℕ)
  | returned (status : ℕ)
  | exited (status : ℕ)
  deriving DecidableEq

/-- Commands. A simple command gives a status and changes the state. -/
inductive Cmd (σ : Type*)
  | run (f : σ → ℕ × σ)
  | seq (first rest : Cmd σ)
  | orElse (first rest : Cmd σ)
  | andThen (first rest : Cmd σ)
  | cond (test yes no : Cmd σ)
  | ret (status : ℕ)
  | call (body : Cmd σ)

variable {σ τ : Type*} {s s' : σ} {a b c : Cmd σ} {errexit : Bool} {n : ℕ}

/-- How a simple command or a call with this status ends. -/
def raise (errexit : Bool) (status : ℕ) : Outcome :=
  if errexit ∧ status ≠ 0 then .exited status else .done status

/-- The run of a command. -/
def exec (errexit : Bool) : Cmd σ → σ → Outcome × σ
  | .run f, s => (raise errexit (f s).1, (f s).2)
  | .seq a b, s =>
    match exec errexit a s with
    | (.done _, s') => exec errexit b s'
    | r => r
  | .orElse a b, s =>
    match exec false a s with
    | (.done 0, s') => (.done 0, s')
    | (.done _, s') => exec errexit b s'
    | r => r
  | .andThen a b, s =>
    match exec false a s with
    | (.done 0, s') => exec errexit b s'
    | r => r
  | .cond t a b, s =>
    match exec false t s with
    | (.done 0, s') => exec errexit a s'
    | (.done _, s') => exec errexit b s'
    | r => r
  | .ret n, s => (.returned n, s)
  | .call a, s =>
    match exec errexit a s with
    | (.done n, s') => (raise errexit n, s')
    | (.returned n, s') => (raise errexit n, s')
    | r => r

/-! ### Derived commands -/

namespace Cmd

/-- A command with this status that does not change the state. -/
def status (n : ℕ) : Cmd σ := run fun s ↦ (n, s)

/-- A command that changes the state. -/
def modify (f : σ → σ) : Cmd σ := run fun s ↦ (0, f s)

/-- `[[ … ]]`. -/
def test (p : σ → Bool) : Cmd σ := run fun s ↦ (if p s then 0 else 1, s)

/-- `a || true`. -/
def orTrue (a : Cmd σ) : Cmd σ := orElse a (status 0)

/-- Commands one after the other. -/
def block : List (Cmd σ) → Cmd σ
  | [] => status 0
  | [a] => a
  | a :: l => seq a (block l)

/-- `for` or `while read`: the body for each of the elements. -/
def forEach {α : Type*} (body : α → Cmd σ) : List α → Cmd σ
  | [] => status 0
  | x :: l => seq (body x) (forEach body l)

end Cmd

/-! ### Rules -/

/-- Without `errexit`, no status ends the script. -/
theorem raise_false (n : ℕ) : raise false n = .done n := if_neg fun h ↦ by cases h.1

/-- Success never ends the script. -/
theorem raise_zero (errexit : Bool) : raise errexit 0 = .done 0 := if_neg fun h ↦ h.2 rfl

/-- With `errexit`, a failure ends the script. -/
theorem raise_true (h : n ≠ 0) : raise true n = .exited n := if_pos ⟨rfl, h⟩

@[simp]
theorem exec_status (errexit : Bool) (n : ℕ) (s : σ) :
    exec errexit (.status n) s = (raise errexit n, s) := rfl

theorem exec_status_false (n : ℕ) (s : σ) : exec false (.status n) s = (.done n, s) := by
  rw [exec_status, raise_false]

@[simp]
theorem exec_modify (errexit : Bool) (f : σ → σ) (s : σ) :
    exec errexit (.modify f) s = (.done 0, f s) :=
  congrArg (·, f s) (raise_zero errexit)

/-- A list of commands goes on where the first one is done. -/
theorem exec_seq (errexit : Bool) (a b : Cmd σ) (s : σ) : exec errexit (.seq a b) s =
    match exec errexit a s with
    | (.done _, s') => exec errexit b s'
    | r => r := rfl

/-- `errexit` is ignored on the left of `||`. -/
theorem exec_orElse (errexit : Bool) (a b : Cmd σ) (s : σ) : exec errexit (.orElse a b) s =
    match exec false a s with
    | (.done 0, s') => (.done 0, s')
    | (.done _, s') => exec errexit b s'
    | r => r := rfl

/-- `errexit` is ignored in a condition. -/
theorem exec_cond (errexit : Bool) (c a b : Cmd σ) (s : σ) : exec errexit (.cond c a b) s =
    match exec false c s with
    | (.done 0, s') => exec errexit a s'
    | (.done _, s') => exec errexit b s'
    | r => r := rfl

/-- A function that returns is done with the status that it returns. -/
theorem exec_call (errexit : Bool) (a : Cmd σ) (s : σ) : exec errexit (.call a) s =
    match exec errexit a s with
    | (.done n, s') => (raise errexit n, s')
    | (.returned n, s') => (raise errexit n, s')
    | r => r := rfl

/-- After a command that ends normally comes the next one. -/
theorem exec_seq_of_done (h : exec errexit a s = (.done n, s')) :
    exec errexit (.seq a b) s = exec errexit b s' := by
  rw [exec_seq, h]

/-- What follows an exit is not run. -/
theorem exec_seq_of_exited (h : exec errexit a s = (.exited n, s')) :
    exec errexit (.seq a b) s = (.exited n, s') := by
  rw [exec_seq, h]

/-- What follows a return is not run. -/
theorem exec_seq_of_returned (h : exec errexit a s = (.returned n, s')) :
    exec errexit (.seq a b) s = (.returned n, s') := by
  rw [exec_seq, h]

/-- A sequence ends normally when both commands do. -/
theorem exec_seq_eq_done_iff : exec errexit (.seq a b) s = (.done n, s') ↔
    ∃ m s₁, exec errexit a s = (.done m, s₁) ∧ exec errexit b s₁ = (.done n, s') := by
  rcases h : exec errexit a s with ⟨m | m | m, s₁⟩
  · rw [exec_seq_of_done h]
    constructor
    · intro hb
      exact ⟨m, s₁, rfl, hb⟩
    · rintro ⟨m', s', heq, hb⟩
      obtain ⟨-, rfl⟩ := Prod.mk.inj heq
      exact hb
  -- a sequence whose first command leaves it does not end normally
  · rw [exec_seq_of_returned h]
    constructor
    · intro hb
      cases hb
    · rintro ⟨m', s', heq, -⟩
      cases heq
  · rw [exec_seq_of_exited h]
    constructor
    · intro hb
      cases hb
    · rintro ⟨m', s', heq, -⟩
      cases heq

/-- A condition that ends chooses the branch by its status. -/
theorem exec_cond_of_done (h : exec false c s = (.done n, s')) :
    exec errexit (.cond c a b) s = if n = 0 then exec errexit a s' else exec errexit b s' := by
  rw [exec_cond, h]
  rcases n with _ | n
  · rfl
  · rfl

/-- A test chooses the branch. -/
theorem exec_cond_test (p : σ → Bool) (s : σ) :
    exec errexit (.cond (.test p) a b) s = if p s then exec errexit a s else exec errexit b s := by
  have htest : exec false (.test p) s = (.done (if p s then 0 else 1), s) := rfl
  rw [exec_cond_of_done htest]
  by_cases hp : p s
  · rw [if_pos hp, if_pos rfl, if_pos hp]
  · rw [if_neg hp, if_neg Nat.one_ne_zero, if_neg hp]

/-- The right of `||` is run where the left fails. -/
theorem exec_orElse_of_done (h : exec false a s = (.done n, s')) :
    exec errexit (.orElse a b) s = if n = 0 then (.done 0, s') else exec errexit b s' := by
  rw [exec_orElse, h]
  rcases n with _ | n
  · rfl
  · rfl

/-- `|| true` makes a success of any status. -/
theorem exec_orTrue (h : exec false a s = (.done n, s')) :
    exec errexit (.orTrue a) s = (.done 0, s') := by
  rw [Cmd.orTrue, exec_orElse_of_done h, exec_status, raise_zero, ite_self]

@[simp]
theorem exec_orTrue_status (errexit : Bool) (n : ℕ) (s : σ) :
    exec errexit (.orTrue (.status n)) s = (.done 0, s) :=
  exec_orTrue (exec_status_false n s)

theorem exec_block_singleton (errexit : Bool) (a : Cmd σ) (s : σ) :
    exec errexit (.block [a]) s = exec errexit a s := rfl

/-- A block goes on behind a command that is done. -/
theorem exec_block_of_done {l : List (Cmd σ)} (h : exec errexit a s = (.done n, s')) :
    exec errexit (.block (a :: b :: l)) s = exec errexit (.block (b :: l)) s' :=
  exec_seq_of_done h

/-- A return ends the block. -/
theorem exec_block_of_returned {l : List (Cmd σ)} (h : exec errexit a s = (.returned n, s')) :
    exec errexit (.block (a :: b :: l)) s = (.returned n, s') :=
  exec_seq_of_returned h

theorem exec_call_of_done (h : exec errexit a s = (.done n, s')) :
    exec errexit (.call a) s = (raise errexit n, s') := by
  rw [exec_call, h]

theorem exec_call_of_returned (h : exec errexit a s = (.returned n, s')) :
    exec errexit (.call a) s = (raise errexit n, s') := by
  rw [exec_call, h]

/-- A call ends like a last command with its status. -/
theorem exec_call_of_raise (h : exec errexit a s = (raise errexit n, s')) :
    exec errexit (.call a) s = (raise errexit n, s') := by
  by_cases hraise : errexit ∧ n ≠ 0
  · rw [exec_call, h, raise, if_pos hraise]
  · have hdone : raise errexit n = .done n := if_neg hraise
    rw [hdone] at h
    exact exec_call_of_done h

/-! ### Suppressed `errexit` -/

/-- Where `errexit` is not in force, no run exits the shell. -/
theorem exec_false_ne_exited (a : Cmd σ) (s : σ) (n : ℕ) : (exec false a s).1 ≠ .exited n := by
  induction a generalizing s with
  | run f => rw [exec, raise_false]; exact fun h ↦ by cases h
  | seq a b iha ihb =>
    rw [exec]
    split
    · exact ihb _
    · exact iha s
  | orElse a b iha ihb =>
    rw [exec]
    split
    · exact fun h ↦ by cases h
    · exact ihb _
    · exact iha s
  | andThen a b iha ihb =>
    rw [exec]
    split
    · exact ihb _
    · exact iha s
  | cond t a b iht iha ihb =>
    rw [exec]
    split
    · exact iha _
    · exact ihb _
    · exact iht s
  | ret m => exact fun h ↦ by cases h
  | call a iha =>
    rw [exec]
    split
    · rw [raise_false]; exact fun h ↦ by cases h
    · rw [raise_false]; exact fun h ↦ by cases h
    · exact iha s

/-- A function whose `errexit` is suppressed gives a status. -/
theorem exists_exec_call_eq_done (a : Cmd σ) (s : σ) :
    ∃ n s', exec false (.call a) s = (.done n, s') := by
  rcases h : exec false a s with ⟨n | n | n, s'⟩
  · exact ⟨n, s', by rw [exec_call_of_done h, raise_false]⟩
  · exact ⟨n, s', by rw [exec_call_of_returned h, raise_false]⟩
  · exact absurd (congrArg Prod.fst h) (exec_false_ne_exited a s n)

/-! ### Frames -/

/-- Every simple command of this one has the property. -/
def Cmd.All (p : (σ → ℕ × σ) → Prop) : Cmd σ → Prop
  | .run f => p f
  | .seq a b => a.All p ∧ b.All p
  | .orElse a b => a.All p ∧ b.All p
  | .andThen a b => a.All p ∧ b.All p
  | .cond t a b => t.All p ∧ a.All p ∧ b.All p
  | .ret _ => True
  | .call a => a.All p

/-- What is said of all the commands is weakened command by command. -/
theorem Cmd.All.imp {p q : (σ → ℕ × σ) → Prop} (hpq : ∀ f, p f → q f) (h : a.All p) :
    a.All q := by
  induction a with
  | run f => exact hpq f h
  | seq a b iha ihb => exact ⟨iha h.1, ihb h.2⟩
  | orElse a b iha ihb => exact ⟨iha h.1, ihb h.2⟩
  | andThen a b iha ihb => exact ⟨iha h.1, ihb h.2⟩
  | cond t a b iht iha ihb => exact ⟨iht h.1, iha h.2.1, ihb h.2.2⟩
  | ret n => trivial
  | call a iha => exact iha h

/-- What the simple commands of a command keep, its runs keep. -/
theorem exec_induction {P : σ → Prop} (a : Cmd σ) (h : a.All fun f ↦ ∀ s, P s → P (f s).2)
    (errexit : Bool) (hs : P s) : P (exec errexit a s).2 := by
  induction a generalizing errexit s with
  | run f => exact h s hs
  | seq a b iha ihb =>
    have hfirst := iha h.1 errexit hs
    rw [exec]
    split
    next heq => rw [heq] at hfirst; exact ihb h.2 errexit hfirst
    · exact hfirst
  | orElse a b iha ihb =>
    -- `errexit` is not in force on the left
    have hfirst := iha h.1 false hs
    rw [exec]
    split
    next heq => rw [heq] at hfirst; exact hfirst
    next heq => rw [heq] at hfirst; exact ihb h.2 errexit hfirst
    · exact hfirst
  | andThen a b iha ihb =>
    have hfirst := iha h.1 false hs
    rw [exec]
    split
    next heq => rw [heq] at hfirst; exact ihb h.2 errexit hfirst
    · exact hfirst
  | cond t a b iht iha ihb =>
    have htest := iht h.1 false hs
    rw [exec]
    split
    next heq => rw [heq] at htest; exact iha h.2.1 errexit htest
    next heq => rw [heq] at htest; exact ihb h.2.2 errexit htest
    · exact htest
  | ret n => exact hs
  | call a iha =>
    have hbody := iha h errexit hs
    rw [exec]
    split
    next heq => rw [heq] at hbody; exact hbody
    next heq => rw [heq] at hbody; exact hbody
    · exact hbody

/-- What holds after the first of two commands, and is kept by the second, holds after both. -/
theorem exec_seq_induction {P : σ → Prop} (ha : P (exec errexit a s).2)
    (hb : ∀ s', P s' → P (exec errexit b s').2) : P (exec errexit (.seq a b) s).2 := by
  rcases h : exec errexit a s with ⟨m | m | m, s₁⟩ <;> rw [h] at ha
  · rw [exec_seq_of_done h]
    exact hb s₁ ha
  · rw [exec_seq_of_returned h]
    exact ha
  · rw [exec_seq_of_exited h]
    exact ha

/-- The state is only read. -/
abbrev Cmd.ReadOnly (a : Cmd σ) : Prop := a.All fun f ↦ ∀ s, (f s).2 = s

/-- **Commands that only read leave the state as it is**, however they end. -/
theorem Cmd.ReadOnly.exec_eq (h : a.ReadOnly) (errexit : Bool) (s : σ) :
    (exec errexit a s).2 = s := by
  have hall : a.All fun f ↦ ∀ s', s' = s → (f s').2 = s := by
    refine All.imp (fun f hf s' hs' ↦ ?_) h
    rw [hf, hs']
  exact exec_induction a hall errexit rfl

/-- A function that only reads the state gives a status where `errexit` is suppressed. -/
theorem Cmd.ReadOnly.exists_exec_call (h : a.ReadOnly) (s : σ) :
    ∃ n, exec false (.call a) s = (.done n, s) := by
  obtain ⟨n, s', heq⟩ := exists_exec_call_eq_done a s
  have hstate : (exec false (.call a) s).2 = s := ReadOnly.exec_eq (a := .call a) h false s
  rw [heq] at hstate
  exact ⟨n, hstate ▸ heq⟩

end Shell
