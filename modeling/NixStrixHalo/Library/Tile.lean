import Mathlib.Data.List.Basic
import Mathlib.Data.List.Nodup
import Mathlib.Data.List.ProdSigma
import Mathlib.Data.Set.Insert
import Mathlib.Logic.Function.Basic

/-!
# Tiles of masked loads and stores

A program of a kernel works on tiles: families of values indexed by the lanes `ι`. It reads memory
with a masked load, which gives the lanes outside the mask a fixed value and does not touch memory
for them, and it writes memory with a masked store.

## Launches

A launch runs the programs of a grid in an order of the device's choosing (`Device`, for two
dimensions, and `Schedule` for any type of programs). What is left in memory does not depend on that
order where no two programs store different values at one address (`write_eq_of_mem`).

To see that a launch writes each element once, it is enough to look at the addresses in the order of
the grid, since every schedule makes the same stores in another order (`Schedule.perm_trace`).

Programs do not read what others of the same launch write: a launch is a list of stores, and what is
loaded is in memory before it.
-/

namespace Tile

variable {ι α : Type*}

/-! ### Masked loads -/

/-- A load of one tile. -/
structure Load (ι α : Type*) where
  memory : ℤ → α
  address : ι → ℤ
  mask : ι → Prop
  other : α

namespace Load

variable (l l' : Load ι α) {i : ι}

/-- The tile that is loaded. -/
def value [DecidablePred l.mask] (i : ι) : α := if l.mask i then l.memory (l.address i) else l.other

/-- The addresses that are read. -/
def reads : Set ℤ := {x | ∃ i, l.mask i ∧ l.address i = x}

variable {l l'}

/-- A lane that is not masked out is loaded. -/
theorem value_of_mask [DecidablePred l.mask] (h : l.mask i) :
    l.value i = l.memory (l.address i) :=
  if_pos h

/-- A lane that is masked out has the other value. -/
theorem value_of_not_mask [DecidablePred l.mask] (h : ¬ l.mask i) : l.value i = l.other :=
  if_neg h

end Load

/-! ### Stores -/

/-- Memory after a list of writes, the first one first. -/
def write (memory : ℤ → α) (writes : List (ℤ × α)) : ℤ → α :=
  writes.foldl (fun m w ↦ Function.update m w.1 w.2) memory

@[simp] theorem write_nil (memory : ℤ → α) : write memory [] = memory := rfl

@[simp] theorem write_cons (memory : ℤ → α) (w : ℤ × α) (writes : List (ℤ × α)) :
    write memory (w :: writes) = write (Function.update memory w.1 w.2) writes := rfl

/-- Addresses that are not written keep what they hold. -/
theorem write_of_forall_ne {memory : ℤ → α} {writes : List (ℤ × α)} {x : ℤ}
    (h : ∀ w ∈ writes, w.1 ≠ x) : write memory writes x = memory x := by
  induction writes generalizing memory with
  | nil => rfl
  | cons w writes ih =>
    rw [write_cons, ih fun v hv ↦ h v (List.mem_cons_of_mem _ hv)]
    exact Function.update_of_ne (h w List.mem_cons_self).symm _ _

/-- An address that is written holds the value written there, in whichever order the writes happen,
when every write to it has the same value. -/
theorem write_eq_of_mem {memory : ℤ → α} {writes : List (ℤ × α)} {x : ℤ} {v : α}
    (hmem : ∃ w ∈ writes, w.1 = x) (hv : ∀ w ∈ writes, w.1 = x → w.2 = v) :
    write memory writes x = v := by
  induction writes generalizing memory with
  | nil => simp at hmem
  | cons w writes ih =>
    have hv' : ∀ u ∈ writes, u.1 = x → u.2 = v := fun u hu ↦ hv u (List.mem_cons_of_mem _ hu)
    rw [write_cons]
    by_cases hlater : ∃ u ∈ writes, u.1 = x
    · exact ih hlater hv'
    · have hw : w.1 = x := by
        obtain ⟨u, hu, hux⟩ := hmem
        rcases List.mem_cons.1 hu with rfl | hu
        · exact hux
        · exact absurd ⟨u, hu, hux⟩ hlater
      rw [write_of_forall_ne fun u hu hux ↦ hlater ⟨u, hu, hux⟩, ← hw, Function.update_self]
      exact hv w List.mem_cons_self hw

/-! ### Launches -/

/-- What a launch does not determine: what fresh memory holds, and the order in which the programs
of a grid run. -/
structure Device (α : Type*) where
  fresh : ℤ → α
  order : List (ℕ × ℕ) → List (ℕ × ℕ)
  mem_order : ∀ {grid : List (ℕ × ℕ)} {p : ℕ × ℕ}, p ∈ order grid ↔ p ∈ grid

/-- The programs of an `m × n` grid. -/
def grid (m n : ℕ) : List (ℕ × ℕ) := List.range m ×ˢ List.range n

/-- The programs of a grid. -/
@[simp] theorem mem_grid {m n : ℕ} {p : ℕ × ℕ} : p ∈ grid m n ↔ p.1 < m ∧ p.2 < n := by
  rw [grid, List.mem_product, List.mem_range, List.mem_range]

/-- What a launch over an `m × n` grid leaves in fresh memory; `writes` is what one program
stores. -/
def Device.launch (d : Device α) (m n : ℕ) (writes : ℕ × ℕ → List (ℤ × α)) : ℤ → α :=
  write d.fresh ((d.order (grid m n)).flatMap writes)

/-- An address that some program of the grid stores to holds the value that all of them agree on. -/
theorem Device.launch_eq {d : Device α} {m n : ℕ} {writes : ℕ × ℕ → List (ℤ × α)} {x : ℤ} {v : α}
    (hmem : ∃ p, p.1 < m ∧ p.2 < n ∧ (x, v) ∈ writes p)
    (hv : ∀ p u, p.1 < m → p.2 < n → (x, u) ∈ writes p → u = v) : d.launch m n writes x = v := by
  refine write_eq_of_mem ?_ ?_
  · obtain ⟨p, hm, hn, hp⟩ := hmem
    exact ⟨(x, v), List.mem_flatMap.2 ⟨p, d.mem_order.2 (mem_grid.2 ⟨hm, hn⟩), hp⟩, rfl⟩
  · rintro ⟨_, u⟩ hw rfl
    obtain ⟨p, hp, hu⟩ := List.mem_flatMap.1 hw
    obtain ⟨hm, hn⟩ := mem_grid.1 (d.mem_order.1 hp)
    exact hv p u hm hn hu

/-! ### Launches that write every address once -/

/-- What a launch over a grid of programs `π` does not determine: what fresh memory holds, and the
order in which the programs run, each of them once. -/
structure Schedule (π α : Type*) where
  fresh : ℤ → α
  order : List π → List π
  perm_order : ∀ grid, (order grid).Perm grid

namespace Schedule

/-- The programs run last to first, over given memory. -/
def lastFirst {π : Type*} (fresh : ℤ → α) : Schedule π α where
  fresh
  order := List.reverse
  perm_order _ := List.reverse_perm _

variable {π : Type*} (d : Schedule π α) (programs : List π) (stores : π → List (ℤ × α))

/-- The writes of a launch, in the order in which they happen. -/
def trace : List (ℤ × α) := (d.order programs).flatMap stores

/-- What a launch leaves in fresh memory; `stores` is what one program writes. -/
def launch : ℤ → α := write d.fresh (d.trace programs stores)

variable {d programs stores} {x : ℤ} {v : α}

/-- Every schedule makes the same stores, in another order. -/
theorem perm_trace : (d.trace programs stores).Perm (programs.flatMap stores) :=
  (d.perm_order programs).flatMap_right _

/-- Where no address is written twice, what a program writes stays. -/
theorem launch_eq_of_nodup (hnodup : ((d.trace programs stores).map Prod.fst).Nodup)
    (hmem : (x, v) ∈ programs.flatMap stores) : d.launch programs stores x = v := by
  have hx : (x, v) ∈ d.trace programs stores := perm_trace.mem_iff.2 hmem
  refine write_eq_of_mem ⟨(x, v), hx, rfl⟩ fun w hw hwx ↦ ?_
  exact congrArg Prod.snd (List.inj_on_of_nodup_map hnodup hw hx hwx)

end Schedule

end Tile
