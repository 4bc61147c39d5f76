import Mathlib.Data.List.Infix
import Mathlib.Logic.Function.Basic
import NixStrixHalo.Library.Shell
import NixStrixHalo.Library.Transition

/-!
# The lifecycle of multikernel instances

An instance has a state in the kernel, moved by `kerf`, and a systemd unit, which prepares it once
and then remains active. `multikernelctl` moves both, but not together: `unload` takes the kernel
from an instance whose unit stays active, and after that neither `prepare` nor `start` loads it
again, until `delete` or `reset-pool` stops the unit. The lifecycle is as expected in every state of
a run exactly when no command does that (`lifecycle_iff`).

## The parts

`kerf` moves a status from a source to a target and fails anywhere else. The script of a unit
creates and loads an instance, and runs it where it is started at boot, each only if its status asks
for it. The scripts are
commands of `Shell` under `errexit`, and each command may also fail for reasons of its own
(`Faults`). `systemctl start` does nothing where the unit is active, which is how an unload goes
unnoticed.

## The invariant

`Prepared` says that declared instances have their kernel where their units are active. The boot
establishes it, and every event but such an unload keeps it: commands on one instance leave the
others alone (`SameElsewhere`), and an instance that panics keeps its kernel. In a state where it
fails for an instance, `prepare` succeeds and does not load it, so the lifecycle is as expected in
exactly the states that are prepared (`lifecycle_iff_prepared`).
-/

namespace Multikernel

open Shell

/-! ### Instances -/

/-- The status of an instance; an absent one has no directory. -/
inductive Status
  | absent
  | ready
  | loaded
  | active
  deriving DecidableEq

/-- The commands of `kerf` that move an instance. -/
inductive KerfOp
  | create
  | load
  | exec
  | kill
  | unload
  | delete
  deriving DecidableEq

/-- Where a command moves an instance, if it can. -/
def KerfOp.move : KerfOp → Status → Option Status
  | .create, .absent => some .ready
  | .load, .ready => some .loaded
  | .exec, .loaded => some .active
  | .kill, .active => some .loaded
  | .unload, .loaded => some .ready
  | .delete, .ready => some .absent
  | _, _ => none

/-- A declared instance. -/
structure Instance where
  name : String
  enable : Bool := true
  prepareAtBoot : Bool := false
  startAtBoot : Bool := false

/-- The options of the module. -/
structure Config where
  instances : List Instance
  poolPrepareAtBoot : Bool := false

/-- `enabledInstances`. -/
def Config.enabledInstances (cfg : Config) : List Instance := cfg.instances.filter Instance.enable

/-- `instanceNames`. -/
def Config.instanceNames (cfg : Config) : List String := cfg.enabledInstances.map Instance.name

/-- `knownNames`, the alternatives of a pattern. -/
def Config.knownNames (cfg : Config) : List String :=
  if cfg.instanceNames = [] then ["__no_declarative_instances__"] else cfg.instanceNames

/-- The option `startAtBoot` of an instance. -/
def Config.startsAtBoot (cfg : Config) (name : String) : Bool :=
  cfg.enabledInstances.any fun i ↦ i.name = name && i.startAtBoot

/-- The host: the instances in the kernel, and the units that are active. -/
structure Host where
  status : String → Status := fun _ ↦ .absent
  unitActive : String → Bool := fun _ ↦ false
  poolActive : Bool := false

/-- Which commands fail for reasons of their own: those of a unit, those of `multikernelctl`, and
`kerf init` in both. -/
structure Faults where
  unit : KerfOp → Bool := fun _ ↦ false
  ctl : KerfOp → Bool := fun _ ↦ false
  poolInit : Bool := false
  resetInit : Bool := false

def Host.setStatus (s : Host) (name : String) (status : Status) : Host :=
  { s with status := Function.update s.status name status }

def Host.setUnit (s : Host) (name : String) (active : Bool) : Host :=
  { s with unitActive := Function.update s.unitActive name active }

/-! ### The unit of an instance -/

/-- A command of `kerf`. -/
def kerf (fails : Bool) (op : KerfOp) (name : String) : Cmd Host :=
  .run fun s ↦
    match if fails then none else op.move (s.status name) with
    | some status => (0, s.setStatus name status)
    | none => (1, s)

/-- Whether the instance has this status. -/
def hasStatus (name : String) (status : Status) : Cmd Host := .test fun s ↦ s.status name = status

/-- The script of `multikernel-instance-<name>.service`. -/
def instanceScript (cfg : Config) (o : Faults) (name : String) : Cmd Host :=
  .block [
    .cond (hasStatus name .absent) (kerf (o.unit .create) .create name) (.status 0),
    .cond (hasStatus name .ready) (kerf (o.unit .load) .load name)
      (.cond (hasStatus name .loaded) (.status 0)
        (.cond (hasStatus name .active) (.status 0) (.status 1))),
    if cfg.startsAtBoot name then
      .cond (hasStatus name .loaded) (kerf (o.unit .exec) .exec name) (.status 0)
    else .status 0]

/-- `systemctl start` of the unit of an instance, which the enabled ones have. It does nothing where
the unit is active, and starts the unit of the pool before. -/
def systemctlStart (cfg : Config) (o : Faults) (name : String) : Cmd Host :=
  .run fun s ↦
    if name ∉ cfg.instanceNames then (5, s)
    else if s.unitActive name then (0, s)
    else if !s.poolActive && o.poolInit then (1, s)
    else
      match exec true (instanceScript cfg o name) { s with poolActive := true } with
      | (.done 0, s') => (0, s'.setUnit name true)
      | (_, s') => (1, s')

/-- `systemctl stop` of the unit of an instance. -/
def systemctlStop (cfg : Config) (name : String) : Cmd Host :=
  .run fun s ↦ if name ∉ cfg.instanceNames then (5, s) else (0, s.setUnit name false)

/-- `systemctl stop multikernel-pool.service`, which the units of the instances require. -/
def systemctlStopPool : Cmd Host :=
  .modify fun s ↦ { s with poolActive := false, unitActive := fun _ ↦ false }

/-! ### `multikernelctl` -/

/-- The commands that change something. -/
inductive Command
  | prepare (name : String)
  | start (name : String)
  | stop (name : String)
  | forceStop (name : String)
  | unload (name : String)
  | delete (name : String)
  | resetPool

/-- `require_instance`. -/
def requireInstance (cfg : Config) (name : String) : Cmd Host :=
  .status (if name ∈ cfg.knownNames then 0 else 2)

/-- `multikernelctl`. -/
def multikernelctl (cfg : Config) (o : Faults) : Command → Cmd Host
  | .prepare name => .seq (requireInstance cfg name) (systemctlStart cfg o name)
  | .start name =>
    .block [requireInstance cfg name, systemctlStart cfg o name, kerf (o.ctl .exec) .exec name]
  | .stop name => .seq (requireInstance cfg name) (kerf (o.ctl .kill) .kill name)
  | .forceStop name => .seq (requireInstance cfg name) (kerf (o.ctl .kill) .kill name)
  | .unload name => .seq (requireInstance cfg name) (kerf (o.ctl .unload) .unload name)
  | .delete name =>
    .block [requireInstance cfg name, kerf (o.ctl .delete) .delete name, systemctlStop cfg name]
  | .resetPool => .seq (.status (if o.resetInit then 1 else 0)) systemctlStopPool

/-- What changes the host: a command, or an instance that panics. -/
inductive Event
  | command (c : Command) (o : Faults)
  | panic (name : String)

/-- The host after an event. -/
def step (cfg : Config) (s : Host) : Event → Host
  | .command c o => (exec true (multikernelctl cfg o c) s).2
  | .panic name => if s.status name = .active then s.setStatus name .loaded else s

/-- The units of the instances that the boot starts. -/
def Config.wantedInstances (cfg : Config) : List Instance :=
  cfg.enabledInstances.filter fun i ↦ i.prepareAtBoot || i.startAtBoot

/-- The host after its boot, which starts the pool where it is wanted or a wanted unit requires
it. -/
def boot (cfg : Config) (poolFails : Bool) (o : String → Faults) : Host :=
  if poolFails then {}
  else
    cfg.wantedInstances.foldl
      (fun s i ↦ (exec true (systemctlStart cfg (o i.name) i.name) s).2)
      { poolActive := cfg.poolPrepareAtBoot || !cfg.wantedInstances.isEmpty }

/-- The host after these events. -/
def run (cfg : Config) (s : Host) (events : List Event) : Host := events.foldl (step cfg) s

/-! ### What the commands do -/

/-- The kernel of an instance is loaded, or runs. -/
def Status.hasKernel (status : Status) : Prop := status = .loaded ∨ status = .active

/-- An instance that is ready has no kernel yet. -/
theorem not_hasKernel_ready : ¬Status.ready.hasKernel := by
  rintro (h | h) <;> cases h

variable {cfg : Config} {o : Faults} {s s' : Host} {name name' : String} {op : KerfOp}
  {errexit : Bool} {n : ℕ}

/-- The instance gets the status. -/
@[simp]
theorem setStatus_status (s : Host) (name : String) (status : Status) :
    (s.setStatus name status).status name = status :=
  Function.update_self _ _ _

/-- The other instances keep their status. -/
theorem setStatus_status_of_ne (h : name' ≠ name) (s : Host) (status : Status) :
    (s.setStatus name status).status name' = s.status name' :=
  Function.update_of_ne h _ _

@[simp]
theorem setUnit_status (s : Host) (name : String) (active : Bool) :
    (s.setUnit name active).status = s.status := rfl

/-- The unit is switched. -/
@[simp]
theorem setUnit_unitActive (s : Host) (name : String) (active : Bool) :
    (s.setUnit name active).unitActive name = active :=
  Function.update_self _ _ _

/-- The other units are not. -/
theorem setUnit_unitActive_of_ne (h : name' ≠ name) (s : Host) (active : Bool) :
    (s.setUnit name active).unitActive name' = s.unitActive name' :=
  Function.update_of_ne h _ _

/-- The status that a command moves an instance from. -/
def KerfOp.source : KerfOp → Status
  | .create => .absent
  | .load => .ready
  | .exec => .loaded
  | .kill => .active
  | .unload => .loaded
  | .delete => .ready

/-- The status that a command moves an instance to. -/
def KerfOp.target : KerfOp → Status
  | .create => .ready
  | .load => .loaded
  | .exec => .active
  | .kill => .loaded
  | .unload => .ready
  | .delete => .absent

/-- Every command moves an instance from one status only. -/
theorem KerfOp.move_eq_some_iff {status status' : Status} :
    op.move status = some status' ↔ status = op.source ∧ op.target = status' := by
  cases op <;> cases status <;> simp [KerfOp.move, KerfOp.source, KerfOp.target]

/-- A command of `kerf` that does not fail moves the instance. -/
theorem exec_kerf_of_source (errexit : Bool) (h : s.status name = op.source) :
    exec errexit (kerf false op name) s = (.done 0, s.setStatus name op.target) := by
  have hmove : op.move (s.status name) = some op.target := KerfOp.move_eq_some_iff.2 ⟨h, rfl⟩
  rw [kerf, exec, if_neg Bool.false_ne_true, hmove]
  exact congrArg (·, s.setStatus name op.target) (raise_zero errexit)

/-- A command of `kerf` moves the instance, or fails and does nothing. -/
theorem exec_kerf_cases (errexit fails : Bool) (op : KerfOp) (name : String) (s : Host) :
    fails = false ∧ s.status name = op.source ∧
        exec errexit (kerf fails op name) s = (.done 0, s.setStatus name op.target) ∨
      (fails = false → s.status name ≠ op.source) ∧
        exec errexit (kerf fails op name) s = (raise errexit 1, s) := by
  rcases fails with _ | _
  · by_cases hsource : s.status name = op.source
    · exact Or.inl ⟨rfl, hsource, exec_kerf_of_source errexit hsource⟩
    · have hmove : op.move (s.status name) = none :=
        Option.eq_none_iff_forall_ne_some.2 fun _ hsome ↦
          hsource (KerfOp.move_eq_some_iff.1 hsome).1
      refine Or.inr ⟨fun _ ↦ hsource, ?_⟩
      rw [kerf, exec, if_neg Bool.false_ne_true, hmove]
  · exact Or.inr ⟨(fun h ↦ by cases h), rfl⟩

/-- A successful command of `kerf` leaves the instance where the command moves it. -/
theorem status_eq_target_of_exec_kerf {fails : Bool}
    (h : exec true (kerf fails op name) s = (.done n, s')) : s'.status name = op.target := by
  rcases exec_kerf_cases true fails op name s with ⟨-, -, hexec⟩ | ⟨-, hexec⟩
  · rw [hexec] at h
    obtain ⟨-, rfl⟩ := Prod.mk.inj h
    exact setStatus_status s name op.target
  · rw [hexec] at h
    cases h

/-- A test of the status chooses the branch. -/
theorem exec_hasStatus (a b : Cmd Host) (status : Status) (s : Host) :
    exec errexit (.cond (hasStatus name status) a b) s =
      if s.status name = status then exec errexit a s else exec errexit b s := by
  rw [hasStatus, exec_cond_test, if_congr decide_eq_true_iff rfl rfl]

/-- The parts of the host that the script of another instance does not change. -/
structure SameElsewhere (name : String) (s s' : Host) : Prop where
  unitActive : s'.unitActive = s.unitActive
  status : ∀ name', name' ≠ name → s'.status name' = s.status name'

/-- `kerf` works on its own instance only. -/
theorem sameElsewhere_kerf (errexit fails : Bool) (op : KerfOp) {s₀ : Host}
    (h : SameElsewhere name s₀ s) :
    SameElsewhere name s₀ (exec errexit (kerf fails op name) s).2 := by
  rcases exec_kerf_cases errexit fails op name s with ⟨-, -, hexec⟩ | ⟨-, hexec⟩
  · rw [hexec]
    exact ⟨h.unitActive, fun name' hne ↦
      (setStatus_status_of_ne hne s op.target).trans (h.status name' hne)⟩
  · rw [hexec]
    exact h

/-- The script of an instance changes that instance only. -/
theorem sameElsewhere_instanceScript (cfg : Config) (o : Faults) (name : String) (s : Host) :
    SameElsewhere name s (exec true (instanceScript cfg o name) s).2 := by
  refine exec_induction (P := SameElsewhere name s) _ ?_ true ⟨rfl, fun _ _ ↦ rfl⟩
  have hkerf : ∀ fails op, (kerf fails op name).All fun f ↦
      ∀ s', SameElsewhere name s s' → SameElsewhere name s (f s').2 :=
    fun fails op s' hs' ↦ sameElsewhere_kerf false fails op hs'
  have hread : ∀ (p : Host → Bool), (Cmd.test p).All fun f ↦
      ∀ s', SameElsewhere name s s' → SameElsewhere name s (f s').2 := fun p s' hs' ↦ hs'
  have hstatus : ∀ n, (Cmd.status n : Cmd Host).All fun f ↦
      ∀ s', SameElsewhere name s s' → SameElsewhere name s (f s').2 := fun n s' hs' ↦ hs'
  refine ⟨⟨hread _, hkerf _ _, hstatus _⟩, ⟨hread _, hkerf _ _, hread _, hstatus _, hread _,
    hstatus _, hstatus _⟩, ?_⟩
  rw [Cmd.block]
  split
  · exact ⟨hread _, hkerf _ _, hstatus _⟩
  · exact hstatus _

/-- When the script of an instance succeeds, the instance has its kernel. -/
theorem hasKernel_of_instanceScript (h : exec true (instanceScript cfg o name) s = (.done 0, s')) :
    (s'.status name).hasKernel := by
  obtain ⟨-, s₁, -, h⟩ := exec_seq_eq_done_iff.1 h
  obtain ⟨m, s₂, hload, h⟩ := exec_seq_eq_done_iff.1 h
  -- the kernel is there once the `case` on the status is behind, whose other branch exits
  have hloaded : (s₂.status name).hasKernel := by
    simp only [exec_hasStatus] at hload
    split at hload
    · exact Or.inl (status_eq_target_of_exec_kerf hload)
    · split at hload
      next hl =>
        obtain ⟨-, rfl⟩ := Prod.mk.inj hload
        exact Or.inl hl
      · split at hload
        next ha =>
          obtain ⟨-, rfl⟩ := Prod.mk.inj hload
          exact Or.inr ha
        · cases hload
  rw [exec_block_singleton] at h
  split at h
  · rw [exec_hasStatus] at h
    split at h
    · exact Or.inr (status_eq_target_of_exec_kerf h)
    · obtain ⟨-, rfl⟩ := Prod.mk.inj h
      exact hloaded
  · obtain ⟨-, rfl⟩ := Prod.mk.inj h
    exact hloaded

/-- Without faults the script of an instance succeeds. -/
theorem exec_instanceScript_faultless (cfg : Config) (name : String) (s : Host) :
    ∃ s', exec true (instanceScript cfg {} name) s = (.done 0, s') := by
  have hcreate : ∃ s₁, s₁.status name ≠ .absent ∧
      exec true (.cond (hasStatus name .absent) (kerf false .create name) (.status 0)) s =
        (.done 0, s₁) := by
    rw [exec_hasStatus]
    split
    next habsent =>
      refine ⟨_, ?_, exec_kerf_of_source true habsent⟩
      rw [setStatus_status]
      exact fun h ↦ by cases h
    next hpresent => exact ⟨s, hpresent, rfl⟩
  obtain ⟨s₁, hpresent, hcreate⟩ := hcreate
  -- what exists is ready, loaded or active, so the last test does not fail
  have hload : ∃ s₂, exec true (.cond (hasStatus name .ready) (kerf false .load name)
      (.cond (hasStatus name .loaded) (.status 0)
        (.cond (hasStatus name .active) (.status 0) (.status 1)))) s₁ = (.done 0, s₂) := by
    simp only [exec_hasStatus]
    split
    next hready => exact ⟨_, exec_kerf_of_source true hready⟩
    next hready =>
      split
      · exact ⟨s₁, rfl⟩
      next hloaded =>
        rw [if_pos ?_]
        · exact ⟨s₁, rfl⟩
        · rcases hs₁ : s₁.status name with _ | _ | _ | _
          · exact absurd hs₁ hpresent
          · exact absurd hs₁ hready
          · exact absurd hs₁ hloaded
          · rfl
  obtain ⟨s₂, hload⟩ := hload
  rw [instanceScript, exec_block_of_done hcreate, exec_block_of_done hload, exec_block_singleton]
  split
  · rw [exec_hasStatus]
    split
    next hloaded => exact ⟨_, exec_kerf_of_source true hloaded⟩
    · exact ⟨s₂, rfl⟩
  · exact ⟨s₂, rfl⟩

/-! ### Prepared instances -/

/-- Where the unit of an instance is active, the instance has its kernel. -/
def PreparedAt (s : Host) (name : String) : Prop :=
  s.unitActive name → (s.status name).hasKernel

/-- The declared instances are prepared where their units are active. -/
def Prepared (cfg : Config) (s : Host) : Prop := ∀ name ∈ cfg.instanceNames, PreparedAt s name

/-- What another instance is prepared for is not touched. -/
theorem SameElsewhere.preparedAt (h : SameElsewhere name s s') (hne : name' ≠ name)
    (hs : PreparedAt s name') : PreparedAt s' name' := by
  intro hactive
  rw [h.status name' hne]
  rw [h.unitActive] at hactive
  exact hs hactive

/-- Switching the unit of one instance does not touch another one. -/
theorem preparedAt_setUnit_of_ne (hne : name' ≠ name) (active : Bool) (hs : PreparedAt s name') :
    PreparedAt (s.setUnit name active) name' := by
  intro hactive
  rw [setUnit_unitActive_of_ne hne] at hactive
  exact hs hactive

/-- A command of `kerf` keeps the instances prepared, unless it takes the kernel from one whose unit
is active. -/
theorem prepared_kerf (errexit fails : Bool) (op : KerfOp) (name : String) (hs : Prepared cfg s)
    (hop : fails = false → s.status name = op.source → name ∈ cfg.instanceNames →
      s.unitActive name → op.target.hasKernel) :
    Prepared cfg (exec errexit (kerf fails op name) s).2 := by
  intro name' hname'
  by_cases hne : name' = name
  · subst hne
    rcases exec_kerf_cases errexit fails op name' s with ⟨hfails, hsource, hexec⟩ | ⟨-, hexec⟩
    · rw [hexec]
      intro hactive
      rw [setStatus_status]
      exact hop hfails hsource hname' hactive
    · rw [hexec]
      exact hs name' hname'
  · have hframe : SameElsewhere name s (exec errexit (kerf fails op name) s).2 :=
      sameElsewhere_kerf errexit fails op ⟨rfl, fun _ _ ↦ rfl⟩
    exact hframe.preparedAt hne (hs name' hname')

/-- What `systemctl start` does: it fails before the script, or the unit is active already, or the
script runs and the unit is active afterwards if that succeeds. -/
theorem exec_systemctlStart_cases (cfg : Config) (o : Faults) (name : String) (s : Host) :
    (name ∈ cfg.instanceNames → o.poolInit) ∧
        (∃ n, exec true (systemctlStart cfg o name) s = (.exited n, s)) ∨
      s.unitActive name ∧ exec true (systemctlStart cfg o name) s = (.done 0, s) ∨
      s.unitActive name = false ∧ ∃ r s', SameElsewhere name s s' ∧
        exec true (instanceScript cfg o name) { s with poolActive := true } = (r, s') ∧
        (r = .done 0 ∧ exec true (systemctlStart cfg o name) s = (.done 0, s'.setUnit name true) ∨
          r ≠ .done 0 ∧ exec true (systemctlStart cfg o name) s = (.exited 1, s')) := by
  by_cases hdeclared : name ∈ cfg.instanceNames
  swap
  · refine Or.inl ⟨fun h ↦ absurd h hdeclared, 5, ?_⟩
    rw [systemctlStart, exec, if_pos hdeclared, raise_true (Nat.succ_ne_zero _)]
  rcases hactive : s.unitActive name with _ | _
  swap
  · refine Or.inr (Or.inl ⟨rfl, ?_⟩)
    rw [systemctlStart, exec, if_neg (not_not.2 hdeclared), if_pos hactive, raise_zero]
  have hinactive : ¬s.unitActive name = true := by
    rw [hactive]
    exact Bool.false_ne_true
  by_cases hpool : (!s.poolActive && o.poolInit) = true
  · refine Or.inl ⟨fun _ ↦ (Bool.and_eq_true_iff.1 hpool).2, 1, ?_⟩
    rw [systemctlStart, exec, if_neg (not_not.2 hdeclared), if_neg hinactive, if_pos hpool,
      raise_true (Nat.succ_ne_zero _)]
  have hframe := sameElsewhere_instanceScript cfg o name
    { s with poolActive := true }
  rcases hscript : exec true (instanceScript cfg o name) { s with poolActive := true } with ⟨r, s'⟩
  rw [hscript] at hframe
  refine Or.inr (Or.inr ⟨rfl, r, s', ⟨hframe.unitActive, hframe.status⟩, rfl, ?_⟩)
  rw [systemctlStart, exec, if_neg (not_not.2 hdeclared), if_neg hinactive, if_neg hpool, hscript]
  rcases r with (_ | n) | n | n
  · exact Or.inl ⟨rfl, rfl⟩
  · exact Or.inr ⟨(fun hr ↦ by cases hr), rfl⟩
  · exact Or.inr ⟨(fun hr ↦ by cases hr), rfl⟩
  · exact Or.inr ⟨(fun hr ↦ by cases hr), rfl⟩

/-- A successful `systemctl start` leaves the instance with its kernel. -/
theorem hasKernel_of_systemctlStart (hs : PreparedAt s name)
    (h : exec true (systemctlStart cfg o name) s = (.done 0, s')) : (s'.status name).hasKernel := by
  rcases exec_systemctlStart_cases cfg o name s with ⟨-, n, hexec⟩ | ⟨hactive, hexec⟩ |
    ⟨-, r, s₁, -, hscript, ⟨rfl, hexec⟩ | ⟨-, hexec⟩⟩
  · rw [hexec] at h
    cases h
  · rw [hexec] at h
    obtain ⟨-, rfl⟩ := Prod.mk.inj h
    exact hs hactive
  · rw [hexec] at h
    obtain ⟨-, rfl⟩ := Prod.mk.inj h
    rw [setUnit_status]
    exact hasKernel_of_instanceScript hscript
  · rw [hexec] at h
    cases h

/-- Without faults `systemctl start` succeeds. -/
theorem exec_systemctlStart_faultless (h : name ∈ cfg.instanceNames) (s : Host) :
    ∃ s', exec true (systemctlStart cfg {} name) s = (.done 0, s') := by
  rcases exec_systemctlStart_cases cfg {} name s with ⟨hpool, -⟩ | ⟨-, hexec⟩ |
    ⟨-, r, s₁, -, hscript, ⟨-, hexec⟩ | ⟨hr, -⟩⟩
  · exact absurd (hpool h) Bool.false_ne_true
  · exact ⟨_, hexec⟩
  · exact ⟨_, hexec⟩
  · obtain ⟨s₂, hdone⟩ := exec_instanceScript_faultless cfg name { s with poolActive := true }
    rw [hdone] at hscript
    exact absurd (Prod.mk.inj hscript).1.symm hr

/-- `systemctl start` keeps the instances prepared. -/
theorem prepared_systemctlStart (o : Faults) (name : String) (hs : Prepared cfg s) :
    Prepared cfg (exec true (systemctlStart cfg o name) s).2 := by
  rcases exec_systemctlStart_cases cfg o name s with ⟨-, n, hexec⟩ | ⟨-, hexec⟩ |
    ⟨hinactive, r, s', hframe, hscript, ⟨rfl, hexec⟩ | ⟨-, hexec⟩⟩
  · rw [hexec]
    exact hs
  · rw [hexec]
    exact hs
  · rw [hexec]
    intro name' hname'
    by_cases hne : name' = name
    · subst hne
      have hkernel := hasKernel_of_instanceScript hscript
      exact fun _ ↦ hkernel
    · exact preparedAt_setUnit_of_ne hne true (hframe.preparedAt hne (hs name' hname'))
  -- the unit of a failed script is not active
  · rw [hexec]
    intro name' hname'
    by_cases hne : name' = name
    · subst hne
      intro hactive
      rw [hframe.unitActive, hinactive] at hactive
      cases hactive
    · exact hframe.preparedAt hne (hs name' hname')

/-! ### Runs -/

/-- A command that does not take the kernel from an instance whose unit is active: no `unload` moves
a loaded one to `ready`. -/
def KeepsPrepared (cfg : Config) (s : Host) : Event → Prop
  | .command (.unload name) o =>
    ¬(name ∈ cfg.instanceNames ∧ o.ctl .unload = false ∧ s.status name = .loaded ∧
      s.unitActive name)
  | _ => True

/-- The lifecycle in a state: a successful `prepare` leaves the instance loaded or active, and a
successful `start` leaves it active, as does every `start` that meets no fault. -/
structure Lifecycle (cfg : Config) (s : Host) : Prop where
  prepare : ∀ name ∈ cfg.instanceNames, ∀ o s',
    exec true (multikernelctl cfg o (.prepare name)) s = (.done 0, s') → (s'.status name).hasKernel
  start : ∀ name ∈ cfg.instanceNames, ∀ o s',
    exec true (multikernelctl cfg o (.start name)) s = (.done 0, s') → s'.status name = .active
  startFaultless : ∀ name ∈ cfg.instanceNames,
    (exec true (multikernelctl cfg {} (.start name)) s).2.status name = .active

/-- A configured instance is known. -/
theorem mem_knownNames (h : name ∈ cfg.instanceNames) : name ∈ cfg.knownNames := by
  rw [Config.knownNames, if_neg (List.ne_nil_of_mem h)]
  exact h

/-- The name of an instance is checked first. -/
theorem exec_requireInstance_seq (cfg : Config) (name : String) (b : Cmd Host) (s : Host) :
    exec true (.seq (requireInstance cfg name) b) s =
      if name ∈ cfg.knownNames then exec true b s else (.exited 2, s) := by
  by_cases hknown : name ∈ cfg.knownNames
  · have hrequire : exec true (requireInstance cfg name) s = (.done 0, s) := by
      rw [requireInstance, if_pos hknown, exec_status, raise_zero]
    rw [exec_seq_of_done hrequire, if_pos hknown]
  · have hrequire : exec true (requireInstance cfg name) s = (.exited 2, s) := by
      rw [requireInstance, if_neg hknown, exec_status, raise_true (by decide)]
    rw [exec_seq_of_exited hrequire, if_neg hknown]

/-- A command on an unknown instance exits with status 2. -/
theorem exec_requireInstance_block (cfg : Config) (name : String) (b : Cmd Host)
    (l : List (Cmd Host)) (s : Host) :
    exec true (.block (requireInstance cfg name :: b :: l)) s =
      if name ∈ cfg.knownNames then exec true (.block (b :: l)) s else (.exited 2, s) :=
  exec_requireInstance_seq cfg name (.block (b :: l)) s

/-- `kerf exec` runs a kernel that is loaded, and fails on one that runs already. -/
theorem status_exec_kerf_exec (errexit : Bool) (h : (s.status name).hasKernel) :
    (exec errexit (kerf false .exec name) s).2.status name = .active := by
  rcases exec_kerf_cases errexit false .exec name s with ⟨-, -, hexec⟩ | ⟨hloaded, hexec⟩
  · rw [hexec, setStatus_status, KerfOp.target]
  · rw [hexec]
    exact h.resolve_left (hloaded rfl)

/-- The lifecycle is as expected in the states where the active units have prepared their
instances. -/
theorem lifecycle_iff_prepared : Lifecycle cfg s ↔ Prepared cfg s := by
  constructor
  · intro h name hname hactive
    have hstart : exec true (systemctlStart cfg {} name) s = (.done 0, s) := by
      rw [systemctlStart, exec, if_neg (not_not.2 hname), if_pos hactive, raise_zero]
    refine h.prepare name hname {} s ?_
    rw [multikernelctl, exec_requireInstance_seq, if_pos (mem_knownNames hname), hstart]
  · intro hs
    refine ⟨fun name hname o s' h ↦ ?_, fun name hname o s' h ↦ ?_, fun name hname ↦ ?_⟩
    · rw [multikernelctl, exec_requireInstance_seq, if_pos (mem_knownNames hname)] at h
      exact hasKernel_of_systemctlStart (hs name hname) h
    · obtain ⟨-, s₁, -, h⟩ := exec_seq_eq_done_iff.1 h
      obtain ⟨-, s₂, -, h⟩ := exec_seq_eq_done_iff.1 h
      exact status_eq_target_of_exec_kerf h
    · obtain ⟨s₁, hstart⟩ := exec_systemctlStart_faultless hname s
      have hkernel := hasKernel_of_systemctlStart (hs name hname) hstart
      rw [multikernelctl, exec_requireInstance_block, if_pos (mem_knownNames hname),
        exec_block_of_done hstart, exec_block_singleton]
      exact status_exec_kerf_exec true hkernel

/-- After a boot, the declared instances are prepared where their units are active. -/
theorem prepared_boot (cfg : Config) (poolFails : Bool) (o : String → Faults) :
    Prepared cfg (boot cfg poolFails o) := by
  rw [boot]
  split
  · intro name _ hactive
    cases hactive
  · refine List.foldlRecOn _ _ (motive := Prepared cfg) ?_ ?_
    · intro name _ hactive
      cases hactive
    · exact fun s hs i _ ↦ prepared_systemctlStart (o i.name) i.name hs

/-- Stopping a unit keeps the instances prepared. -/
theorem prepared_systemctlStop (name : String) (hs : Prepared cfg s) :
    Prepared cfg (exec true (systemctlStop cfg name) s).2 := by
  rw [systemctlStop, exec]
  split
  · exact hs
  · intro name' hname'
    by_cases hne : name' = name
    · subst hne
      intro hactive
      rw [setUnit_unitActive] at hactive
      cases hactive
    · exact preparedAt_setUnit_of_ne hne false (hs name' hname')

/-- Where the name is not known the command does nothing. -/
theorem prepared_requireInstance {b : Cmd Host} (hs : Prepared cfg s)
    (hb : Prepared cfg (exec true b s).2) :
    Prepared cfg (exec true (.seq (requireInstance cfg name) b) s).2 := by
  rw [exec_requireInstance_seq]
  split
  · exact hb
  · exact hs

/-- A panic keeps the instances prepared. -/
theorem prepared_panic (name : String) (hs : Prepared cfg s) :
    Prepared cfg (s.setStatus name .loaded) := by
  intro name' hname' hactive
  by_cases hne : name' = name
  · subst hne
    rw [setStatus_status]
    exact Or.inl rfl
  · rw [setStatus_status_of_ne hne]
    exact hs name' hname' hactive

/-- One event keeps the instances prepared. -/
theorem prepared_step {a : Event} (ha : KeepsPrepared cfg s a) (hs : Prepared cfg s) :
    Prepared cfg (step cfg s a) := by
  have hstop : ∀ fails name, Prepared cfg (exec true (kerf fails .kill name) s).2 :=
    fun fails name ↦ prepared_kerf true fails .kill name hs fun _ _ _ _ ↦ Or.inl rfl
  rcases a with ⟨c, o⟩ | name
  · cases c with
    | prepare name => exact prepared_requireInstance hs (prepared_systemctlStart o name hs)
    | start name =>
      have hstart := prepared_systemctlStart o name hs
      refine prepared_requireInstance hs (exec_seq_induction hstart fun s₁ hs₁ ↦ ?_)
      exact prepared_kerf true _ .exec name hs₁ fun _ _ _ _ ↦ Or.inr rfl
    | stop name => exact prepared_requireInstance hs (hstop _ name)
    | forceStop name => exact prepared_requireInstance hs (hstop _ name)
    | unload name =>
      refine prepared_requireInstance hs (prepared_kerf true _ .unload name hs ?_)
      intro hfails hloaded hname hactive
      exact absurd ⟨hname, hfails, hloaded, hactive⟩ ha
    | delete name =>
      -- an instance that is ready has no kernel, and its unit is not active
      have hdelete : Prepared cfg (exec true (kerf (o.ctl .delete) .delete name) s).2 := by
        refine prepared_kerf true _ .delete name hs fun _ hready hname hactive ↦ ?_
        have hkernel := hs name hname hactive
        rw [hready] at hkernel
        exact absurd hkernel not_hasKernel_ready
      refine prepared_requireInstance hs (exec_seq_induction hdelete fun s₁ hs₁ ↦ ?_)
      exact prepared_systemctlStop name hs₁
    | resetPool =>
      refine exec_seq_induction hs fun s₁ hs₁ name hname hactive ↦ ?_
      cases hactive
  · rw [step]
    split
    · exact prepared_panic name hs
    · exact hs

/-- A command that takes the kernel from an instance whose unit is active leaves it unprepared. -/
theorem not_prepared_step {a : Event} (ha : ¬KeepsPrepared cfg s a) :
    ¬Prepared cfg (step cfg s a) := by
  rcases a with ⟨c, o⟩ | name
  · cases c with
    | unload name =>
      obtain ⟨hname, hfails, hloaded, hactive⟩ := not_not.1 ha
      rw [step, multikernelctl, exec_requireInstance_seq, if_pos (mem_knownNames hname), hfails,
        exec_kerf_of_source true hloaded]
      intro hs
      have hkernel := hs name hname hactive
      rw [setStatus_status] at hkernel
      exact not_hasKernel_ready hkernel
    | _ => exact absurd trivial ha
  · exact absurd trivial ha

/-- **The lifecycle over runs**: it is as expected in every state of a run, whatever fails and
whatever panics, exactly when no command of the run takes the kernel from an instance whose unit is
active. -/
theorem lifecycle_iff (cfg : Config) (poolFails : Bool) (o : String → Faults)
    (events : List Event) :
    (∀ bs, bs <+: events → Lifecycle cfg (run cfg (boot cfg poolFails o) bs)) ↔
      ∀ bs a, bs ++ [a] <+: events → KeepsPrepared cfg (run cfg (boot cfg poolFails o) bs) a := by
  simp only [lifecycle_iff_prepared]
  refine Transition.forall_prefix_foldl_iff (prepared_boot cfg poolFails o) fun s a hs ↦ ?_
  exact ⟨fun hafter ↦ by_contra fun ha ↦ not_prepared_step ha hafter, fun ha ↦ prepared_step ha hs⟩

/-- One instance, which nothing prepares at boot. -/
def oneInstance : Config := { instances := [{ name := "blue" }] }

/-- An instance is prepared and unloaded: its unit is active still, so that the next `prepare`
succeeds and leaves it ready. -/
theorem not_lifecycle_unloaded :
    ¬ Lifecycle oneInstance (run oneInstance (boot oneInstance false fun _ ↦ {})
      [.command (.prepare "blue") {}, .command (.unload "blue") {}]) := by
  intro h
  have hkernel := lifecycle_iff_prepared.1 h "blue" (by decide) (by decide)
  have hready : (run oneInstance (boot oneInstance false fun _ ↦ {})
      [.command (.prepare "blue") {}, .command (.unload "blue") {}]).status "blue" = .ready := by
    decide
  rw [hready] at hkernel
  exact not_hasKernel_ready hkernel

end Multikernel
