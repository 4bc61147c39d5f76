import NixStrixHalo.Library.Transition
import NixStrixHalo.TheRock.CoherentWheels

/-!
# The wheel pin file over its runs

`python-wheels.json` is rewritten by runs of `update-python-wheels.py` and by `refresh`, which runs
it once for each target with the series that the file has for that target. `Pinned` is what a
refresh relies on: every target has a series and a ROCm version in it. Runs that choose the version
themselves keep it, and so do runs that are given a version together with its series
(`pinned_of_reach`); a run that is given a version alone stores no series at all.

## How a refresh fails

A target without a series makes `refresh` pass `None` as an argument, which is a `TypeError` of
`subprocess.run` and not a run that fails. A run that does fail ends the refresh, and what was
written for the targets before stays.

## The proof

What one turn of the loop keeps is in `refreshLoop_spec`: the targets to come are those of the first
file, and the entries of the others are not changed by a run (`exists_entry_of_main`).
-/

namespace TheRock

/-! ### Refreshing the file -/

/-- How a refresh ends early: `subprocess.run` raises a `TypeError` for an argument that is `None`,
and a `CalledProcessError` when the run fails. -/
inductive RefreshError
  | valueError (message : String)
  | typeError
  | calledProcessError
  deriving DecidableEq

/-- The turns of the loop of `refresh`, over the targets that the file had at its start. A world for
each target says what that run gets. -/
def refreshLoop (w : String → World) : List (String × TargetSources) → Sources →
    Sources × Option RefreshError
  | [], sources => (sources, none)
  | (target, pin) :: rest, sources =>
    match pin.series with
    | none => (sources, some .typeError)
    | some series =>
      match main (w target) { target, series := some series } sources with
      | .error _ => (sources, some .calledProcessError)
      | .ok out => refreshLoop w rest out

/-- `refresh("python-wheels")`: the file it leaves, and how it ends early. -/
def refresh (w : String → World) (sources : Sources) : Sources × Option RefreshError :=
  if sources.targets = [] then
    (sources, some (.valueError "no targets configured in python-wheels.json"))
  else refreshLoop w (sources.targets.insertionSort fun p q ↦ p.1.toList ≤ q.1.toList) sources

/-- What rewrites the file. -/
inductive Rewrite
  | update (w : World) (args : Args)
  | refresh (w : String → World)

/-- The successful runs. A refresh that ends early leaves what it has written. -/
def rewrite (sources : Sources) : Rewrite → Option Sources
  | .update w args => (main w args sources).toOption
  | .refresh w => some (refresh w sources).1

/-! ### What a refresh relies on -/

/-- The target has a series, and its ROCm version is in it. -/
def TargetSources.InSeries (target : TargetSources) : Prop :=
  ∃ series, target.series = some series ∧ inRocmSeries target.rocmVersion series

/-- Every target of the file is in a series of its own. -/
structure Pinned (sources : Sources) : Prop where
  nodup : OrderedDict.NodupKeys sources.targets
  inSeries : ∀ p ∈ sources.targets, p.2.InSeries

/-- Every target has kept its series, with a version in it. -/
def KeepsSeries (sources out : Sources) : Prop :=
  ∀ p ∈ sources.targets, ∃ target, OrderedDict.get? out.targets p.1 = some target ∧
    target.series = p.2.series ∧ target.InSeries

/-- A version that is given comes with a series that it is in. -/
def Rewrite.GivesSeries : Rewrite → Prop
  | .update _ args => ∀ version, truthy args.rocmVersion = some version →
      ∃ series, args.series = some series ∧ inRocmSeries version series
  | .refresh _ => True

theorem pinned_empty : Pinned {} where
  nodup := List.nodup_nil
  inSeries := nofun

theorem Pinned.keepsSeries {sources : Sources} (h : Pinned sources) :
    KeepsSeries sources sources :=
  fun p hp ↦ ⟨p.2, h.nodup.get?_eq_some_iff.2 hp, rfl, h.inSeries p hp⟩

/-- A run writes one entry. Its version is in its series if the command line gives none, or one in
the series that it gives. -/
theorem exists_entry_of_main {w : World} {args : Args} {sources out : Sources}
    (h : main w args sources = .ok out) (hgives : (Rewrite.update w args).GivesSeries) :
    ∃ entry, out.targets = OrderedDict.insert args.target entry sources.targets ∧
      entry.series = args.resolvedSeries sources ∧ entry.InSeries := by
  obtain ⟨pythonTag, d, rocmVersion, pins, -, hd, hr, -, rfl⟩ := main_eq_ok_iff.1 h
  refine ⟨_, rfl, rfl, ?_⟩
  obtain ⟨_, -, hselect⟩ := isSelected_of_selectRocmVersion hd hr
  rcases hselect with hgiven | ⟨-, series, hseries, hnewest⟩
  · obtain ⟨series, hseries, hin⟩ := hgives rocmVersion hgiven
    refine ⟨series, ?_, hin⟩
    change args.resolvedSeries sources = some series
    rw [Args.resolvedSeries, if_neg fun hnone ↦ by simp [hgiven] at hnone, hseries]
  · obtain ⟨⟨p, hp, htag⟩, hall⟩ := hnewest.1
    exact ⟨series, hseries, (mem_projectVersions.1 (hall p hp htag)).2⟩

theorem Pinned.update {sources out : Sources} {target : String} {entry : TargetSources}
    (h : Pinned sources) (hentry : entry.InSeries)
    (hout : out.targets = OrderedDict.insert target entry sources.targets) : Pinned out where
  nodup := hout ▸ h.nodup.insert target entry
  inSeries p hp := by
    rw [hout] at hp
    rcases OrderedDict.mem_insert hp with rfl | hp
    · exact hentry
    · exact h.inSeries p hp

/-- A series that a version is in is not empty, so the command line can carry it. -/
theorem truthy_of_inRocmSeries {version series : String} (h : inRocmSeries version series) :
    truthy (some series) = some series := by
  rw [truthy, Option.filter_some, if_pos]
  refine decide_eq_true fun hempty ↦ ?_
  subst hempty
  exact absurd h (by simp [inRocmSeries, isDigits])

/-- What the turns of the loop keep; `start` is the file that the loop reads its targets from. -/
theorem refreshLoop_spec (w : String → World) {start sources : Sources} (hstart : Pinned start)
    {l : List (String × TargetSources)} (hl : ∀ p ∈ l, p ∈ start.targets) (h : Pinned sources)
    (hkeeps : KeepsSeries start sources) :
    Pinned (refreshLoop w l sources).1 ∧ KeepsSeries start (refreshLoop w l sources).1 ∧
      (refreshLoop w l sources).2 ≠ some .typeError := by
  induction l generalizing sources with
  | nil => exact ⟨h, hkeeps, by simp [refreshLoop]⟩
  | cons p l ih =>
    obtain ⟨target, pin⟩ := p
    obtain ⟨hp, hl⟩ := List.forall_mem_cons.1 hl
    obtain ⟨series, hseries, hin⟩ := hstart.inSeries _ hp
    rw [refreshLoop, hseries]
    dsimp only
    rcases hmain : main (w target) { target, series := some series } sources with e | out
    · exact ⟨h, hkeeps, by simp⟩
    · obtain ⟨entry, hout, hentrySeries, hentry⟩ := exists_entry_of_main hmain nofun
      have hseries' : entry.series = pin.series := by
        rw [hentrySeries, Args.resolvedSeries, if_neg, hseries]
        rw [truthy_of_inRocmSeries hin]
        exact fun hnone ↦ Option.some_ne_none _ hnone.1
      refine ih hl (h.update hentry hout) fun q hq ↦ ?_
      rw [hout]
      by_cases hkey : q.1 = target
      · -- the keys are distinct, so this is the entry of the target that was refreshed
        have hq' : q.2 = pin := by
          have hget := hstart.nodup.get?_eq_some_iff.2 (show (q.1, q.2) ∈ start.targets from hq)
          rw [hkey, hstart.nodup.get?_eq_some_iff.2 hp] at hget
          exact (Option.some.inj hget).symm
        exact ⟨entry, hkey ▸ OrderedDict.get?_insert_self _ _ _, hq' ▸ hseries', hentry⟩
      · obtain ⟨kept, hget, hkept⟩ := hkeeps q hq
        exact ⟨kept, (OrderedDict.get?_insert_of_ne hkey _ _).trans hget, hkept⟩

/-- **A refresh of a pinned file** passes a string for every series and keeps every target in its
own. -/
theorem Pinned.refresh {sources : Sources} (h : Pinned sources) (w : String → World) :
    Pinned (refresh w sources).1 ∧ KeepsSeries sources (refresh w sources).1 ∧
      (refresh w sources).2 ≠ some .typeError := by
  rw [TheRock.refresh]
  split
  · exact ⟨h, h.keepsSeries, by simp⟩
  · exact refreshLoop_spec w h (fun p hp ↦ (List.mem_insertionSort _).1 hp) h h.keepsSeries

/-! ### Runs -/

/-- One rewrite keeps the file pinned. -/
theorem Pinned.rewrite {sources out : Sources} {r : Rewrite} (h : Pinned sources)
    (hgives : r.GivesSeries) (hout : rewrite sources r = some out) : Pinned out := by
  cases r with
  | update w args =>
    have hmain : main w args sources = .ok out := by
      rcases hm : main w args sources with e | out'
      · simp [TheRock.rewrite, hm, Except.toOption] at hout
      · simpa [TheRock.rewrite, hm, Except.toOption] using hout
    obtain ⟨entry, htargets, -, hentry⟩ := exists_entry_of_main hmain hgives
    exact h.update hentry htargets
  | refresh w =>
    obtain rfl : (TheRock.refresh w sources).1 = out := Option.some.inj hout
    exact (h.refresh w).1

/-- **The pin file over runs**: when every version that is given comes with its series, every target
of every file reached has a series with its version in it, and a refresh can be run on the file and
keeps every target in its series. -/
theorem pinned_of_reach {sources : Sources}
    (h : Transition.Reach rewrite (fun _ r ↦ r.GivesSeries) {} sources) :
    (∀ p ∈ sources.targets, p.2.InSeries) ∧
      ∀ w, (refresh w sources).2 ≠ some .typeError ∧ KeepsSeries sources (refresh w sources).1 := by
  have hpinned : Pinned sources :=
    h.invariant pinned_empty fun _ _ _ _ hi hgives hout ↦ hi.rewrite hgives hout
  exact ⟨hpinned.inSeries, fun w ↦ ⟨(hpinned.refresh w).2.2, (hpinned.refresh w).2.1⟩⟩

/-- A run that completes is a run of the file. -/
theorem reach_of_main (guard : Sources → Rewrite → Prop) (w : World) (args : Args) {α : Type}
    (f : Sources → α) {a : α} (hguard : guard {} (.update w args))
    (h : (main w args {}).toOption.map f = some a) :
    ∃ sources, Transition.Reach rewrite guard {} sources ∧ f sources = a := by
  obtain ⟨sources, hsources, hf⟩ := Option.map_eq_some_iff.1 h
  exact ⟨sources, Transition.Reach.refl.tail hguard hsources, hf⟩

theorem pinned_of_reach_refreshTorch : ∃ sources,
    sources.targets.map (fun p ↦ p.2.series) = [some "10.0"] ∧
      (∀ p ∈ sources.targets, p.2.InSeries) ∧
      ∀ w, (refresh w sources).2 ≠ some .typeError ∧
        KeepsSeries sources (refresh w sources).1 := by
  obtain ⟨sources, hreach, hseries⟩ := reach_of_main (fun _ r ↦ r.GivesSeries) newerFrontend
    refreshTorch (fun out ↦ out.targets.map fun p ↦ p.2.series) (a := [some "10.0"])
    (fun _ h ↦ by cases h) (by decide +kernel)
  exact ⟨sources, hseries, pinned_of_reach hreach⟩

/-- A ROCm version on the command line, without a series. -/
def givenVersion : Args where
  pythonTag := some "cp313"
  rocmVersion := some "10.0.0"
  package := ["torch"]

/-- The file then has no series for the target, and cannot be refreshed. -/
theorem not_pinned_givenVersion : ¬ ∀ sources,
    Transition.Reach rewrite (fun _ _ ↦ True) {} sources →
      (∀ p ∈ sources.targets, p.2.InSeries) ∧
      ∀ w, (refresh w sources).2 ≠ some .typeError ∧
        KeepsSeries sources (refresh w sources).1 := by
  intro h
  obtain ⟨sources, hreach, hseries⟩ := reach_of_main (fun _ _ ↦ True) newerFrontend
    givenVersion (fun out ↦ out.targets.map fun p ↦ p.2.series) (a := [none]) trivial
    (by decide +kernel)
  obtain ⟨p, hp, hnone⟩ := List.mem_map.1 (hseries ▸ List.mem_singleton_self none)
  obtain ⟨series, hsome, -⟩ := (h sources hreach).1 p hp
  rw [hnone] at hsome
  cases hsome

end TheRock
