import NixStrixHalo.Library.Transition
import NixStrixHalo.TheRock.RocmPins

/-!
# The tarball pin file over its runs

`rocm.json` is rewritten by runs of `update-rocm.py` and by `refresh`, which runs it once for each
target with the series of the version that is pinned.

## What is proved

* Whatever the runs are, an entry names the tarball of its own target and version and has a hash
  that was prefetched for that very URL (`coherent_of_reach`).
* On indexes whose versions have two numeric components, a refresh only moves forward: every target
  keeps its series and never goes back to an older version (`movesForward_of_reach`).
* A refresh that follows another one in the same world leaves what that one has left
  (`refreshRocm_refreshRocm`).

## Steps and runs

A refresh is a loop of runs of the updater, each of which may end it and leave what was written so
far. A property that every run of the updater keeps holds after a refresh as well, wherever it ended
(`refreshRocm_induction`), and so does one that is kept by every kind of rewrite
(`rocmRewrite_induction`).

## Moving forward

The pinned version is among the versions of the index (`RocmWorld.Lists`), so the version selected
is no older. The index is regular as well, in the refreshes before and in the one at hand
(`KeepsListing`): a version without two numeric components may give another series, or none.
-/

namespace TheRock

/-! ### The updater -/

/-- An entry of `linux`. -/
structure RocmPin where
  url : String
  hash : String
  version : String
  filename : String
  updated : String
  deriving DecidableEq

/-- The entries of `linux`. -/
abbrev RocmSources := List (String × RocmPin)

/-- What a run of `update-rocm.py` gets from outside; `now k` is the `k`-th reading of the clock. -/
structure RocmWorld where
  fetchIndex : Except Failure String
  prefetch : String → Except Failure String
  now : ℕ → String
  setOrder : SetOrder

/-- The command line. -/
structure RocmArgs where
  target : List String := []
  series : Option String := none
  version : Option String := none

/-- `BASE_URL`. -/
def rocmBaseUrl : String := "https://stable.repo.amd.com/rocm/core/tarball/"

/-- `filename`. -/
def tarballName (target version : String) : String :=
  s!"therock-dist-linux-{targetSlug target}-{version}.tar.gz"

/-- The entry that `main` writes. -/
def rocmPin (target version hash now : String) : RocmPin where
  url := rocmBaseUrl ++ tarballName target version
  hash := hash
  version := version
  filename := tarballName target version
  updated := now

namespace RocmArgs

variable (args : RocmArgs)

/-- `targets`. -/
def targets : List String := if args.target = [] then ["gfx1151"] else args.target

/-- `args.series`, once the default is filled in. -/
def resolvedSeries (file : Option RocmSources) : Except Failure (Option String) :=
  if truthy args.series = none ∧ truthy args.version = none then
    match rocmPinnedSeries ((file.getD []).map fun (target, pin) ↦ (target, pin.version)) with
    | some series => .ok (some series)
    | none => .error (.argumentError "--series required (no existing pin to derive it from)")
  else .ok args.series

/-- `version` in the loop of `main`. -/
def selectVersion (w : RocmWorld) (series : Option String) (index target : String) :
    Except Failure String :=
  match truthy args.version with
  | some version => .ok version
  | none => findVersion w.setOrder index target series

/-- `index`. -/
def index (w : RocmWorld) : Except Failure String :=
  if (truthy args.version).isSome then .ok "" else w.fetchIndex

end RocmArgs

/-- The loop of `main`, from the `k`-th turn on. -/
def pinTargets (w : RocmWorld) (args : RocmArgs) (series : Option String) (index : String) :
    ℕ → List String → RocmSources → Except Failure RocmSources
  | _, [], sources => .ok sources
  | k, target :: rest, sources => do
    let version ← args.selectVersion w series index target
    let hash ← w.prefetch (rocmBaseUrl ++ tarballName target version)
    pinTargets w args series index (k + 1) rest
      (OrderedDict.insert target (rocmPin target version hash (w.now k)) sources)

/-- `main` of `update-rocm.py`: the file it writes. There is none before the first run. -/
def rocmMain (w : RocmWorld) (args : RocmArgs) (file : Option RocmSources) :
    Except Failure RocmSources := do
  let series ← args.resolvedSeries file
  let index ← args.index w
  pinTargets w args series index 0 args.targets (file.getD [])

/-! ### Refreshing the file -/

/-- How `refresh("rocm")` ends early. -/
inductive RocmRefreshError
  | valueError (message : String)
  | calledProcessError
  deriving DecidableEq

/-- The command line that `refresh` passes for a target. -/
def refreshArgs (target : String) (pin : RocmPin) : RocmArgs where
  target := [target]
  series := some (refreshSeries pin.version)

/-- The turns of the loop of `refresh`, over the targets that the file had at its start. -/
def refreshRocmLoop (w : String → RocmWorld) : List (String × RocmPin) → RocmSources →
    RocmSources × Option RocmRefreshError
  | [], sources => (sources, none)
  | (target, pin) :: rest, sources =>
    match rocmMain (w target) (refreshArgs target pin) (some sources) with
    | .error _ => (sources, some .calledProcessError)
    | .ok out => refreshRocmLoop w rest out

/-- `refresh("rocm")`: the file it leaves, and how it ends early. -/
def refreshRocm (w : String → RocmWorld) (sources : RocmSources) :
    RocmSources × Option RocmRefreshError :=
  if sources = [] then (sources, some (.valueError "no targets configured in rocm.json"))
  else refreshRocmLoop w (sources.insertionSort fun p q ↦ p.1.toList ≤ q.1.toList) sources

/-- What rewrites the file. -/
inductive RocmRewrite
  | update (w : RocmWorld) (args : RocmArgs)
  | refresh (w : String → RocmWorld)

/-- The runs that write. A refresh that ends early leaves what it has written. -/
def rocmRewrite (file : Option RocmSources) : RocmRewrite → Option (Option RocmSources)
  | .update w args => (rocmMain w args file).toOption.map some
  | .refresh w => file.map fun sources ↦ some (refreshRocm w sources).1

/-! ### What an entry says -/

/-- What the runs may get from the network: every prefetch is `Fetched`, a relation between URLs and
hashes. -/
def RocmWorld.Within (Fetched : String → String → Prop) (w : RocmWorld) : Prop :=
  ∀ url hash, w.prefetch url = .ok hash → Fetched url hash

/-- Every run of the updater that the rewrite makes is good. -/
def RocmRewrite.Each (good : RocmWorld → RocmArgs → Prop) : RocmRewrite → Prop
  | .update w args => good w args
  | .refresh w => ∀ target pin, good (w target) (refreshArgs target pin)

/-- The entry is the one of its target: it names the tarball of its version, and its hash was
prefetched for its URL. -/
structure IsPinOf (Fetched : String → String → Prop) (target : String) (pin : RocmPin) : Prop where
  filename : pin.filename = tarballName target pin.version
  url : pin.url = rocmBaseUrl ++ pin.filename
  fetched : Fetched pin.url pin.hash

/-- Every target has one entry, and it is its own. -/
structure CoherentPins (Fetched : String → String → Prop) (sources : RocmSources) : Prop where
  nodup : OrderedDict.NodupKeys sources
  isPinOf : ∀ p ∈ sources, IsPinOf Fetched p.1 p.2

variable {Fetched : String → String → Prop} {w : RocmWorld} {args : RocmArgs}
  {sources out : RocmSources}

theorem coherent_nil : CoherentPins Fetched [] where
  nodup := List.nodup_nil
  isPinOf := nofun

theorem CoherentPins.insert (h : CoherentPins Fetched sources) {target : String} {pin : RocmPin}
    (hpin : IsPinOf Fetched target pin) :
    CoherentPins Fetched (OrderedDict.insert target pin sources) where
  nodup := h.nodup.insert target pin
  isPinOf p hp := by
    rcases OrderedDict.mem_insert hp with rfl | hp
    · exact hpin
    · exact h.isPinOf p hp

/-- One turn of the loop of `main`. -/
theorem pinTargets_cons_eq_ok_iff {series : Option String} {index target : String} {k : ℕ}
    {rest : List String} : pinTargets w args series index k (target :: rest) sources = .ok out ↔
      ∃ version hash, args.selectVersion w series index target = .ok version ∧
        w.prefetch (rocmBaseUrl ++ tarballName target version) = .ok hash ∧
        pinTargets w args series index (k + 1) rest
          (OrderedDict.insert target (rocmPin target version hash (w.now k)) sources) =
          .ok out := by
  rw [pinTargets]
  constructor
  · intro h
    obtain ⟨version, hversion, h⟩ := Result.bind_eq_ok_iff.1 h
    obtain ⟨hash, hhash, h⟩ := Result.bind_eq_ok_iff.1 h
    exact ⟨version, hash, hversion, hhash, h⟩
  · rintro ⟨version, hash, hversion, hhash, h⟩
    exact Result.bind_eq_ok_iff.2 ⟨version, hversion, Result.bind_eq_ok_iff.2 ⟨hash, hhash, h⟩⟩

/-- What every entry that a run may write keeps, the loop of the run keeps. -/
theorem pinTargets_induction {P : RocmSources → Prop} {series : Option String} {index : String}
    {targets : List String} (hstep : ∀ sources target version hash now, P sources →
      target ∈ targets → args.selectVersion w series index target = .ok version →
      w.prefetch (rocmBaseUrl ++ tarballName target version) = .ok hash →
      P (OrderedDict.insert target (rocmPin target version hash now) sources))
    {k : ℕ} (h : P sources)
    (hout : pinTargets w args series index k targets sources = .ok out) : P out := by
  induction targets generalizing k sources with
  | nil => exact Except.ok.inj hout ▸ h
  | cons target rest ih =>
    obtain ⟨version, hash, hversion, hhash, hrest⟩ := pinTargets_cons_eq_ok_iff.1 hout
    exact ih (fun s t v hash now hs ht ↦ hstep s t v hash now hs (List.mem_cons_of_mem _ ht))
      (hstep sources target version hash (w.now k) h List.mem_cons_self hversion hhash) hrest

theorem rocmMain_eq_ok_iff {file : Option RocmSources} : rocmMain w args file = .ok out ↔
    ∃ series index, args.resolvedSeries file = .ok series ∧ args.index w = .ok index ∧
      pinTargets w args series index 0 args.targets (file.getD []) = .ok out := by
  rw [rocmMain]
  constructor
  · intro h
    obtain ⟨series, hseries, h⟩ := Result.bind_eq_ok_iff.1 h
    obtain ⟨index, hindex, h⟩ := Result.bind_eq_ok_iff.1 h
    exact ⟨series, index, hseries, hindex, h⟩
  · rintro ⟨series, index, hseries, hindex, h⟩
    exact Result.bind_eq_ok_iff.2 ⟨series, hseries, Result.bind_eq_ok_iff.2 ⟨index, hindex, h⟩⟩

/-- What the runs of a refresh keep, the refresh keeps. -/
theorem refreshRocm_induction {P : RocmSources → Prop} {w : String → RocmWorld}
    (hstep : ∀ target pin sources out, P sources →
      rocmMain (w target) (refreshArgs target pin) (some sources) = .ok out → P out)
    (h : P sources) : P (refreshRocm w sources).1 := by
  rw [refreshRocm]
  split
  · exact h
  next hne =>
    clear hne
    induction sources.insertionSort (fun p q ↦ p.1.toList ≤ q.1.toList) generalizing sources with
    | nil => exact h
    | cons p l ih =>
      rw [refreshRocmLoop]
      rcases hmain : rocmMain (w p.1) (refreshArgs p.1 p.2) (some sources) with e | out
      · exact h
      · exact ih (hstep p.1 p.2 sources out h hmain)

/-- What the runs of the updater keep, every rewrite keeps. -/
theorem rocmRewrite_induction {P : RocmSources → Prop} {good : RocmWorld → RocmArgs → Prop}
    (hstep : ∀ w args file out, good w args → P (file.getD []) → rocmMain w args file = .ok out →
      P out) {file file' : Option RocmSources} {r : RocmRewrite} (hr : r.Each good)
    (h : P (file.getD [])) (hout : rocmRewrite file r = some file') : P (file'.getD []) := by
  cases r with
  | update w args =>
    rcases hmain : rocmMain w args file with e | out
    · simp [rocmRewrite, hmain, Except.toOption] at hout
    · obtain rfl : some out = file' := by
        simpa [rocmRewrite, hmain, Except.toOption] using hout
      exact hstep w args file out hr h hmain
  | refresh w =>
    obtain ⟨sources, rfl, rfl⟩ := Option.map_eq_some_iff.1 hout
    exact refreshRocm_induction
      (fun target pin sources out hs hmain ↦
        hstep _ _ (some sources) out (hr target pin) hs hmain) h

theorem CoherentPins.rocmMain {file : Option RocmSources} (h : CoherentPins Fetched (file.getD []))
    (hw : w.Within Fetched) (hout : rocmMain w args file = .ok out) : CoherentPins Fetched out := by
  obtain ⟨series, index, -, -, hpins⟩ := rocmMain_eq_ok_iff.1 hout
  refine pinTargets_induction (fun _ _ _ _ _ hs _ _ hhash ↦ ?_) h hpins
  exact hs.insert ⟨rfl, rfl, hw _ _ hhash⟩

/-! ### Moving forward -/

/-- The later pin has the series of the earlier one, and is no older. -/
structure Advances (pin later : RocmPin) : Prop where
  series : matchSeries later.version = matchSeries pin.version
  le : versionKey pin.version ≤ versionKey later.version

theorem Advances.refl (pin : RocmPin) : Advances pin pin := ⟨rfl, le_rfl⟩

theorem Advances.trans {p q r : RocmPin} (h : Advances p q) (h' : Advances q r) : Advances p r :=
  ⟨h'.series.trans h.series, h.le.trans h'.le⟩

/-- Every version of the target in the index has two numeric components. -/
def RocmWorld.Regular (w : RocmWorld) (target : String) : Prop :=
  ∀ index, w.fetchIndex = .ok index →
    ∀ version ∈ findall (targetSlug target) 0 index.toList, HasTwoComponents version

/-- The index still lists the version that is pinned. -/
def RocmWorld.Lists (w : RocmWorld) (target : String) (pin : RocmPin) : Prop :=
  ∀ index, w.fetchIndex = .ok index →
    pin.version ∈ findall (targetSlug target) 0 index.toList

/-- The series that a refresh passes is the one that the version is in. -/
theorem matchSeries_eq_refreshSeries {version : String} (h : HasTwoComponents version) :
    matchSeries version = some (refreshSeries version) := by
  obtain ⟨major, minor, rest, hversion, hmajor, hminor⟩ := h
  have hmatch : matchMajorMinor version.toList = some (major ++ '.' :: minor, '.' :: rest) := by
    refine matchMajorMinor_eq_some_iff.2 ⟨?_, rfl, major, minor, rfl, hmajor, hminor⟩
    rw [hversion, List.append_assoc, List.cons_append]
  rw [matchSeries, hmatch, refreshSeries, hversion, splitOn_append_dot hmajor,
    splitOn_append_dot hminor]
  simp [List.intercalate]

/-- What a series of two components admits is in that series. -/
theorem matchSeries_of_seriesMatches {version series : String}
    (hseries : matchSeries series = some series) (h : seriesMatches series version) :
    matchSeries version = some series := by
  obtain ⟨⟨_, suffix⟩, hmatch, heq⟩ := Option.map_eq_some_iff.1 hseries
  obtain ⟨hself, -, major, minor, rfl, hmajor, hminor⟩ := matchMajorMinor_eq_some_iff.1 hmatch
  obtain ⟨rest, hversion, hrest⟩ := seriesMatches_iff.1 h
  have hchars : series.toList = major ++ '.' :: minor := by
    rw [← heq, String.toList_ofList]
  have hfull : matchMajorMinor version.toList = some (major ++ '.' :: minor, rest) := by
    refine matchMajorMinor_eq_some_iff.2 ⟨?_, hrest, major, minor, rfl, hmajor, hminor⟩
    rw [hversion, hchars]
  rw [matchSeries, hfull]
  exact congrArg some heq

/-- A series that was matched is not empty, so the command line can carry it. -/
theorem truthy_of_matchSeries {version series : String} (h : matchSeries version = some series) :
    truthy (some series) = some series := by
  rw [truthy, Option.filter_some, if_pos]
  refine decide_eq_true fun hempty ↦ ?_
  have hself := matchSeries_self h
  rw [hempty] at hself
  exact absurd hself (by decide)

/-- What the run of one target writes. -/
theorem rocmMain_refreshArgs_eq_ok_iff {target : String} {pin : RocmPin}
    (hpin : HasTwoComponents pin.version) :
    rocmMain w (refreshArgs target pin) (some sources) = .ok out ↔
      ∃ index version hash, w.fetchIndex = .ok index ∧
        findVersion w.setOrder index target (some (refreshSeries pin.version)) = .ok version ∧
        w.prefetch (rocmBaseUrl ++ tarballName target version) = .ok hash ∧
        out = OrderedDict.insert target (rocmPin target version hash (w.now 0)) sources := by
  have hseries : (refreshArgs target pin).resolvedSeries (some sources) =
      .ok (some (refreshSeries pin.version)) := by
    rw [RocmArgs.resolvedSeries, if_neg]
    · rfl
    · have htruthy := truthy_of_matchSeries (matchSeries_eq_refreshSeries hpin)
      exact fun hnone ↦ Option.some_ne_none _ (htruthy.symm.trans hnone.1)
  rw [rocmMain_eq_ok_iff, hseries]
  constructor
  · rintro ⟨series, index, ⟨⟩, hindex, hpins⟩
    obtain ⟨version, hash, hversion, hhash, hrest⟩ := pinTargets_cons_eq_ok_iff.1 hpins
    exact ⟨index, version, hash, hindex, hversion, hhash, (Except.ok.inj hrest).symm⟩
  · rintro ⟨index, version, hash, hindex, hversion, hhash, rfl⟩
    exact ⟨_, index, rfl, hindex,
      pinTargets_cons_eq_ok_iff.2 ⟨version, hash, hversion, hhash, rfl⟩⟩

/-- What a refresh picks for a target has the series of the pin. -/
theorem series_of_findVersion {order : SetOrder} {index target version : String} {pin : RocmPin}
    (hpin : HasTwoComponents pin.version)
    (h : findVersion order index target (some (refreshSeries pin.version)) = .ok version) :
    version ∈ findall (targetSlug target) 0 index.toList ∧
      matchSeries version = matchSeries pin.version := by
  have hseries := matchSeries_eq_refreshSeries hpin
  obtain ⟨hmem, hadmits⟩ := mem_admittedVersions.1 (findVersion_eq_ok h).1
  rw [Option.all_some] at hadmits
  exact ⟨hmem, (matchSeries_of_seriesMatches (matchSeries_self hseries) hadmits).trans hseries.symm⟩

/-- As long as the version that is pinned is listed, a refresh picks one and goes forward. -/
theorem exists_findVersion_of_lists (order : SetOrder) {index target : String} {pin : RocmPin}
    (hpin : HasTwoComponents pin.version)
    (h : pin.version ∈ findall (targetSlug target) 0 index.toList) :
    ∃ version, findVersion order index target (some (refreshSeries pin.version)) = .ok version ∧
      versionKey pin.version ≤ versionKey version := by
  have hmem : pin.version ∈
      admittedVersions order index target (some (refreshSeries pin.version)) := by
    rw [mem_admittedVersions, Option.all_some]
    exact ⟨h, seriesMatches_of_matchSeries (matchSeries_eq_refreshSeries hpin)⟩
  obtain ⟨version, hversion⟩ := exists_findVersion hmem
  exact ⟨version, hversion, (findVersion_eq_ok hversion).2 _ hmem⟩

/-! ### A refresh -/

/-- Every version of the file has two numeric components. -/
def RegularPins (sources : RocmSources) : Prop := ∀ p ∈ sources, HasTwoComponents p.2.version

/-- The later file has the targets of the earlier one, each of them at an advanced version. -/
structure MovesForward (sources later : RocmSources) : Prop where
  targets : later.map Prod.fst = sources.map Prod.fst
  advances : ∀ p ∈ sources, ∃ pin, OrderedDict.get? later p.1 = some pin ∧ Advances p.2 pin

theorem MovesForward.refl (h : OrderedDict.NodupKeys sources) : MovesForward sources sources where
  targets := rfl
  advances p hp := ⟨p.2, h.get?_eq_some_iff.2 hp, Advances.refl p.2⟩

theorem MovesForward.trans {later : RocmSources} (h : MovesForward sources out)
    (h' : MovesForward out later) : MovesForward sources later where
  targets := h'.targets.trans h.targets
  advances p hp := by
    obtain ⟨pin, hget, hadv⟩ := h.advances p hp
    obtain ⟨pin', hget', hadv'⟩ := h'.advances (p.1, pin) (OrderedDict.mem_of_get? hget)
    exact ⟨pin', hget', hadv.trans hadv'⟩

theorem MovesForward.nodup (h : MovesForward sources out) (hnodup : OrderedDict.NodupKeys sources) :
    OrderedDict.NodupKeys out := by
  rw [OrderedDict.NodupKeys, h.targets]
  exact hnodup

/-- A refreshed target moves the file forward from where the refresh began. -/
theorem MovesForward.insert {start : RocmSources} {target : String} {pin later : RocmPin}
    (h : MovesForward start sources) (hnodup : OrderedDict.NodupKeys start)
    (hp : (target, pin) ∈ start) (hadv : Advances pin later) :
    MovesForward start (OrderedDict.insert target later sources) where
  targets := by
    rw [OrderedDict.map_fst_insert_of_mem (h.targets ▸ List.mem_map_of_mem hp), h.targets]
  advances q hq := by
    by_cases hkey : q.1 = target
    · -- the keys are distinct, so this is the entry of the target that was refreshed
      obtain rfl : q.2 = pin := by
        have hget := hnodup.get?_eq_some_iff.2 (show (target, q.2) ∈ start from hkey ▸ hq)
        rw [hnodup.get?_eq_some_iff.2 hp] at hget
        exact (Option.some.inj hget).symm
      exact ⟨later, hkey ▸ OrderedDict.get?_insert_self _ _ _, hadv⟩
    · obtain ⟨kept, hget, hkept⟩ := h.advances q hq
      exact ⟨kept, (OrderedDict.get?_insert_of_ne hkey _ _).trans hget, hkept⟩

/-- What the network has to give for a refresh to move forward: regular indexes that still list the
versions that are pinned. -/
structure KeepsListing (w : String → RocmWorld) (sources : RocmSources) : Prop where
  regular : ∀ p ∈ sources, (w p.1).Regular p.1
  lists : ∀ p ∈ sources, (w p.1).Lists p.1 p.2

theorem RegularPins.insert (h : RegularPins sources) {target : String} {pin : RocmPin}
    (hpin : HasTwoComponents pin.version) :
    RegularPins (OrderedDict.insert target pin sources) := by
  intro p hp
  rcases OrderedDict.mem_insert hp with rfl | hp
  · exact hpin
  · exact h p hp

/-- What the turns of the loop keep; `start` is the file that the loop reads its targets from. -/
theorem refreshRocmLoop_spec {w : String → RocmWorld} {start : RocmSources}
    (hnodup : OrderedDict.NodupKeys start) (hstart : RegularPins start) (hw : KeepsListing w start)
    {l : List (String × RocmPin)} (hl : ∀ p ∈ l, p ∈ start) (hregular : RegularPins sources)
    (h : MovesForward start sources) :
    RegularPins (refreshRocmLoop w l sources).1 ∧
      MovesForward start (refreshRocmLoop w l sources).1 := by
  induction l generalizing sources with
  | nil => exact ⟨hregular, h⟩
  | cons p l ih =>
    obtain ⟨target, pin⟩ := p
    obtain ⟨hp, hl⟩ := List.forall_mem_cons.1 hl
    have hpin : HasTwoComponents pin.version := hstart _ hp
    rw [refreshRocmLoop]
    rcases hmain : rocmMain (w target) (refreshArgs target pin) (some sources) with e | out
    · exact ⟨hregular, h⟩
    · obtain ⟨index, version, hash, hindex, hversion, -, rfl⟩ :=
        (rocmMain_refreshArgs_eq_ok_iff hpin).1 hmain
      obtain ⟨hmem, hseries⟩ := series_of_findVersion hpin hversion
      obtain ⟨version', hversion', hle⟩ :=
        exists_findVersion_of_lists (w target).setOrder hpin (hw.lists _ hp index hindex)
      obtain rfl : version = version' := Except.ok.inj (hversion.symm.trans hversion')
      exact ih hl (hregular.insert (hw.regular _ hp index hindex version hmem))
        (h.insert hnodup hp ⟨hseries, hle⟩)

/-- **A refresh moves the file forward**, whether it completes or not. -/
theorem movesForward_refreshRocm {w : String → RocmWorld} (hnodup : OrderedDict.NodupKeys sources)
    (hregular : RegularPins sources) (hw : KeepsListing w sources) :
    RegularPins (refreshRocm w sources).1 ∧ MovesForward sources (refreshRocm w sources).1 := by
  rw [refreshRocm]
  split
  · exact ⟨hregular, MovesForward.refl hnodup⟩
  · exact refreshRocmLoop_spec hnodup hregular hw (fun p hp ↦ (List.mem_insertionSort _).1 hp)
      hregular (MovesForward.refl hnodup)

/-- What the network has to give for a refresh to complete. -/
def RocmWorld.Serves (w : RocmWorld) : Prop :=
  (∃ index, w.fetchIndex = .ok index) ∧ ∀ url, ∃ hash, w.prefetch url = .ok hash

theorem refreshRocmLoop_completes {w : String → RocmWorld} {start : RocmSources}
    (hstart : RegularPins start) (hw : KeepsListing w start) {l : List (String × RocmPin)}
    (hl : ∀ p ∈ l, p ∈ start) (hserves : ∀ p ∈ l, (w p.1).Serves) :
    (refreshRocmLoop w l sources).2 = none := by
  induction l generalizing sources with
  | nil => rfl
  | cons p l ih =>
    obtain ⟨target, pin⟩ := p
    obtain ⟨hp, hl⟩ := List.forall_mem_cons.1 hl
    obtain ⟨⟨⟨index, hindex⟩, hprefetch⟩, hserves⟩ := List.forall_mem_cons.1 hserves
    obtain ⟨version, hversion, -⟩ :=
      exists_findVersion_of_lists (w target).setOrder (hstart _ hp) (hw.lists _ hp index hindex)
    obtain ⟨hash, hhash⟩ := hprefetch (rocmBaseUrl ++ tarballName target version)
    have hmain : rocmMain (w target) (refreshArgs target pin) (some sources) = .ok _ :=
      (rocmMain_refreshArgs_eq_ok_iff (hstart _ hp)).2
        ⟨index, version, hash, hindex, hversion, hhash, rfl⟩
    rw [refreshRocmLoop, hmain]
    exact ih hl hserves

/-! ### Refreshing twice -/

/-- The run of the target would write what the file has. -/
def Settled (w : String → RocmWorld) (target : String) (pin : RocmPin) (sources : RocmSources) :
    Prop :=
  rocmMain (w target) (refreshArgs target pin) (some sources) = .ok sources

theorem refreshRocmLoop_of_settled {w : String → RocmWorld} {l : List (String × RocmPin)}
    (h : ∀ p ∈ l, Settled w p.1 p.2 sources) : refreshRocmLoop w l sources = (sources, none) := by
  induction l with
  | nil => rfl
  | cons p l ih =>
    obtain ⟨hp, hl⟩ := List.forall_mem_cons.1 h
    rw [refreshRocmLoop, show rocmMain (w p.1) (refreshArgs p.1 p.2) (some sources) = _ from hp]
    exact ih hl

/-- What the run of `target` found for the version that was pinned, with the hash it got. -/
def Refreshed (w : String → RocmWorld) (target : String) (pin later : RocmPin) : Prop :=
  ∃ index version hash, (w target).fetchIndex = .ok index ∧
    findVersion (w target).setOrder index target (some (refreshSeries pin.version)) = .ok version ∧
    (w target).prefetch (rocmBaseUrl ++ tarballName target version) = .ok hash ∧
    later = rocmPin target version hash ((w target).now 0)

/-- A loop that completes has refreshed its targets and no other. -/
theorem refreshRocmLoop_refreshed {w : String → RocmWorld} {l : List (String × RocmPin)}
    (hnodup : OrderedDict.NodupKeys l) (hregular : RegularPins l)
    (h : refreshRocmLoop w l sources = (out, none)) :
    (∀ p ∈ l, ∃ later, OrderedDict.get? out p.1 = some later ∧ Refreshed w p.1 p.2 later) ∧
      ∀ target, target ∉ l.map Prod.fst →
        OrderedDict.get? out target = OrderedDict.get? sources target := by
  induction l generalizing sources with
  | nil =>
    obtain ⟨rfl, -⟩ := Prod.mk.inj h
    exact ⟨nofun, fun _ _ ↦ rfl⟩
  | cons p l ih =>
    obtain ⟨target, pin⟩ := p
    obtain ⟨hnew, hnodup⟩ := List.nodup_cons.1 hnodup
    obtain ⟨hpin, hregular⟩ := List.forall_mem_cons.1 hregular
    rw [refreshRocmLoop] at h
    rcases hmain : rocmMain (w target) (refreshArgs target pin) (some sources) with e | next
    · rw [hmain] at h
      cases h
    · rw [hmain] at h
      obtain ⟨index, version, hash, hindex, hversion, hhash, rfl⟩ :=
        (rocmMain_refreshArgs_eq_ok_iff hpin).1 hmain
      obtain ⟨hrest, hothers⟩ := ih hnodup hregular h
      -- the keys are distinct, so the rest of the loop leaves this entry alone
      refine ⟨List.forall_mem_cons.2 ⟨⟨_, ?_, index, version, hash, hindex, hversion, hhash, rfl⟩,
        hrest⟩, fun other hother ↦ ?_⟩
      · exact (hothers target hnew).trans (OrderedDict.get?_insert_self _ _ _)
      · obtain ⟨hne, hout⟩ := not_or.1 (fun hmem ↦ hother (List.mem_cons.2 hmem))
        exact (hothers other hout).trans (OrderedDict.get?_insert_of_ne hne _ _)

/-- What was refreshed is settled. -/
theorem Refreshed.settled {w : String → RocmWorld} {target : String} {pin later : RocmPin}
    (hpin : HasTwoComponents pin.version) (hlater : HasTwoComponents later.version)
    (h : Refreshed w target pin later) (hget : OrderedDict.get? out target = some later) :
    Settled w target later out := by
  obtain ⟨index, version, hash, hindex, hversion, hhash, rfl⟩ := h
  have hseries : refreshSeries version = refreshSeries pin.version := by
    have hsame := (series_of_findVersion hpin hversion).2
    rw [matchSeries_eq_refreshSeries hpin] at hsame
    exact Option.some.inj ((matchSeries_eq_refreshSeries hlater).symm.trans hsame)
  refine (rocmMain_refreshArgs_eq_ok_iff hlater).2
    ⟨index, version, hash, hindex, ?_, hhash, (OrderedDict.insert_of_get? hget).symm⟩
  exact hseries ▸ hversion

theorem mem_refreshOrder {p : String × RocmPin} :
    p ∈ sources.insertionSort (fun p q ↦ p.1.toList ≤ q.1.toList) ↔ p ∈ sources :=
  List.mem_insertionSort _

/-- **Refreshing twice**: a refresh that completes leaves nothing for the next one to change. -/
theorem refreshRocm_refreshRocm {w : String → RocmWorld} (hnodup : OrderedDict.NodupKeys sources)
    (hregular : RegularPins sources) (hw : KeepsListing w sources)
    (h : refreshRocm w sources = (out, none)) : refreshRocm w out = (out, none) := by
  obtain ⟨hout, hforward⟩ := movesForward_refreshRocm hnodup hregular hw
  rw [h] at hout hforward
  have hne : sources ≠ [] := by
    rintro rfl
    simp [refreshRocm] at h
  have hloop : refreshRocmLoop w (sources.insertionSort fun p q ↦ p.1.toList ≤ q.1.toList)
      sources = (out, none) := by
    rw [refreshRocm, if_neg hne] at h
    exact h
  have hperm := List.perm_insertionSort (fun p q : String × RocmPin ↦ p.1.toList ≤ q.1.toList)
    sources
  obtain ⟨hrefreshed, -⟩ := refreshRocmLoop_refreshed
    ((hperm.map Prod.fst).nodup_iff.2 hnodup) (fun p hp ↦ hregular p (mem_refreshOrder.1 hp)) hloop
  have hout_ne : out ≠ [] := by
    intro hnil
    have htargets := hforward.targets
    rw [hnil] at htargets
    exact hne (List.map_eq_nil_iff.1 htargets.symm)
  rw [refreshRocm, if_neg hout_ne]
  refine refreshRocmLoop_of_settled fun p hp ↦ ?_
  have hmem := mem_refreshOrder.1 hp
  -- the entry was written by the first refresh, for the pin that the target had before
  have hkey : p.1 ∈ sources.map Prod.fst := hforward.targets ▸ List.mem_map_of_mem hmem
  obtain ⟨q, hq, hqp⟩ := List.mem_map.1 hkey
  obtain ⟨later, hget, hlater⟩ := hrefreshed q (mem_refreshOrder.2 hq)
  rw [hqp] at hget hlater
  have hget' := (hforward.nodup hnodup).get?_eq_some_iff.2 (show (p.1, p.2) ∈ out from hmem)
  obtain rfl : later = p.2 := Option.some.inj (hget.symm.trans hget')
  exact hlater.settled (hregular q hq) (hout p hmem) hget

/-! ### Runs -/

/-- **The pin file over runs**: every entry of every file reached names the tarball of its own
target and version, under a URL whose hash was prefetched in one of the runs. -/
theorem coherent_of_reach
    (h : Transition.Reach rocmRewrite (fun _ r ↦ r.Each fun w _ ↦ w.Within Fetched) none
      (some sources)) : CoherentPins Fetched sources := by
  have hinv : CoherentPins Fetched ((some sources).getD []) := by
    refine h.invariant (I := fun file ↦ CoherentPins Fetched (file.getD [])) coherent_nil ?_
    intro file r file' _ hfile hr hout
    exact rocmRewrite_induction (fun w args file out hw hs hmain ↦ hs.rocmMain hw hmain) hr hfile
      hout
  exact hinv

/-- The versions of the targets in the index, and the one that may be given, have two numeric
components. -/
def RegularRun (w : RocmWorld) (args : RocmArgs) : Prop :=
  (∀ target ∈ args.targets, w.Regular target) ∧
    ∀ version, truthy args.version = some version → HasTwoComponents version

theorem RegularPins.rocmMain {file : Option RocmSources} (h : RegularPins (file.getD []))
    (hrun : RegularRun w args) (hout : rocmMain w args file = .ok out) : RegularPins out := by
  obtain ⟨series, index, -, hindex, hpins⟩ := rocmMain_eq_ok_iff.1 hout
  refine pinTargets_induction (fun sources target version hash now hs htarget hversion _ ↦ ?_)
    h hpins
  refine hs.insert (show HasTwoComponents version from ?_)
  rw [RocmArgs.selectVersion] at hversion
  rw [RocmArgs.index] at hindex
  rcases hgiven : truthy args.version with _ | given
  · rw [hgiven] at hversion hindex
    have hmem := (mem_admittedVersions.1 (findVersion_eq_ok hversion).1).1
    exact hrun.1 target htarget index hindex version hmem
  · rw [hgiven] at hversion
    exact Except.ok.inj hversion ▸ hrun.2 given hgiven

/-- One refresh. -/
def refreshStep (sources : RocmSources) (w : String → RocmWorld) : Option RocmSources :=
  some (refreshRocm w sources).1

/-- **Refreshes only move forward**: from every file that runs on regular indexes reach, refreshes
on indexes that are regular too and still list what is pinned keep the targets and their series and
never go back to an older version; where the network serves, a refresh of such a file completes and
repeating it changes nothing. -/
theorem movesForward_of_reach {later : RocmSources}
    (hstart : Transition.Reach rocmRewrite (fun _ r ↦ r.Each RegularRun) none (some sources))
    (h : Transition.Reach refreshStep (fun s w ↦ KeepsListing w s) sources later) :
    MovesForward sources later ∧ ∀ w, KeepsListing w later → (∀ p ∈ later, (w p.1).Serves) →
      later ≠ [] → (refreshRocm w later).2 = none ∧
        refreshRocm w (refreshRocm w later).1 = refreshRocm w later := by
  have hcoherent : CoherentPins (fun _ _ ↦ True) sources := by
    refine coherent_of_reach (hstart.mono fun _ r _ ↦ ?_)
    cases r with
    | update w args => exact fun _ _ _ ↦ trivial
    | refresh w => exact fun _ _ _ _ _ ↦ trivial
  have hregular : RegularPins ((some sources).getD []) := by
    refine hstart.invariant (I := fun file ↦ RegularPins (file.getD [])) nofun ?_
    intro file r file' _ hfile hr hout
    exact rocmRewrite_induction (fun w args file out hw hs hmain ↦ hs.rocmMain hw hmain) hr hfile
      hout
  obtain ⟨hlater, hforward⟩ : RegularPins later ∧ MovesForward sources later := by
    refine h.invariant (I := fun s ↦ RegularPins s ∧ MovesForward sources s)
      ⟨hregular, MovesForward.refl hcoherent.nodup⟩ ?_
    rintro s w s' _ ⟨hs, hforward⟩ hw hout
    obtain rfl : (refreshRocm w s).1 = s' := Option.some.inj hout
    obtain ⟨hs', hforward'⟩ := movesForward_refreshRocm (hforward.nodup hcoherent.nodup) hs hw
    exact ⟨hs', hforward.trans hforward'⟩
  have hnodup := hforward.nodup hcoherent.nodup
  refine ⟨hforward, fun w hw hserves hne ↦ ?_⟩
  -- a regular pin that is still listed is found again, so no entry fails
  have hcompletes : (refreshRocm w later).2 = none := by
    rw [refreshRocm, if_neg hne]
    exact refreshRocmLoop_completes hlater hw (fun p hp ↦ mem_refreshOrder.1 hp)
      fun p hp ↦ hserves p (mem_refreshOrder.1 hp)
  have hpair : refreshRocm w later = ((refreshRocm w later).1, none) := Prod.ext rfl hcompletes
  refine ⟨hcompletes, ?_⟩
  rw [hpair]
  exact refreshRocm_refreshRocm hnodup hlater hw hpair

/-! ### A run -/

/-- An index of one target, with a hash for every URL. -/
def servedIndex (index : String) : RocmWorld where
  fetchIndex := .ok index
  prefetch _ := .ok "sha256-T+q9ny2nI1LfN/bXFKVIR9P+kTwDQfviplQsEWQCS68="
  now _ := "2026-08-28T08:59:01.222797+00:00"
  setOrder := .asBuilt

/-- No index for any other target. -/
def servedTarget (index target : String) : RocmWorld :=
  if target = "gfx1151" then servedIndex index
  else { servedIndex index with fetchIndex := .error .indexError }

def firstIndex : String := "therock-dist-linux-gfx1151-10.0.0.tar.gz"

def secondIndex : String := firstIndex ++ " therock-dist-linux-gfx1151-10.0.1.tar.gz"

def firstPins : RocmSources :=
  [("gfx1151", rocmPin "gfx1151" "10.0.0" "sha256-T+q9ny2nI1LfN/bXFKVIR9P+kTwDQfviplQsEWQCS68="
    "2026-08-28T08:59:01.222797+00:00")]

def secondPins : RocmSources :=
  [("gfx1151", rocmPin "gfx1151" "10.0.1" "sha256-T+q9ny2nI1LfN/bXFKVIR9P+kTwDQfviplQsEWQCS68="
    "2026-08-28T08:59:01.222797+00:00")]

theorem rocmRewrite_firstIndex :
    rocmRewrite none (.update (servedIndex firstIndex) { series := some "10.0" }) =
      some (some firstPins) := by decide +kernel

theorem refreshStep_secondIndex :
    refreshStep firstPins (servedTarget secondIndex) = some secondPins := by decide +kernel

theorem servedIndex_within (index : String) : (servedIndex index).Within
    fun _ hash ↦ hash = "sha256-T+q9ny2nI1LfN/bXFKVIR9P+kTwDQfviplQsEWQCS68=" :=
  fun _ _ h ↦ (Except.ok.inj h).symm

theorem coherent_of_reach_secondPins :
    CoherentPins (fun _ hash ↦ hash = "sha256-T+q9ny2nI1LfN/bXFKVIR9P+kTwDQfviplQsEWQCS68=")
      secondPins := by
  refine coherent_of_reach ((Transition.Reach.refl.tail
    (a := .update (servedIndex firstIndex) { series := some "10.0" }) (servedIndex_within _)
    rocmRewrite_firstIndex).tail (a := .refresh (servedTarget secondIndex)) ?_ ?_)
  · intro target pin
    rw [servedTarget]
    split
    · exact servedIndex_within secondIndex
    · exact servedIndex_within secondIndex
  · exact congrArg (Option.map some) refreshStep_secondIndex

theorem hasTwoComponents_ten (c : Char) :
    HasTwoComponents (String.ofList ['1', '0', '.', '0', '.', c]) :=
  ⟨['1', '0'], ['0'], [c], String.toList_ofList, rfl, rfl⟩

theorem findall_secondIndex : findall (targetSlug "gfx1151") 0 secondIndex.toList =
    ["10.0.0", "10.0.1"] := by decide +kernel

theorem servedTarget_regular (target : String) :
    (servedTarget secondIndex target).Regular target := by
  intro index hindex version hversion
  rw [servedTarget] at hindex
  split at hindex
  next heq =>
    obtain rfl : secondIndex = index := Except.ok.inj hindex
    rw [heq, findall_secondIndex] at hversion
    rcases List.mem_cons.1 hversion with rfl | hversion
    · exact hasTwoComponents_ten '0'
    · exact List.mem_singleton.1 hversion ▸ hasTwoComponents_ten '1'
  · cases hindex

theorem servedTarget_keepsListing {pin : RocmPin} (h : pin.version ∈ ["10.0.0", "10.0.1"]) :
    KeepsListing (servedTarget secondIndex) [("gfx1151", pin)] where
  regular p _ := servedTarget_regular p.1
  lists := List.forall_mem_singleton.2 fun index hindex ↦ by
    obtain rfl : secondIndex = index := Except.ok.inj hindex
    exact findall_secondIndex ▸ h

/-- The pin of 10.0.0 moves to 10.0.1, where the next refresh leaves it. -/
theorem movesForward_of_reach_secondPins : MovesForward firstPins secondPins ∧
    ∀ w, KeepsListing w secondPins → (∀ p ∈ secondPins, (w p.1).Serves) → secondPins ≠ [] →
      (refreshRocm w secondPins).2 = none ∧
        refreshRocm w (refreshRocm w secondPins).1 = refreshRocm w secondPins := by
  have hregular : ∀ index, (servedIndex firstIndex).fetchIndex = .ok index →
      ∀ version ∈ findall (targetSlug "gfx1151") 0 index.toList, HasTwoComponents version := by
    intro index hindex version hversion
    obtain rfl : firstIndex = index := Except.ok.inj hindex
    have hone : findall (targetSlug "gfx1151") 0 firstIndex.toList = ["10.0.0"] := by
      decide +kernel
    exact List.mem_singleton.1 (hone ▸ hversion) ▸ hasTwoComponents_ten '0'
  have hstart : Transition.Reach rocmRewrite (fun _ r ↦ r.Each RegularRun) none
      (some firstPins) :=
    Transition.Reach.refl.tail (a := .update (servedIndex firstIndex) { series := some "10.0" })
      ⟨List.forall_mem_singleton.2 hregular, nofun⟩ rocmRewrite_firstIndex
  exact movesForward_of_reach hstart
    (Transition.Reach.refl.tail (servedTarget_keepsListing (by decide)) refreshStep_secondIndex)

end TheRock
