import NixStrixHalo.TheRock.GeneratedNix
import NixStrixHalo.TheRock.RocmPins
import NixStrixHalo.TheRock.ThirdPartyPins

/-!
# Refreshing the source stack

`refresh("therock-source")` pins a revision of TheRock, turns the submodules at that revision into
inputs of the flake and into a record of the tree, locks the flake, builds the tree and pins the
third-party sources that it names. Every step but the first reads what an earlier one has written,
and each of them may fail and leave the rest of the repository as it was. What earlier refreshes
left does not matter: a refresh that completes leaves the files that it would have left in the
repository as it was before all of them (`refreshSource_of_reach`).

## What carries over

Two repositories are `Alike` if a refresh does the same in both up to the third-party sources: the
pin has the same policy, and rewriting the inputs of the flake gives the same text. A refresh leaves
the repository alike, wherever it ends (`alike_refreshSource`), because it overwrites what the next
one reads or leaves it alone.

## The hashes

The third-party file is the one place where an earlier refresh can save a later one from asking the
network. So the outcome is the same if the network of the last refresh gives every hash (`Serves`)
and those that are in the first file or were got before are right (`Hashed`, `Gives`); the earlier
refreshes need not have got any.

## What is modelled

The files are those that the scripts write themselves. The `flake.lock` that Nix writes is not among
them, and a write to the disk does not fail.
-/

namespace TheRock

open ThirdParty (PinWorld ThirdPartyPins Staged WordClass)

/-! ### The files -/

/-- An entry of `targets` in `rocm-source.json`, with what a file may lack. -/
structure SourcePin where
  url : String
  ref : Option String
  rev : Option String
  version : String
  fetchArgs : Option (List String)
  deepNestedSubmodules : Option (List (String × List String))
  updated : Option String
  deriving DecidableEq

/-- The entries of `targets`. -/
abbrev SourcePins := List (String × SourcePin)

/-- The files that the scripts of a refresh write: `rocm-source.json`, `flake.nix`,
`source-tree.nix` and `rocm-third-party.json`. The `flake.lock` that `nix flake lock` writes is not
among them: nothing reads it here. Writing a file does not fail. -/
structure Repo where
  sources : SourcePins
  flake : List Char
  tree : List Char
  thirdParty : Option ThirdPartyPins

/-- What a refresh gets from outside: what `git ls-remote` prints, for `update-source-tree.py` with
its warnings, whether every `fetch_repo` succeeds, what git says about what was fetched, whether the
flake can be locked, the staged tree that is built from the flake and the record of the tree, and
the network of the third-party sources. -/
structure StackWorld (α : Type*) where
  lsRemote : String → String → Option (List Char)
  lsRemoteWithStderr : String → String → Option (List Char)
  fetchRepo : Bool
  git : Git α
  flakeLock : List Char → Bool
  build : List Char → List Char → Option Staged
  pins : PinWorld
  now : String

/-- How a script ends early. -/
inductive ScriptError
  | calledProcessError
  | keyError
  | ref (error : RefError)
  | noRevOrRef
  | graph (error : GraphError)
  | flake (error : FlakeError)
  deriving DecidableEq

variable {α : Type*} (sha1 : String → List Char) (check : List Char → Bool) (c : WordClass)

/-! ### `update-rocm-source.py` -/

/-- The command line. -/
structure SourceArgs where
  url : String := "https://github.com/ROCm/TheRock.git"
  series : Option String := none
  ref : Option String := none
  rev : Option String := none
  target : String := "gfx1151"
  version : Option String := none
  fetchArgs : Option (List String) := none
  deepNestedSubmodules : Option (List (String × List String)) := none

/-- `DEFAULT_SERIES`. -/
def sourceDefaultSeries : String := "10.0"

/-- `source_fetch_policy`. -/
def sourceFetchPolicy (sources : SourcePins) (args : SourceArgs) :
    List String × List (String × List String) :=
  let current := OrderedDict.get? sources args.target
  (args.fetchArgs.getD ((current.bind SourcePin.fetchArgs).getD []),
    args.deepNestedSubmodules.getD ((current.bind SourcePin.deepNestedSubmodules).getD []))

/-- `args.series`, once the default is filled in. -/
def SourceArgs.resolvedSeries (args : SourceArgs) (sources : SourcePins) : String :=
  (truthy args.series).getD
    ((rocmSourcePinnedSeries (sources.map fun (target, pin) ↦ (target, pin.version))
      args.target).getD sourceDefaultSeries)

/-- `rev`. -/
def SourceArgs.resolvedRev (args : SourceArgs) (w : StackWorld α) (ref : String) :
    Except ScriptError String :=
  match truthy args.rev with
  | some rev => .ok rev
  | none =>
    match w.lsRemote args.url ref with
    | none => .error .calledProcessError
    | some stdout =>
      match gitRev stdout ref.toList with
      | .ok rev => .ok (String.ofList rev)
      | .error error => .error (.ref error)

/-- `main` of `update-rocm-source.py`: the file it writes. -/
def rocmSourceMain (w : StackWorld α) (args : SourceArgs) (sources : SourcePins) :
    Except ScriptError SourcePins := do
  let series := args.resolvedSeries sources
  let ref := (truthy args.ref).getD s!"refs/heads/release/therock-{series}"
  let version := (truthy args.version).getD series
  let rev ← args.resolvedRev w ref
  let (fetchArgs, deepNestedSubmodules) := sourceFetchPolicy sources args
  return OrderedDict.insert args.target
    { url := args.url
      ref := some ref
      rev := some rev
      version
      fetchArgs := some fetchArgs
      deepNestedSubmodules := some deepNestedSubmodules
      updated := some w.now } sources

/-! ### `update-source-tree.py` -/

/-- `resolve_source`. -/
def resolveSource (w : StackWorld α) (source : SourcePin) : Except ScriptError SourcePin :=
  match source.rev, source.ref with
  | some _, _ => .ok source
  | none, none => .error .noRevOrRef
  | none, some ref =>
    match w.lsRemoteWithStderr source.url ref with
    | none => .error .calledProcessError
    | some stdout =>
      match gitRev stdout ref.toList with
      | .ok rev => .ok { source with rev := some (String.ofList rev), updated := some w.now }
      | .error error => .error (.ref error)

/-- `update_sources_file`. -/
def updateSourcesFile (sources : SourcePins) (target : String) (source : SourcePin) : SourcePins :=
  if OrderedDict.get? sources target = some source then sources
  else OrderedDict.insert target source sources

/-- An entry of the graph with the name of its input. -/
def nameInput (version target : String) (entry : SourceEntry) : InputEntry :=
  { entry with inputName := inputName sha1 version target entry.path }

/-- `build_graph`, with the names of the inputs. -/
def namedGraph (w : StackWorld α) (target : String) (source : SourcePin) :
    Except ScriptError SourceGraph :=
  if w.fetchRepo then
    match buildGraph w.git
        { url := source.url
          rev := source.rev.getD ""
          fetchArgs := source.fetchArgs.getD []
          deepNestedSubmodules := source.deepNestedSubmodules.getD [] } with
    | .ok (root, submodules) =>
      .ok { root := nameInput sha1 source.version target root
            submodules := submodules.map (nameInput sha1 source.version target) }
    | .error error => .error (.graph error)
  else .error .calledProcessError

/-- `main` of `update-source-tree.py`: the repository that it leaves, and how it ends early. -/
def sourceTreeMain (w : StackWorld α) (target : String) (repo : Repo) :
    Repo × Option ScriptError :=
  match OrderedDict.get? repo.sources target with
  | none => (repo, some .keyError)
  | some source =>
    match resolveSource w source with
    | .error error => (repo, some error)
    | .ok resolved =>
      let repo := { repo with sources := updateSourcesFile repo.sources target resolved }
      match namedGraph sha1 w target resolved with
      | .error error => (repo, some error)
      | .ok graph =>
        match updateFlakeInputs check "flake.nix" repo.flake graph with
        | .error error => (repo, some (.flake error))
        | .ok flake => ({ repo with flake, tree := writeTree target resolved.version graph }, none)

/-! ### The refresh -/

/-- How `refresh("therock-source")` ends early. -/
inductive StackError
  | valueError (message : String)
  | calledProcessError
  deriving DecidableEq

/-- The steps after the tree is recorded: locking, building, and pinning what the tree names. -/
def refreshThirdParty (w : StackWorld α) (repo : Repo) : Repo × Option StackError :=
  if w.flakeLock repo.flake then
    match w.build repo.flake repo.tree with
    | none => (repo, some .calledProcessError)
    | some staged =>
      match ThirdParty.main c w.pins {} staged repo.thirdParty with
      | .error _ => (repo, some .calledProcessError)
      | .ok pins => ({ repo with thirdParty := some pins }, none)
  else (repo, some .calledProcessError)

/-- `refresh("therock-source")`: the repository that it leaves, and how it ends early. -/
def refreshSource (w : StackWorld α) (repo : Repo) : Repo × Option StackError :=
  match repo.sources with
  | [] => (repo, some (.valueError "no targets configured in rocm-source.json"))
  | [(target, _)] =>
    match rocmSourceMain w { target } repo.sources with
    | .error _ => (repo, some .calledProcessError)
    | .ok sources =>
      match sourceTreeMain sha1 check w target { repo with sources } with
      | (repo, some _) => (repo, some .calledProcessError)
      | (repo, none) => refreshThirdParty c w repo
  | _ :: _ :: _ =>
    (repo, some (.valueError
      "the generated TheRock source graph currently requires exactly one target"))

/-! ### What a refresh depends on -/

/-- A refresh makes the same pin of the two, given the same revision. -/
structure SamePolicy (p q : SourcePin) : Prop where
  series : (matchSeries p.version).getD sourceDefaultSeries =
    (matchSeries q.version).getD sourceDefaultSeries
  fetchArgs : p.fetchArgs.getD [] = q.fetchArgs.getD []
  deepNestedSubmodules : p.deepNestedSubmodules.getD [] = q.deepNestedSubmodules.getD []

/-- The files have the same entries, up to what a refresh overwrites in a single one. -/
def SameTargets (sources sources' : SourcePins) : Prop :=
  sources = sources' ∨ ∃ target p q, sources = [(target, p)] ∧ sources' = [(target, q)] ∧
    SamePolicy p q

/-- A refresh does the same in both repositories up to the third-party sources. -/
structure Alike (a b : Repo) : Prop where
  sources : SameTargets a.sources b.sources
  flake : ∀ graph, updateFlakeInputs check "flake.nix" a.flake graph =
    updateFlakeInputs check "flake.nix" b.flake graph

/-- The hashes of the file are those that these functions give. -/
def Hashed (hashGit : List Char → List Char → List Char) (hashFile : List Char → List Char)
    (pins : ThirdPartyPins) : Prop :=
  ThirdParty.Sound (fun url rev hash ↦ hash = hashGit url rev) (fun url hash ↦ hash = hashFile url)
    pins

variable {sha1 check c} {w : StackWorld α} {a b repo repo' : Repo} {target : String}
  {p q : SourcePin}

theorem SamePolicy.refl (p : SourcePin) : SamePolicy p p := ⟨rfl, rfl, rfl⟩

theorem SamePolicy.trans {r : SourcePin} (h : SamePolicy p q) (h' : SamePolicy q r) :
    SamePolicy p r :=
  ⟨h.series.trans h'.series, h.fetchArgs.trans h'.fetchArgs,
    h.deepNestedSubmodules.trans h'.deepNestedSubmodules⟩

theorem SameTargets.trans {s t u : SourcePins} (h : SameTargets s t) (h' : SameTargets t u) :
    SameTargets s u := by
  rcases h with rfl | ⟨target, p, q, rfl, ht, hpq⟩
  · exact h'
  · rcases h' with rfl | ⟨target', q', r, ht', rfl, hqr⟩
    · exact Or.inr ⟨target, p, q, rfl, ht, hpq⟩
    · obtain ⟨rfl, rfl⟩ : target = target' ∧ q = q' := by simpa [ht] using ht'
      exact Or.inr ⟨target, p, r, rfl, rfl, hpq.trans hqr⟩

theorem Alike.trans (h : Alike check a b) (h' : Alike check b repo) : Alike check a repo :=
  ⟨h.sources.trans h'.sources, fun graph ↦ (h.flake graph).trans (h'.flake graph)⟩

/-- The pin that a refresh makes. -/
def refreshedPin (w : StackWorld α) (p : SourcePin) (rev : String) : SourcePin :=
  let series := (matchSeries p.version).getD sourceDefaultSeries
  { url := "https://github.com/ROCm/TheRock.git"
    ref := some s!"refs/heads/release/therock-{series}"
    rev := some rev
    version := series
    fetchArgs := some (p.fetchArgs.getD [])
    deepNestedSubmodules := some (p.deepNestedSubmodules.getD [])
    updated := some w.now }

/-- The revision that a refresh looks up. -/
def refreshedRev (w : StackWorld α) (p : SourcePin) : Except ScriptError String :=
  let series := (matchSeries p.version).getD sourceDefaultSeries
  ({} : SourceArgs).resolvedRev w s!"refs/heads/release/therock-{series}"

/-- Running `update-rocm-source.py` on a single target. -/
theorem rocmSourceMain_singleton (target : String) (p : SourcePin) :
    rocmSourceMain w { target } [(target, p)] =
      (refreshedRev w p).map fun rev ↦ [(target, refreshedPin w p rev)] := by
  have hseries : ({ target } : SourceArgs).resolvedSeries [(target, p)] =
      (matchSeries p.version).getD sourceDefaultSeries := by
    simp [SourceArgs.resolvedSeries, truthy, rocmSourcePinnedSeries, OrderedDict.get?]
  have hpolicy : sourceFetchPolicy [(target, p)] { target } =
      (p.fetchArgs.getD [], p.deepNestedSubmodules.getD []) := by
    simp [sourceFetchPolicy, OrderedDict.get?]
  rw [rocmSourceMain, hseries, hpolicy]
  change (refreshedRev w p >>= fun rev ↦ Except.ok (OrderedDict.insert target
    (refreshedPin w p rev) [(target, p)])) = _
  rcases refreshedRev w p with error | rev
  · rfl
  · rw [Result.ok_bind, OrderedDict.insert, if_pos rfl]
    rfl

theorem refreshedRev_congr (h : SamePolicy p q) : refreshedRev w p = refreshedRev w q := by
  rw [refreshedRev, refreshedRev, h.series]

theorem refreshedPin_congr (h : SamePolicy p q) (rev : String) :
    refreshedPin w p rev = refreshedPin w q rev := by
  rw [refreshedPin, refreshedPin, h.series, h.fetchArgs, h.deepNestedSubmodules]

/-- The pin that is made has the policy of the one it replaces. -/
theorem samePolicy_refreshedPin (rev : String) : SamePolicy (refreshedPin w p rev) p where
  series := by
    rcases hseries : matchSeries p.version with _ | series
    · simp only [refreshedPin, hseries]
      decide
    · simp only [refreshedPin, hseries, Option.getD_some, matchSeries_self hseries]
  fetchArgs := rfl
  deepNestedSubmodules := rfl

/-- Running `update-source-tree.py` on a pin with a revision. -/
theorem sourceTreeMain_refreshedPin (rev : String) :
    sourceTreeMain sha1 check w target
        { repo with sources := [(target, refreshedPin w p rev)] } =
      match namedGraph sha1 w target (refreshedPin w p rev) with
      | .error error => ({ repo with sources := [(target, refreshedPin w p rev)] }, some error)
      | .ok graph =>
        match updateFlakeInputs check "flake.nix" repo.flake graph with
        | .error error =>
          ({ repo with sources := [(target, refreshedPin w p rev)] }, some (.flake error))
        | .ok flake =>
          ({ repo with
              sources := [(target, refreshedPin w p rev)]
              flake
              tree := writeTree target (refreshedPin w p rev).version graph }, none) := by
  have hget : OrderedDict.get? [(target, refreshedPin w p rev)] target =
      some (refreshedPin w p rev) := by
    simp [OrderedDict.get?]
  have hresolve : resolveSource w (refreshedPin w p rev) = .ok (refreshedPin w p rev) := rfl
  rw [sourceTreeMain, hget]
  dsimp only
  rw [hresolve]
  dsimp only
  rw [updateSourcesFile, if_pos hget]

/-! ### The third-party sources -/

/-- The network gives every hash. -/
structure Serves (hashGit : List Char → List Char → List Char) (hashFile : List Char → List Char)
    (pins : PinWorld) : Prop where
  git : ∀ url rev, pins.prefetchGit url rev = some (hashGit url rev)
  file : ∀ url, pins.prefetchFile url = some (hashFile url)

/-- The network gives these hashes or none. -/
def Gives (hashGit : List Char → List Char → List Char) (hashFile : List Char → List Char)
    (pins : PinWorld) : Prop :=
  pins.Within (fun url rev hash ↦ hash = hashGit url rev) fun url hash ↦ hash = hashFile url

variable {hashGit : List Char → List Char → List Char} {hashFile : List Char → List Char}

/-- Where the network gives the hash, it does not matter whether it is taken from a file that has
it. -/
theorem chosenHash_of_hashed {url rev hash : List Char} {previous : Option ThirdParty.HashedSource}
    (h : ∀ p ∈ previous, url = p.url → rev = p.rev → p.hash = hash) :
    ThirdParty.chosenHash [] (some hash) url rev previous = .ok hash := by
  rw [ThirdParty.chosenHash, if_neg (not_not.2 rfl), ThirdParty.sourceHash]
  split
  next p hfilter =>
    obtain ⟨hp, hsame⟩ := Option.filter_eq_some_iff.1 hfilter
    obtain ⟨hurl, hrev, -⟩ := of_decide_eq_true hsame
    rw [h p hp hurl hrev]
  · rfl

theorem thirdPartyMain_congr {pins : PinWorld} (hserves : Serves hashGit hashFile pins)
    {staged : Staged} {previous previous' : Option ThirdPartyPins}
    (h : ∀ p ∈ previous, Hashed hashGit hashFile p)
    (h' : ∀ p ∈ previous', Hashed hashGit hashFile p) :
    ThirdParty.main c pins {} staged previous = ThirdParty.main c pins {} staged previous' := by
  -- a hash that is taken over from the file is the one that would be fetched
  have hesmi : ∀ {previous : Option ThirdPartyPins}, (∀ p ∈ previous, Hashed hashGit hashFile p) →
      ∀ url rev, ThirdParty.chosenHash [] (pins.prefetchGit url rev) url rev
        (previous.map ThirdPartyPins.esmiIbLibrary) = .ok (hashGit url rev) := by
    intro previous h url rev
    rw [hserves.git]
    refine chosenHash_of_hashed fun p hp hurl hrev ↦ ?_
    obtain ⟨file, hfile, rfl⟩ := Option.map_eq_some_iff.1 hp
    rw [hurl, hrev]
    exact (h file hfile).esmi
  have hspirv : ∀ {previous : Option ThirdPartyPins}, (∀ p ∈ previous, Hashed hashGit hashFile p) →
      ∀ url rev, ThirdParty.chosenHash [] (pins.prefetchFile url) url rev
        (previous.map ThirdPartyPins.spirvHeaders) = .ok (hashFile url) := by
    intro previous h url rev
    rw [hserves.file]
    refine chosenHash_of_hashed fun p hp hurl _ ↦ ?_
    obtain ⟨file, hfile, rfl⟩ := Option.map_eq_some_iff.1 hp
    rw [hurl]
    exact (h file hfile).spirv
  rw [ThirdParty.main, ThirdParty.main]
  simp only [hesmi h, hesmi h', hspirv h, hspirv h']

/-! ### One refresh -/

/-- The repository once the tree is recorded. -/
def recorded (w : StackWorld α) (repo : Repo) (target : String) (p : SourcePin) (rev : String)
    (graph : SourceGraph) (flake : List Char) : Repo :=
  { repo with
    sources := [(target, refreshedPin w p rev)]
    flake
    tree := writeTree target (refreshedPin w p rev).version graph }

variable (sha1 check c w) in
/-- The rest of a refresh, once the revision is known. -/
def refreshAt (repo : Repo) (target : String) (p : SourcePin) (rev : String) :
    Repo × Option StackError :=
  match namedGraph sha1 w target (refreshedPin w p rev) with
  | .error _ =>
    ({ repo with sources := [(target, refreshedPin w p rev)] }, some .calledProcessError)
  | .ok graph =>
    match updateFlakeInputs check "flake.nix" repo.flake graph with
    | .error _ =>
      ({ repo with sources := [(target, refreshedPin w p rev)] }, some .calledProcessError)
    | .ok flake => refreshThirdParty c w (recorded w repo target p rev graph flake)

/-- **What a refresh does** with a single target. -/
theorem refreshSource_singleton (hsources : repo.sources = [(target, p)]) :
    refreshSource sha1 check c w repo =
      match refreshedRev w p with
      | .error _ => (repo, some .calledProcessError)
      | .ok rev => refreshAt sha1 check c w repo target p rev := by
  rw [refreshSource, hsources]
  dsimp only
  rw [rocmSourceMain_singleton]
  rcases refreshedRev w p with error | rev
  · rfl
  dsimp only [Except.map]
  rw [sourceTreeMain_refreshedPin, refreshAt]
  rcases namedGraph sha1 w target (refreshedPin w p rev) with error | graph
  · rfl
  dsimp only
  rcases updateFlakeInputs check "flake.nix" repo.flake graph with error | flake
  · rfl
  · rfl

variable (sha1 check c w) in
/-- A refresh fails before the pin is written, or with the pin written, or records the tree and goes
on to the third-party sources. -/
theorem refreshSource_cases (hsources : repo.sources = [(target, p)]) :
    refreshSource sha1 check c w repo = (repo, some .calledProcessError) ∨
      ∃ rev, refreshSource sha1 check c w repo =
          ({ repo with sources := [(target, refreshedPin w p rev)] }, some .calledProcessError) ∨
        ∃ graph flake, updateFlakeInputs check "flake.nix" repo.flake graph = .ok flake ∧
          refreshSource sha1 check c w repo =
            refreshThirdParty c w (recorded w repo target p rev graph flake) := by
  rw [refreshSource_singleton hsources]
  rcases refreshedRev w p with error | rev
  · exact Or.inl rfl
  refine Or.inr ⟨rev, ?_⟩
  dsimp only
  rw [refreshAt]
  rcases namedGraph sha1 w target (refreshedPin w p rev) with error | graph
  · exact Or.inl rfl
  dsimp only
  rcases hflake : updateFlakeInputs check "flake.nix" repo.flake graph with error | flake
  · exact Or.inl rfl
  · exact Or.inr ⟨graph, flake, hflake, rfl⟩

variable (sha1 check c w) in
/-- Without a single target, a refresh does nothing. -/
theorem refreshSource_of_not_singleton (h : ∀ target p, repo.sources ≠ [(target, p)]) :
    ∃ message, ∀ repo', repo'.sources = repo.sources →
      refreshSource sha1 check c w repo' = (repo', some (.valueError message)) := by
  rcases hsources : repo.sources with _ | ⟨⟨target, p⟩, _ | ⟨q, rest⟩⟩
  · exact ⟨_, fun repo' h' ↦ by rw [refreshSource, h']⟩
  · exact absurd hsources (h target p)
  · exact ⟨_, fun repo' h' ↦ by rw [refreshSource, h']⟩

theorem refreshThirdParty_files (repo : Repo) :
    (refreshThirdParty c w repo).1.sources = repo.sources ∧
      (refreshThirdParty c w repo).1.flake = repo.flake ∧
      (refreshThirdParty c w repo).1.tree = repo.tree := by
  rw [refreshThirdParty]
  split
  · split
    · exact ⟨rfl, rfl, rfl⟩
    · split
      · exact ⟨rfl, rfl, rfl⟩
      · exact ⟨rfl, rfl, rfl⟩
  · exact ⟨rfl, rfl, rfl⟩

/-- A refresh leaves a repository in which the next one does what it would have done before. -/
theorem alike_refreshSource (repo : Repo) :
    Alike check (refreshSource sha1 check c w repo).1 repo := by
  by_cases hsingle : ∃ target p, repo.sources = [(target, p)]
  · obtain ⟨target, p, hsources⟩ := hsingle
    have hpolicy (rev : String) : SameTargets [(target, refreshedPin w p rev)] repo.sources :=
      Or.inr ⟨target, _, p, rfl, hsources, samePolicy_refreshedPin rev⟩
    obtain heq | ⟨rev, heq | ⟨graph, flake, hflake, heq⟩⟩ :=
      refreshSource_cases sha1 check c w hsources
    · rw [heq]
      exact ⟨Or.inl rfl, fun _ ↦ rfl⟩
    · rw [heq]
      exact ⟨hpolicy rev, fun _ ↦ rfl⟩
    · obtain ⟨hsources', hflake', -⟩ :=
        refreshThirdParty_files (c := c) (w := w) (recorded w repo target p rev graph flake)
      rw [heq]
      refine ⟨hsources' ▸ hpolicy rev, fun graph' ↦ ?_⟩
      -- the block that this refresh wrote is the one that the next call replaces
      have hafter : flakeAfter check "flake.nix" graph repo.flake = flake := by
        rw [flakeAfter, hflake]
      rw [hflake', show (recorded w repo target p rev graph flake).flake = flake from rfl,
        ← hafter, updateFlakeInputs_flakeAfter]
  · obtain ⟨message, hmessage⟩ := refreshSource_of_not_singleton sha1 check c w
      fun target p h ↦ hsingle ⟨target, p, h⟩
    rw [hmessage repo rfl]
    exact ⟨Or.inl rfl, fun _ ↦ rfl⟩

theorem hashed_refreshThirdParty (hgives : Gives hashGit hashFile w.pins)
    (h : ∀ pins ∈ repo.thirdParty, Hashed hashGit hashFile pins) :
    ∀ pins ∈ (refreshThirdParty c w repo).1.thirdParty, Hashed hashGit hashFile pins := by
  rw [refreshThirdParty]
  split
  · split
    · exact h
    · split
      · exact h
      next pins hmain =>
        rintro _ ⟨⟩
        exact ThirdParty.Sound.main hgives ⟨fun h ↦ absurd rfl h, fun h ↦ absurd rfl h⟩ h hmain
  · exact h

/-- A refresh keeps the hashes those of their sources. -/
theorem hashed_refreshSource (hgives : Gives hashGit hashFile w.pins)
    (h : ∀ pins ∈ repo.thirdParty, Hashed hashGit hashFile pins) :
    ∀ pins ∈ (refreshSource sha1 check c w repo).1.thirdParty, Hashed hashGit hashFile pins := by
  by_cases hsingle : ∃ target p, repo.sources = [(target, p)]
  · obtain ⟨target, p, hsources⟩ := hsingle
    obtain heq | ⟨rev, heq | ⟨graph, flake, -, heq⟩⟩ :=
      refreshSource_cases sha1 check c w hsources
    · rw [heq]
      exact h
    · rw [heq]
      exact h
    · rw [heq]
      exact hashed_refreshThirdParty hgives h
  · obtain ⟨message, hmessage⟩ := refreshSource_of_not_singleton sha1 check c w
      fun target p h ↦ hsingle ⟨target, p, h⟩
    rw [hmessage repo rfl]
    exact h

/-- Two runs end alike: with the same outcome, and in the same repository if they complete. -/
def EndsAlike (r r' : Repo × Option StackError) : Prop := r.2 = r'.2 ∧ (r.2 = none → r.1 = r'.1)

theorem refreshThirdParty_congr (hserves : Serves hashGit hashFile w.pins)
    (ha : ∀ pins ∈ a.thirdParty, Hashed hashGit hashFile pins)
    (hb : ∀ pins ∈ b.thirdParty, Hashed hashGit hashFile pins) (hsources : a.sources = b.sources)
    (hflake : a.flake = b.flake) (htree : a.tree = b.tree) :
    EndsAlike (refreshThirdParty c w a) (refreshThirdParty c w b) := by
  obtain ⟨sources, flake, tree, thirdParty⟩ := a
  obtain ⟨_, _, _, thirdParty'⟩ := b
  obtain rfl : sources = _ := hsources
  obtain rfl : flake = _ := hflake
  obtain rfl : tree = _ := htree
  rw [refreshThirdParty, refreshThirdParty]
  split
  · rcases w.build flake tree with _ | staged
    · exact ⟨rfl, nofun⟩
    · dsimp only
      rw [thirdPartyMain_congr hserves ha hb]
      rcases ThirdParty.main c w.pins {} staged thirdParty' with error | pins
      · exact ⟨rfl, nofun⟩
      · exact ⟨rfl, fun _ ↦ rfl⟩
  · exact ⟨rfl, nofun⟩

/-- **Alike repositories are refreshed alike**, if the network gives every hash. -/
theorem endsAlike_refreshSource (h : Alike check a b) (hserves : Serves hashGit hashFile w.pins)
    (ha : ∀ pins ∈ a.thirdParty, Hashed hashGit hashFile pins)
    (hb : ∀ pins ∈ b.thirdParty, Hashed hashGit hashFile pins) :
    EndsAlike (refreshSource sha1 check c w a) (refreshSource sha1 check c w b) := by
  by_cases hsingle : ∃ target p, a.sources = [(target, p)]
  · obtain ⟨target, p, hp⟩ := hsingle
    obtain ⟨q, hq, hpolicy⟩ : ∃ q, b.sources = [(target, q)] ∧ SamePolicy p q := by
      rcases h.sources with hsame | ⟨target', p', q, hp', hq, hpolicy⟩
      · exact ⟨p, hsame ▸ hp, SamePolicy.refl p⟩
      · obtain ⟨rfl, rfl⟩ : target = target' ∧ p = p' := by simpa [hp] using hp'
        exact ⟨q, hq, hpolicy⟩
    rw [refreshSource_singleton hp, refreshSource_singleton hq, refreshedRev_congr hpolicy]
    rcases refreshedRev w q with error | rev
    · exact ⟨rfl, nofun⟩
    dsimp only
    rw [refreshAt, refreshAt, refreshedPin_congr hpolicy]
    rcases namedGraph sha1 w target (refreshedPin w q rev) with error | graph
    · exact ⟨rfl, nofun⟩
    dsimp only
    rw [h.flake graph]
    rcases updateFlakeInputs check "flake.nix" b.flake graph with error | flake
    · exact ⟨rfl, nofun⟩
    refine refreshThirdParty_congr hserves ha hb ?_ rfl ?_
    · rw [recorded, recorded, refreshedPin_congr hpolicy]
    · rw [recorded, recorded, refreshedPin_congr hpolicy]
  · have hsame : a.sources = b.sources := by
      rcases h.sources with hsame | ⟨target, p, q, hp, -⟩
      · exact hsame
      · exact absurd ⟨target, p, hp⟩ hsingle
    obtain ⟨message, hmessage⟩ := refreshSource_of_not_singleton sha1 check c w
      fun target p h ↦ hsingle ⟨target, p, h⟩
    rw [hmessage a rfl, hmessage b hsame.symm]
    exact ⟨rfl, nofun⟩

/-! ### Refreshes -/

/-- A refresh as a step, whether it completes or not. -/
def refreshSourceStep (sha1 : String → List Char) (check : List Char → Bool) (c : WordClass)
    (repo : Repo) (w : StackWorld α) : Option Repo :=
  some (refreshSource sha1 check c w repo).1

/-- The files agree: the flake is the first one with the repositories of a graph as its inputs, the
record of the tree is that of the same graph, and the graph is that of the revision that is
pinned. -/
def Agrees (sha1 : String → List Char) (check : List Char → Bool) (w : StackWorld α)
    (repo₀ out : Repo) : Prop :=
  ∃ target p rev graph, out.sources = [(target, refreshedPin w p rev)] ∧
    namedGraph sha1 w target (refreshedPin w p rev) = .ok graph ∧
    updateFlakeInputs check "flake.nix" repo₀.flake graph = .ok out.flake ∧
    out.tree = writeTree target (refreshedPin w p rev).version graph

theorem agrees_of_completes (hcompletes : (refreshSource sha1 check c w repo).2 = none) :
    Agrees sha1 check w repo (refreshSource sha1 check c w repo).1 := by
  -- each step that fails ends the refresh with an error, so all of them succeeded
  by_cases hsingle : ∃ target p, repo.sources = [(target, p)]
  · obtain ⟨target, p, hsources⟩ := hsingle
    rw [refreshSource_singleton hsources] at hcompletes ⊢
    rcases hrev : refreshedRev w p with error | rev
    · rw [hrev] at hcompletes
      cases hcompletes
    rw [hrev] at hcompletes
    dsimp only at hcompletes ⊢
    rw [refreshAt] at hcompletes ⊢
    rcases hgraph : namedGraph sha1 w target (refreshedPin w p rev) with error | graph
    · rw [hgraph] at hcompletes
      cases hcompletes
    rw [hgraph] at hcompletes
    dsimp only at hcompletes ⊢
    rcases hflake : updateFlakeInputs check "flake.nix" repo.flake graph with error | flake
    · rw [hflake] at hcompletes
      cases hcompletes
    dsimp only
    obtain ⟨hsources', hflake', htree'⟩ :=
      refreshThirdParty_files (c := c) (w := w) (recorded w repo target p rev graph flake)
    exact ⟨target, p, rev, graph, hsources', hgraph, hflake'.symm ▸ hflake, htree'⟩
  · obtain ⟨message, hmessage⟩ := refreshSource_of_not_singleton sha1 check c w
      fun target p h ↦ hsingle ⟨target, p, h⟩
    rw [hmessage repo rfl] at hcompletes
    cases hcompletes

/-- **Refreshes repair each other**: whatever refreshes have been run, completed or not, the next
one ends as it would have ended without them, and if it completes, it leaves the files that it would
have left, and these agree. The hashes in the first file are right, those that the earlier refreshes
got are right, though they need not have got any, and the next refresh gets every hash it asks for:
whether it has to ask depends on what the earlier ones have left for reuse. -/
theorem refreshSource_of_reach {repo₀ : Repo}
    (h₀ : ∀ pins ∈ repo₀.thirdParty, Hashed hashGit hashFile pins)
    (h : Transition.Reach (refreshSourceStep (α := α) sha1 check c)
      (fun _ w ↦ Gives hashGit hashFile w.pins) repo₀ repo)
    (w : StackWorld α) (hserves : Serves hashGit hashFile w.pins) :
    EndsAlike (refreshSource sha1 check c w repo) (refreshSource sha1 check c w repo₀) ∧
      ((refreshSource sha1 check c w repo).2 = none →
        Agrees sha1 check w repo₀ (refreshSource sha1 check c w repo).1) := by
  obtain ⟨halike, hhashed⟩ : Alike check repo repo₀ ∧
      ∀ pins ∈ repo.thirdParty, Hashed hashGit hashFile pins := by
    refine h.invariant (I := fun repo ↦ Alike check repo repo₀ ∧
      ∀ pins ∈ repo.thirdParty, Hashed hashGit hashFile pins)
      ⟨⟨Or.inl rfl, fun _ ↦ rfl⟩, h₀⟩ ?_
    rintro repo w _ - ⟨halike, hhashed⟩ hgives ⟨⟩
    exact ⟨(alike_refreshSource repo).trans halike, hashed_refreshSource hgives hhashed⟩
  have hends : EndsAlike (refreshSource sha1 check c w repo) (refreshSource sha1 check c w repo₀) :=
    endsAlike_refreshSource halike hserves hhashed h₀
  refine ⟨hends, fun hcompletes ↦ ?_⟩
  rw [hends.2 hcompletes]
  exact agrees_of_completes (hends.1 ▸ hcompletes)

/-! ### A refresh after one that failed -/

/-- A branch at the first revision, and a network that names what it fetches. -/
def branchWorld (fetchRepo : Bool) : StackWorld String where
  lsRemote _ ref := some ("1\t".toList ++ ref.toList ++ ['\n'])
  lsRemoteWithStderr _ _ := none
  fetchRepo
  git := nestedGit
  flakeLock _ := true
  build _ _ := some ThirdParty.stagedTree
  pins := ThirdParty.namingWorld
  now := "2026-09-01T00:00:00+00:00"

def branchPin : SourcePin where
  url := "https://github.com/ROCm/TheRock.git"
  ref := none
  rev := none
  version := "10.0"
  fetchArgs := none
  deepNestedSubmodules := some nestedSource.deepNestedSubmodules
  updated := none

def branchRepo : Repo where
  sources := [("gfx1151", branchPin)]
  flake := emptyFlake
  tree := []
  thirdParty := none

/-- The digest of any text. -/
def branchSha1 (_ : String) : List Char := "0123456789".toList

def branchRefresh (fetchRepo : Bool) (repo : Repo) : Repo × Option StackError :=
  refreshSource branchSha1 (fun _ ↦ true) .ascii (branchWorld fetchRepo) repo

theorem refreshSource_of_reach_branchRepo :
    (branchRefresh false branchRepo).2 = some .calledProcessError ∧
      EndsAlike (branchRefresh true (branchRefresh false branchRepo).1)
        (branchRefresh true branchRepo) ∧
      Agrees branchSha1 (fun _ ↦ true) (branchWorld true) branchRepo
        (branchRefresh true (branchRefresh false branchRepo).1).1 := by
  have hreach : Transition.Reach (refreshSourceStep branchSha1 (fun _ ↦ true) .ascii)
      (fun _ w ↦ Gives (fun _ rev ↦ "sha256-".toList ++ rev) (fun url ↦ "sha256-".toList ++ url)
        w.pins) branchRepo (branchRefresh false branchRepo).1 :=
    Transition.Reach.refl.tail (a := branchWorld false)
      ⟨fun _ _ _ h ↦ (Option.some.inj h).symm, fun _ _ h ↦ (Option.some.inj h).symm⟩ rfl
  obtain ⟨hends, hagrees⟩ := refreshSource_of_reach (fun _ h ↦ by cases h) hreach (branchWorld true)
    ⟨fun _ _ ↦ rfl, fun _ ↦ rfl⟩
  exact ⟨by decide +kernel, hends, hagrees (by decide +kernel)⟩

end TheRock
