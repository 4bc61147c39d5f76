import NixStrixHalo.Library.LastMax
import NixStrixHalo.Library.OrderedDict
import NixStrixHalo.Library.Result
import NixStrixHalo.TheRock.Version

/-!
# Pinning Python wheels

`update-python-wheels.py` pins, for one GPU target, a set of projects of a package index at one ROCm
version. `choose_rocm_version` picks the newest version that every project with ROCm-tagged
distributions has, `choose_distribution` picks a distribution of each project for it, and `main`
records the picks in a JSON file.

## The world

An index lists distributions by file name. What a run gets from outside, the listings, the hashes,
the time and the order in which Python enumerates a set, is a `World`. A run that ends early writes
nothing (`Failure`).

## The regular expressions

The tag of a ROCm version is searched in a version text, and the functions follow the expressions of
the source from left to right: `\d+\.[^-+]+` needs a digit before its dot and takes everything up to
the next separator behind it. The texts of file names are taken apart from the right.

## Runs

`main_eq_ok_iff` says when a run writes a file and which: the modules that follow cite it and never
unfold `main`. The entry of one project has its own (`pinProject_eq_ok_iff`).
-/

namespace TheRock

/-! ### Distributions -/

/-- `kind`. -/
inductive Kind
  | wheel
  | sdist
  deriving DecidableEq

/-- `Distribution`. -/
structure Distribution where
  project : String
  filename : String
  url : String
  packageVersion : String
  rocmVersion : Option String
  pythonTag : String
  abiTag : String
  platformTag : String
  kind : Kind
  deriving DecidableEq

/-- `normalize_project`. -/
def normalizeProject (project : String) : String :=
  String.ofList (project.toList.map fun c ↦ (if c = '_' then '-' else c).toLower)

/-- What `\d+\.[^-+]+` matches at the start of a string, with what follows it. -/
def matchRocmVersion (s : List Char) : Option (List Char × List Char) :=
  match s.span Char.isDigit with
  | (major, '.' :: rest) =>
    let (tail, suffix) := rest.span fun c ↦ c ≠ '-' ∧ c ≠ '+'
    if major = [] ∨ tail = [] then none else some (major ++ '.' :: tail, suffix)
  | _ => none

/-- The group of `re.search(r"(?:\+|\.|-)rocm(\d+\.[^-+]+)", s)`. -/
def searchRocmTag : List Char → Option (List Char)
  | [] => none
  | c :: cs =>
    match (if c = '+' ∨ c = '.' ∨ c = '-' then cs.dropPrefix? "rocm".toList else none).bind
        matchRocmVersion with
    | some (version, _) => some version
    | none => searchRocmTag cs

/-- `rocm_match.group(1)`. The ROCm packages themselves need no tag. -/
def rocmMatch (project packageVersion : String) : Option String :=
  (searchRocmTag packageVersion.toList <|>
    if "rocm-sdk".toList.isPrefixOf project.toList ∨ project = "rocm" then
      (matchRocmVersion packageVersion.toList).bind fun (version, suffix) ↦
        if suffix = [] then some version else none
    else none).map String.ofList

/-- `parse_distribution`, for the file name at the end of a link's unquoted path and the link's
URL. -/
def parseDistribution (project filename url : String) : Option Distribution := do
  if let some stem := filename.toList.dropSuffix? ".whl".toList then
    let parts := stem.splitOn '-'
    guard (5 ≤ parts.length)
    let rawName := ['-'].intercalate (parts.take (parts.length - 4))
    let [packageVersion, pythonTag, abiTag, platformTag] :=
      (parts.drop (parts.length - 4)).map String.ofList | none
    guard (normalizeProject (String.ofList rawName) = normalizeProject project)
    return { project, filename, url, packageVersion,
             rocmVersion := rocmMatch project packageVersion
             pythonTag, abiTag, platformTag
             kind := .wheel }
  else if let some stem := filename.toList.dropSuffix? ".tar.gz".toList then
    let parts := stem.splitOn '-'
    guard (2 ≤ parts.length)
    let rawName := ['-'].intercalate parts.dropLast
    let packageVersion := String.ofList (parts.getLastD [])
    guard (normalizeProject (String.ofList rawName) = normalizeProject project)
    return { project, filename, url, packageVersion,
             rocmVersion := rocmMatch project packageVersion
             pythonTag := "source", abiTag := "source", platformTag := "source"
             kind := .sdist }
  else none

example : (parseDistribution "torch" "torch-2.13.0+rocm10.0.0-cp313-cp313-linux_x86_64.whl" "u").map
    (fun dist ↦ (dist.packageVersion, dist.rocmVersion)) =
      some ("2.13.0+rocm10.0.0", some "10.0.0") := by decide

example : (parseDistribution "triton"
    "triton-3.8.0+git4cff872c.rocm10.0.0-cp313-cp313-linux_x86_64.whl" "u").map
      Distribution.rocmVersion = some (some "10.0.0") := by decide

example : (parseDistribution "rocm-sdk-core" "rocm_sdk_core-10.0.0.tar.gz" "u").map
    (fun dist ↦ (dist.kind, dist.rocmVersion)) = some (.sdist, some "10.0.0") := by decide

/-! ### Filters -/

/-- `dist_matches_python`. -/
def distMatchesPython (dist : Distribution) (pythonTag : String) : Bool :=
  if dist.pythonTag = "py3" ∨ dist.pythonTag = "source" then true
  else dist.pythonTag = pythonTag ∧ dist.abiTag = pythonTag

/-- `dist_matches_platform`. -/
def distMatchesPlatform (dist : Distribution) : Bool :=
  dist.platformTag ∈ ["linux_x86_64", "any", "source"]

/-- `public_package_version`. -/
def publicPackageVersion (version : String) : String :=
  String.ofList (version.toList.takeWhile (· ≠ '+'))

/-- `package_version_key`. -/
def packageVersionKey (version : String) : VersionKey := versionKey (publicPackageVersion version)

/-- `dist_matches_package_version`. -/
def distMatchesPackageVersion (dist : Distribution) (packageVersion : Option String) : Bool :=
  packageVersion.all fun version ↦ publicPackageVersion dist.packageVersion = version

/-- The three conditions that both choices put on a distribution. -/
def distMatches (pythonTag : String) (packageVersion : Option String) (dist : Distribution) :
    Bool :=
  distMatchesPython dist pythonTag && distMatchesPlatform dist &&
    distMatchesPackageVersion dist packageVersion

/-! ### The choices -/

/-- How a run ends early. -/
inductive Failure
  | systemExit (message : String)
  | argumentError (message : String)
  | indexError
  | attributeError
  deriving DecidableEq

/-- The order in which Python enumerates a set. -/
structure SetOrder where
  toList : List String → List String
  perm : ∀ l, (toList l).Perm l

/-- Enumerate a set in the order in which it was built. -/
def SetOrder.asBuilt : SetOrder where
  toList l := l
  perm l := List.Perm.refl l

/-- Some distribution carries a ROCm version. -/
def IsTagged (distributions : List Distribution) : Prop :=
  ∃ dist ∈ distributions, dist.rocmVersion.isSome

instance (distributions : List Distribution) : Decidable (IsTagged distributions) :=
  inferInstanceAs (Decidable (∃ dist ∈ distributions, dist.rocmVersion.isSome))

/-- `versions`, as a list. -/
def projectVersions (series pythonTag : String) (packageVersion : Option String)
    (distributions : List Distribution) : List String :=
  ((distributions.filter (distMatches pythonTag packageVersion)).filterMap
    Distribution.rocmVersion).filter (inRocmSeries · series)

/-- The loop of `choose_rocm_version`. -/
def commonVersions (series pythonTag : String) (packageVersions : String → Option String) :
    Option (List String) → List (String × List Distribution) →
      Except Failure (Option (List String))
  | common, [] => .ok common
  | common, (project, distributions) :: rest =>
    if IsTagged distributions then
      let versions := projectVersions series pythonTag
        (packageVersions (normalizeProject project)) distributions
      if versions = [] then
        .error (.systemExit (s!"no linux distribution found for {project} in ROCm series " ++
          s!"{series} with Python tag {pythonTag}"))
      else
        commonVersions series pythonTag packageVersions
          (some (common.elim versions fun common ↦ common.filter (· ∈ versions))) rest
    else commonVersions series pythonTag packageVersions common rest

/-- `choose_rocm_version`. -/
def chooseRocmVersion (order : SetOrder)
    (distributionsByProject : List (String × List Distribution)) (series pythonTag : String)
    (packageVersions : String → Option String) : Except Failure String := do
  let common ← commonVersions series pythonTag packageVersions none distributionsByProject
  match LastMax.lastMax versionKey (order.toList (common.getD []).dedup) with
  | some version => .ok version
  | none =>
    let projects := ", ".intercalate (distributionsByProject.map Prod.fst)
    .error (.systemExit (s!"no common ROCm version for {projects} in series {series} " ++
      s!"with Python tag {pythonTag}"))

/-- `candidates`. -/
def candidates (rocmVersion pythonTag : String) (packageVersion : Option String)
    (distributions : List Distribution) : List Distribution :=
  distributions.filter fun dist ↦
    dist.rocmVersion.all (· = rocmVersion) && distMatches pythonTag packageVersion dist

/-- The key by which `choose_distribution` sorts. -/
def distKey (dist : Distribution) : Bool ×ₗ VersionKey :=
  toLex (dist.kind = .wheel, packageVersionKey dist.packageVersion)

/-- `choose_distribution`. -/
def chooseDistribution (rocmVersion pythonTag : String) (packageVersion : Option String)
    (distributions : List Distribution) : Except Failure Distribution :=
  match LastMax.lastMax distKey
      (candidates rocmVersion pythonTag packageVersion distributions) with
  | some dist => .ok dist
  | none =>
    match distributions with
    | [] => .error .indexError
    | dist :: _ =>
      let project := dist.project
      .error (.systemExit (s!"no distribution found for {project}: ROCm {rocmVersion}, " ++
        s!"Python {pythonTag}"))

/-! ### The pin file -/

/-- An entry of `packages`. -/
structure PackagePin where
  url : String
  hash : String
  filename : String
  packageVersion : String
  rocmVersion : String
  pythonTag : String
  abiTag : String
  platformTag : String
  kind : Kind
  deriving DecidableEq

/-- An entry of `targets`. -/
structure TargetSources where
  target : String
  series : Option String
  rocmVersion : String
  pythonTag : String
  index : String
  packages : List (String × PackagePin)
  updated : String
  deriving DecidableEq

/-- The file, in the layout that `main` writes. -/
structure Sources where
  targets : List (String × TargetSources) := []
  updated : Option String := none
  deriving DecidableEq

/-- The strings under a key `rocmVersion`, in the order of the text. -/
def Sources.rocmVersions (sources : Sources) : List String :=
  sources.targets.flatMap fun (_, target) ↦
    target.rocmVersion :: target.packages.map fun (_, pin) ↦ pin.rocmVersion

/-- `pinned_series`: the first text that matches `"rocmVersion":\s*"(\d+\.\d+)\.`. -/
def pinnedSeries (sources : Sources) : Option String :=
  sources.rocmVersions.findSome? matchSeriesDot

/-- `pinned_python_tag`. -/
def pinnedPythonTag (sources : Sources) (target : String) : Option String :=
  (OrderedDict.get? sources.targets target).map TargetSources.pythonTag

/-! ### A run -/

/-- `BASE_URL`. -/
def baseUrl : String := "https://stable.repo.amd.com/rocm/whl-next"

/-- `DEFAULT_SERIES`. -/
def defaultSeries : String := "10.0"

/-- `BASE_PACKAGES`. -/
def basePackages : List String :=
  ["rocm", "rocm-bootstrap", "torch", "torchvision", "torchaudio", "triton", "rocm-sdk-core",
    "rocm-sdk-devel", "rocm-sdk-libraries"]

/-- `TORCH_DEVICE_FAMILIES`. -/
def torchDeviceFamilies : List (String × String) :=
  [("gfx1100", "gfx110x"), ("gfx1101", "gfx110x"), ("gfx1102", "gfx110x"), ("gfx1103", "gfx110x"),
    ("gfx1150", "gfx115x"), ("gfx1151", "gfx115x"), ("gfx1152", "gfx115x"), ("gfx1153", "gfx115x"),
    ("gfx1200", "gfx12-0"), ("gfx1201", "gfx12-0")]

/-- `default_packages`. -/
def defaultPackages (target : String) : List String :=
  basePackages ++
    ["amd-torch-device-" ++ target, "amd-torchvision-device-" ++ target,
      "rocm-sdk-device-" ++ target] ++
    ((torchDeviceFamilies.lookup target).map fun family ↦ "amd-torch-device-" ++ family).toList

/-- The command line. The values of `--package-version` are parsed. -/
structure Args where
  target : String := "gfx1151"
  pythonTag : Option String := none
  series : Option String := none
  rocmVersion : Option String := none
  package : List String := []
  packageVersion : List (String × String) := []

/-- `parse_package_version`. -/
def parsePackageVersion (value : String) : Except Failure (String × String) :=
  let (project, rest) := value.toList.span (· ≠ '=')
  if project = [] ∨ rest.tail = [] then .error (.argumentError "expected PROJECT=VERSION")
  else .ok (normalizeProject (String.ofList project), String.ofList rest.tail)

/-- What a run gets from outside. -/
structure World where
  listDistributions : String → Except Failure (List Distribution)
  prefetch : String → Except Failure String
  now : String
  setOrder : SetOrder

/-- A value that Python takes for true. -/
def truthy (value : Option String) : Option String := value.filter (· ≠ "")

/-- `package_versions.setdefault(key, version)`, which does nothing without a version. -/
def setDefault (packageVersions : String → Option String) (key : String) (version : Option String) :
    String → Option String :=
  Function.update packageVersions key (packageVersions key <|> version)

/-- One turn of the loop that derives the constraints of the device wheels; `given` is
`package_versions` before the loop. -/
def deriveVersion (given versions : String → Option String) (project : String) :
    String → Option String :=
  let normalized := normalizeProject project
  if "amd-torch-device-".toList.isPrefixOf normalized.toList then
    setDefault versions normalized (given "torch")
  else if "amd-torchvision-device-".toList.isPrefixOf normalized.toList then
    setDefault versions normalized (given "torchvision")
  else versions

/-- `package_versions` after the loop. -/
def deriveVersions (given : String → Option String) (projects : List String) :
    String → Option String :=
  projects.foldl (deriveVersion given) given

/-- What `main` records of a distribution. -/
def packagePin (dist : Distribution) (hash rocmVersion : String) : PackagePin where
  url := dist.url
  hash := hash
  filename := dist.filename
  packageVersion := dist.packageVersion
  rocmVersion := (truthy dist.rocmVersion).getD rocmVersion
  pythonTag := dist.pythonTag
  abiTag := dist.abiTag
  platformTag := dist.platformTag
  kind := dist.kind

namespace Args

variable (args : Args)

/-- `projects`. -/
def projects : List String :=
  if args.package = [] then defaultPackages args.target else args.package

/-- `package_versions`: the last value given for a project counts, and device wheels get a derived
one. -/
def packageVersions : String → Option String :=
  deriveVersions (args.packageVersion.reverse.lookup ·) args.projects

/-- `python_tag`. -/
def resolvedPythonTag (sources : Sources) : Option String :=
  truthy args.pythonTag <|> pinnedPythonTag sources args.target

/-- `args.series`, once the default is filled in. -/
def resolvedSeries (sources : Sources) : Option String :=
  if truthy args.series = none ∧ truthy args.rocmVersion = none then
    some ((truthy (pinnedSeries sources)).getD defaultSeries)
  else args.series

end Args

/-- `distributions_by_project`. -/
def distributionsByProject (w : World) (projects : List String) :
    Except Failure (List (String × List Distribution)) :=
  projects.eraseDups.mapM fun project ↦ do return (project, ← w.listDistributions project)

/-- `rocm_version`. -/
def selectRocmVersion (w : World) (args : Args) (sources : Sources) (pythonTag : String)
    (distributions : List (String × List Distribution)) : Except Failure String :=
  match truthy args.rocmVersion, args.resolvedSeries sources with
  | some version, _ => .ok version
  | none, none => .error .attributeError
  | none, some series =>
    chooseRocmVersion w.setOrder distributions series pythonTag args.packageVersions

/-- The pin of one project. -/
def pinProject (w : World) (args : Args) (pythonTag rocmVersion project : String) :
    Except Failure (String × PackagePin) := do
  let distributions ← w.listDistributions project
  let dist ← chooseDistribution rocmVersion pythonTag
    (args.packageVersions (normalizeProject project)) distributions
  let hash ← w.prefetch dist.url
  return (project, packagePin dist hash rocmVersion)

/-- `main`: the file it writes. -/
def main (w : World) (args : Args) (sources : Sources) : Except Failure Sources := do
  let some pythonTag := args.resolvedPythonTag sources
    | .error (.argumentError
        "--python-tag is required when the output has no current pin for this target")
  let distributions ← distributionsByProject w args.projects
  let rocmVersion ← selectRocmVersion w args sources pythonTag distributions
  let pins ← args.projects.mapM (pinProject w args pythonTag rocmVersion)
  let target : TargetSources :=
    { target := args.target
      series := args.resolvedSeries sources
      rocmVersion, pythonTag
      index := baseUrl ++ "/"
      packages := OrderedDict.ofPairs pins
      updated := w.now }
  return { targets := OrderedDict.insert args.target target sources.targets
           updated := some w.now }

/-- **What a run does**: it picks a ROCm version, pins every project at it and writes the entry of
its target. -/
theorem main_eq_ok_iff {w : World} {args : Args} {sources out : Sources} :
    main w args sources = .ok out ↔ ∃ pythonTag d rocmVersion pins,
      args.resolvedPythonTag sources = some pythonTag ∧
      distributionsByProject w args.projects = .ok d ∧
      selectRocmVersion w args sources pythonTag d = .ok rocmVersion ∧
      args.projects.mapM (pinProject w args pythonTag rocmVersion) = .ok pins ∧
      out = { targets := OrderedDict.insert args.target
                { target := args.target
                  series := args.resolvedSeries sources
                  rocmVersion, pythonTag
                  index := baseUrl ++ "/"
                  packages := OrderedDict.ofPairs pins
                  updated := w.now } sources.targets
              updated := some w.now } := by
  rw [main]
  rcases args.resolvedPythonTag sources with _ | pythonTag
  · simp
  · constructor
    · intro h
      obtain ⟨d, hd, h⟩ := Result.bind_eq_ok_iff.1 h
      obtain ⟨rocmVersion, hr, h⟩ := Result.bind_eq_ok_iff.1 h
      obtain ⟨pins, hpins, h⟩ := Result.bind_eq_ok_iff.1 h
      exact ⟨pythonTag, d, rocmVersion, pins, rfl, hd, hr, hpins, (Except.ok.inj h).symm⟩
    · rintro ⟨_, d, rocmVersion, pins, ⟨⟩, hd, hr, hpins, rfl⟩
      exact Result.bind_eq_ok_iff.2 ⟨d, hd, Result.bind_eq_ok_iff.2 ⟨rocmVersion, hr,
        Result.bind_eq_ok_iff.2 ⟨pins, hpins, rfl⟩⟩⟩

theorem pinProject_eq_ok_iff {w : World} {args : Args} {pythonTag rocmVersion project : String}
    {p : String × PackagePin} : pinProject w args pythonTag rocmVersion project = .ok p ↔
      ∃ distributions dist hash, w.listDistributions project = .ok distributions ∧
        chooseDistribution rocmVersion pythonTag
          (args.packageVersions (normalizeProject project)) distributions = .ok dist ∧
        w.prefetch dist.url = .ok hash ∧ p = (project, packagePin dist hash rocmVersion) := by
  constructor
  · intro h
    obtain ⟨distributions, hlist, h⟩ := Result.bind_eq_ok_iff.1 h
    obtain ⟨dist, hdist, h⟩ := Result.bind_eq_ok_iff.1 h
    obtain ⟨hash, hhash, h⟩ := Result.bind_eq_ok_iff.1 h
    exact ⟨distributions, dist, hash, hlist, hdist, hhash, (Except.ok.inj h).symm⟩
  · rintro ⟨distributions, dist, hash, hlist, hdist, hhash, rfl⟩
    exact Result.bind_eq_ok_iff.2 ⟨distributions, hlist, Result.bind_eq_ok_iff.2 ⟨dist, hdist,
      Result.bind_eq_ok_iff.2 ⟨hash, hhash, rfl⟩⟩⟩

end TheRock
