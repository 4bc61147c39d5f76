import Mathlib.Data.List.Dedup
import NixStrixHalo.TheRock.PythonWheels

/-!
# Coherent wheel closures

What `choose_rocm_version` and `choose_distribution` pick, said without loops or sorts, and when the
picks of a run fit together: every project with ROCm-tagged distributions is pinned at the chosen
version (`coherent_iff`), and the device wheels are pinned at the public version of their frontend
(`deviceMatch_iff`).

## What is picked

`choose_rocm_version` intersects sets and takes the greatest of what is left, in whichever order
Python enumerates it: a newest common version (`IsNewestCommon`), and every one of these for some
order. `choose_distribution` takes the last maximum of the candidates. Both are the two notions of
`LastMax` at their own keys.

## Untagged distributions

A distribution without a ROCm tag is a candidate for every version, so it can win against one that
was built for the chosen version. `UntaggedLose` says that none does, one candidate at a time.

## Device wheels

The constraint of a device wheel comes from what the command line gives for its frontend, and where
this gives nothing, the device wheel is unconstrained. Then the newest of both may have different
public versions, which `Agree` compares. It is no comparison of picks where the command line gives
both or only the frontend (`Agree.of_given`).
-/

namespace TheRock

/-! ### The newest common version -/

section

variable {series pythonTag : String} {packageVersions : String → Option String}
  {d : List (String × List Distribution)} {order : SetOrder} {v : String}

/-- Every project that has tagged distributions has one at `v` that matches, and there is such a
project. -/
def IsCommon (series pythonTag : String) (packageVersions : String → Option String)
    (d : List (String × List Distribution)) (v : String) : Prop :=
  (∃ p ∈ d, IsTagged p.2) ∧ ∀ p ∈ d, IsTagged p.2 →
    v ∈ projectVersions series pythonTag (packageVersions (normalizeProject p.1)) p.2

/-- A common version that no other exceeds. -/
def IsNewestCommon (series pythonTag : String) (packageVersions : String → Option String)
    (d : List (String × List Distribution)) (v : String) : Prop :=
  IsCommon series pythonTag packageVersions d v ∧
    ∀ w, IsCommon series pythonTag packageVersions d w → versionKey w ≤ versionKey v

theorem mem_projectVersions {packageVersion : Option String} {distributions : List Distribution} :
    v ∈ projectVersions series pythonTag packageVersion distributions ↔
      (∃ dist ∈ distributions, dist.rocmVersion = some v ∧
        distMatches pythonTag packageVersion dist) ∧ inRocmSeries v series := by
  simp only [projectVersions, List.mem_filter, List.mem_filterMap]
  constructor
  · rintro ⟨⟨dist, ⟨hmem, hmatch⟩, hv⟩, hseries⟩
    exact ⟨⟨dist, hmem, hv, hmatch⟩, hseries⟩
  · rintro ⟨⟨dist, hmem, hv, hmatch⟩, hseries⟩
    exact ⟨⟨dist, ⟨hmem, hmatch⟩, hv⟩, hseries⟩

/-- The loop keeps the versions that every tagged project has. -/
theorem mem_commonVersions {common c : Option (List String)}
    (h : commonVersions series pythonTag packageVersions common d = .ok c) :
    (c = none ↔ common = none ∧ ∀ p ∈ d, ¬ IsTagged p.2) ∧
      ∀ v, (∀ l ∈ c, v ∈ l) ↔ (∀ l ∈ common, v ∈ l) ∧ ∀ p ∈ d, IsTagged p.2 →
        v ∈ projectVersions series pythonTag (packageVersions (normalizeProject p.1)) p.2 := by
  induction d generalizing common with
  | nil =>
    obtain rfl : common = c := by simpa [commonVersions] using h
    simp
  | cons p d ih =>
    obtain ⟨project, distributions⟩ := p
    rw [commonVersions] at h
    -- a project without a distribution that names a ROCm version narrows nothing down
    by_cases htag : IsTagged distributions
    · rw [if_pos htag] at h
      dsimp only at h
      split at h
      · cases h
      · obtain ⟨hnone, hmem⟩ := ih h
        refine ⟨by simp [hnone, htag], fun v ↦ ?_⟩
        rw [hmem, List.forall_mem_cons, ← and_assoc]
        refine and_congr_left' ?_
        rcases common with _ | l
        · simp [htag]
        · simp [htag]
    · rw [if_neg htag] at h
      obtain ⟨hnone, hmem⟩ := ih h
      refine ⟨by simp [hnone, htag], fun v ↦ (hmem v).trans (and_congr_right' ?_)⟩
      rw [List.forall_mem_cons]
      exact (and_iff_right fun h ↦ absurd h htag).symm

/-- The loop succeeds when every tagged project has a version. -/
theorem exists_commonVersions {common : Option (List String)}
    (h : ∀ p ∈ d, IsTagged p.2 →
      projectVersions series pythonTag (packageVersions (normalizeProject p.1)) p.2 ≠ []) :
    ∃ c, commonVersions series pythonTag packageVersions common d = .ok c := by
  induction d generalizing common with
  | nil => exact ⟨common, rfl⟩
  | cons p d ih =>
    obtain ⟨project, distributions⟩ := p
    obtain ⟨hp, hd⟩ := List.forall_mem_cons.1 h
    rw [commonVersions]
    by_cases htag : IsTagged distributions
    · rw [if_pos htag]
      simp only [if_neg (hp htag)]
      exact ih hd
    · rw [if_neg htag]
      exact ih hd

/-- Without a tagged project there is no list, and with one the list has the common versions. -/
theorem mem_getD_iff_isCommon {c : Option (List String)}
    (h : commonVersions series pythonTag packageVersions none d = .ok c) :
    v ∈ c.getD [] ↔ IsCommon series pythonTag packageVersions d v := by
  obtain ⟨hnone, hmem⟩ := mem_commonVersions h
  rcases c with _ | l
  · have hall := (hnone.1 rfl).2
    refine iff_of_false (by simp) fun hcommon ↦ ?_
    obtain ⟨p, hp, htag⟩ := hcommon.1
    exact hall p hp htag
  · have htag : ∃ p ∈ d, IsTagged p.2 := by
      by_contra hall
      push Not at hall
      exact absurd (hnone.2 ⟨rfl, hall⟩) (Option.some_ne_none l)
    have hmem' := hmem v
    simp only [Option.mem_def, Option.some.injEq, forall_eq', reduceCtorEq, false_implies,
      implies_true, true_and] at hmem'
    rw [Option.getD_some, hmem', IsCommon]
    exact (and_iff_right htag).symm

/-- What is chosen is a newest common version. -/
theorem isNewestCommon_of_chooseRocmVersion
    (h : chooseRocmVersion order d series pythonTag packageVersions = .ok v) :
    IsNewestCommon series pythonTag packageVersions d v := by
  rw [chooseRocmVersion] at h
  rcases hc : commonVersions series pythonTag packageVersions none d with e | c
  · rw [hc] at h
    cases h
  · have hperm : ∀ w, w ∈ order.toList (c.getD []).dedup ↔
        IsCommon series pythonTag packageVersions d w := fun w ↦ by
      rw [(order.perm _).mem_iff, List.mem_dedup, mem_getD_iff_isCommon hc]
    have hlast : LastMax.lastMax versionKey (order.toList (c.getD []).dedup) = some v := by
      rw [hc] at h
      rcases hl : LastMax.lastMax versionKey (order.toList (c.getD []).dedup) with _ | w
      · simp [hl, bind, Except.bind] at h
      · simpa [hl, bind, Except.bind] using h
    exact ⟨(hperm v).1 (LastMax.mem_of_lastMax hlast),
      fun w hw ↦ LastMax.le_of_lastMax hlast ((hperm w).2 hw)⟩

/-- Enumerate `v` last. -/
def SetOrder.putLast (v : String) : SetOrder where
  toList l := if v ∈ l then l.erase v ++ [v] else l
  perm l := by
    split
    next hv => exact List.perm_append_comm.trans (List.perm_cons_erase hv).symm
    · exact List.Perm.refl l

theorem SetOrder.toList_putLast {l : List String} (hv : v ∈ l) :
    (SetOrder.putLast v).toList l = l.erase v ++ [v] :=
  if_pos hv

/-- And every newest common version is chosen in some order of enumeration. -/
theorem chooseRocmVersion_putLast (h : IsNewestCommon series pythonTag packageVersions d v) :
    chooseRocmVersion (.putLast v) d series pythonTag packageVersions = .ok v := by
  obtain ⟨hcommon, hmax⟩ := h
  obtain ⟨c, hc⟩ : ∃ c, commonVersions series pythonTag packageVersions none d = .ok c :=
    exists_commonVersions fun p hp htag hnil ↦ by simpa [hnil] using hcommon.2 p hp htag
  have hmem : v ∈ (c.getD []).dedup := List.mem_dedup.2 ((mem_getD_iff_isCommon hc).2 hcommon)
  have hlast : LastMax.lastMax versionKey ((SetOrder.putLast v).toList (c.getD []).dedup) =
      some v := by
    rw [SetOrder.toList_putLast hmem]
    refine LastMax.lastMax_concat fun w hw ↦ hmax w ((mem_getD_iff_isCommon hc).1 ?_)
    exact List.mem_dedup.1 (List.mem_of_mem_erase hw)
  rw [chooseRocmVersion, hc]
  simp only [bind, Except.bind]
  rw [hlast]

/-! ### The pick of a project -/

variable {packageVersion : Option String} {distributions : List Distribution} {dist : Distribution}

theorem chooseDistribution_eq_ok_iff :
    chooseDistribution v pythonTag packageVersion distributions = .ok dist ↔
      LastMax.lastMax distKey (candidates v pythonTag packageVersion distributions) =
        some dist := by
  unfold chooseDistribution
  rcases LastMax.lastMax distKey (candidates v pythonTag packageVersion distributions) with _ | x
  · rcases distributions with _ | ⟨y, ys⟩
    · simp
    · simp
  · simp

theorem mem_candidates : dist ∈ candidates v pythonTag packageVersion distributions ↔
    dist ∈ distributions ∧ (dist.rocmVersion = none ∨ dist.rocmVersion = some v) ∧
      distMatches pythonTag packageVersion dist := by
  rw [candidates, List.mem_filter, Bool.and_eq_true]
  rcases dist.rocmVersion with _ | w
  · simp
  · simp

theorem exists_chooseDistribution_iff :
    (∃ dist, chooseDistribution v pythonTag packageVersion distributions = .ok dist) ↔
      candidates v pythonTag packageVersion distributions ≠ [] := by
  simp only [chooseDistribution_eq_ok_iff]
  rw [← Option.ne_none_iff_exists', Ne, LastMax.lastMax_eq_none_iff]

/-- A project with tagged distributions has a candidate at every common version. -/
theorem candidates_ne_nil (h : IsCommon series pythonTag packageVersions d v)
    {p : String × List Distribution} (hp : p ∈ d) (htag : IsTagged p.2) :
    candidates v pythonTag (packageVersions (normalizeProject p.1)) p.2 ≠ [] := by
  obtain ⟨⟨dist, hmem, hv, hmatch⟩, -⟩ := mem_projectVersions.1 (h.2 p hp htag)
  exact List.ne_nil_of_mem (mem_candidates.2 ⟨hmem, Or.inr hv, hmatch⟩)

/-! ### Coherent closures -/

/-- The project is pinned at a distribution that carries `v` and matches, and the pin records the
ROCm version of that distribution. -/
def PinnedAt (v pythonTag : String) (packageVersion : Option String)
    (distributions : List Distribution) : Prop :=
  ∃ dist, chooseDistribution v pythonTag packageVersion distributions = .ok dist ∧
    dist.rocmVersion = some v ∧ distMatches pythonTag packageVersion dist ∧
    ∀ hash, some (packagePin dist hash v).rocmVersion = dist.rocmVersion

/-- Every untagged candidate loses to one that carries `v`: that one is a wheel where it is not, or
has a greater public version, or comes later in the index with the same key. -/
def UntaggedLose (v pythonTag : String) (packageVersion : Option String)
    (distributions : List Distribution) : Prop :=
  ∀ i u, (candidates v pythonTag packageVersion distributions)[i]? = some u →
    u.rocmVersion = none →
      LastMax.LosesTo distKey (candidates v pythonTag packageVersion distributions)
        (·.rocmVersion = some v) i u

theorem pinnedAt_iff (h : candidates v pythonTag packageVersion distributions ≠ []) :
    PinnedAt v pythonTag packageVersion distributions ↔
      UntaggedLose v pythonTag packageVersion distributions := by
  obtain ⟨dist, hdist⟩ := LastMax.exists_lastMax distKey h
  have hmem := mem_candidates.1 (LastMax.mem_of_lastMax hdist)
  -- a candidate names the version wanted or none, and the last of the greatest is chosen
  have hlose : dist.rocmVersion = some v ↔
      UntaggedLose v pythonTag packageVersion distributions := by
    rw [LastMax.lastMax_iff_losesTo (p := (·.rocmVersion = some v)) hdist]
    refine forall₃_congr fun i u hu ↦ imp_congr_left ?_
    rcases (mem_candidates.1 (List.mem_of_getElem? hu)).2.1 with hnone | hsome
    · simp [hnone]
    · simp [hsome]
  rw [← hlose]
  constructor
  · rintro ⟨dist', hdist', hv, -⟩
    obtain rfl : dist' = dist :=
      Option.some.inj ((chooseDistribution_eq_ok_iff.1 hdist').symm.trans hdist)
    exact hv
  · intro hv
    refine ⟨dist, chooseDistribution_eq_ok_iff.2 hdist, hv, hmem.2.2, fun hash ↦ ?_⟩
    rw [packagePin, hv, truthy, Option.filter]
    split
    · rfl
    · rfl

/-- What a closure is to satisfy at the version `choose_rocm_version` returns: the projects with
tagged distributions can be pinned, and if all projects can, those are pinned at that version. -/
def Coherent (pythonTag : String) (packageVersions : String → Option String)
    (d : List (String × List Distribution)) (v : String) : Prop :=
  (∀ p ∈ d, IsTagged p.2 → ∃ dist, chooseDistribution v pythonTag
    (packageVersions (normalizeProject p.1)) p.2 = .ok dist) ∧
  ((∀ p ∈ d, ∃ dist, chooseDistribution v pythonTag
      (packageVersions (normalizeProject p.1)) p.2 = .ok dist) →
    ∀ p ∈ d, IsTagged p.2 → PinnedAt v pythonTag (packageVersions (normalizeProject p.1)) p.2)

/-- **When closures are coherent**: exactly when, at every newest common version at which all
projects have candidates, no untagged distribution of a project with tagged ones wins. -/
theorem coherent_iff :
    (∀ order v, chooseRocmVersion order d series pythonTag packageVersions = .ok v →
      Coherent pythonTag packageVersions d v) ↔
    ∀ v, IsNewestCommon series pythonTag packageVersions d v →
      (∀ p ∈ d, candidates v pythonTag (packageVersions (normalizeProject p.1)) p.2 ≠ []) →
      ∀ p ∈ d, IsTagged p.2 →
        UntaggedLose v pythonTag (packageVersions (normalizeProject p.1)) p.2 := by
  constructor
  · intro h v hv hall p hp htag
    refine (pinnedAt_iff (hall p hp)).1 ((h _ v (chooseRocmVersion_putLast hv)).2 ?_ p hp htag)
    exact fun p hp ↦ exists_chooseDistribution_iff.2 (hall p hp)
  · intro h order v hv
    have hnewest := isNewestCommon_of_chooseRocmVersion hv
    refine ⟨fun p hp htag ↦ exists_chooseDistribution_iff.2 (candidates_ne_nil hnewest.1 hp htag),
      fun hall p hp htag ↦ ?_⟩
    have hall' := fun p hp ↦ exists_chooseDistribution_iff.1 (hall p hp)
    exact (pinnedAt_iff (hall' p hp)).2 (h v hnewest hall' p hp htag)

/-- An index whose newest `torch` is not built for ROCm. -/
def mixedIndex : List (String × List Distribution) :=
  [("torch", ["torch-2.13.0+rocm10.0.0-cp313-cp313-linux_x86_64.whl",
      "torch-2.14.0-cp313-cp313-linux_x86_64.whl"].filterMap fun filename ↦
        parseDistribution "torch" filename (baseUrl ++ "/torch/" ++ filename))]

/-- The pin of `torch` is not built for ROCm, and the file says that it is. -/
theorem not_coherent_mixedIndex : ¬ ∀ order v,
    chooseRocmVersion order mixedIndex "10.0" "cp313" (fun _ ↦ none) = .ok v →
      Coherent "cp313" (fun _ ↦ none) mixedIndex v := by
  intro h
  have hversion : chooseRocmVersion .asBuilt mixedIndex "10.0" "cp313" (fun _ ↦ none) =
      .ok "10.0.0" := by decide
  have hpick : ∀ p ∈ mixedIndex, IsTagged p.2 ∧
      (chooseDistribution "10.0.0" "cp313" none p.2).toOption.map Distribution.rocmVersion =
        some none := by decide
  have hall : ∀ p ∈ mixedIndex,
      ∃ dist, chooseDistribution "10.0.0" "cp313" none p.2 = .ok dist := by
    intro p hp
    rcases hchoose : chooseDistribution "10.0.0" "cp313" none p.2 with e | dist
    · simpa [hchoose, Except.toOption] using (hpick p hp).2
    · exact ⟨dist, rfl⟩
  obtain ⟨p, hp⟩ : ∃ p, p ∈ mixedIndex := ⟨_, List.mem_cons_self⟩
  obtain ⟨dist, hdist, hv, -⟩ := (h _ _ hversion).2 hall p hp (hpick p hp).1
  have hnone := (hpick p hp).2
  rw [hdist] at hnone
  simp [Except.toOption, hv] at hnone

end

/-! ### Constraints of the device wheels -/

/-- The project whose version the device wheels of a project need. -/
def frontendOf (normalized : String) : Option String :=
  if "amd-torch-device-".toList.isPrefixOf normalized.toList then some "torch"
  else if "amd-torchvision-device-".toList.isPrefixOf normalized.toList then some "torchvision"
  else none

theorem setDefault_apply (versions : String → Option String) (key key' : String)
    (version : Option String) : setDefault versions key version key' =
      if key' = key then versions key' <|> version else versions key' := by
  rw [setDefault, Function.update_apply]
  split
  next h => rw [h]
  · rfl

/-- A turn of the loop changes only the version of its project, if that has none. -/
theorem deriveVersion_apply (given versions : String → Option String) (project key : String) :
    deriveVersion given versions project key =
      if key = normalizeProject project then versions key <|> (frontendOf key).bind given
      else versions key := by
  have hderive : deriveVersion given versions project = setDefault versions
      (normalizeProject project) ((frontendOf (normalizeProject project)).bind given) := by
    rw [deriveVersion, frontendOf]
    split
    · rfl
    · split
      · rfl
      · have hkeep : (versions (normalizeProject project) <|> none) =
            versions (normalizeProject project) := by simp
        rw [setDefault, Option.bind_none, hkeep, Function.update_eq_self]
  rw [hderive, setDefault_apply]
  split
  next h => rw [h]
  · rfl

theorem foldl_deriveVersion_apply (given : String → Option String) (projects : List String)
    (key : String) (versions : String → Option String) :
    projects.foldl (deriveVersion given) versions key =
      if key ∈ projects.map normalizeProject then versions key <|> (frontendOf key).bind given
      else versions key := by
  induction projects generalizing versions with
  | nil => rfl
  | cons project projects ih =>
    rw [List.foldl_cons, ih, deriveVersion_apply, List.map_cons]
    by_cases hkey : key = normalizeProject project
    · rw [if_pos hkey, if_pos (List.mem_cons.2 (Or.inl hkey))]
      split
      · -- a second default adds nothing
        rcases versions key with _ | v
        · rcases (frontendOf key).bind given with _ | v
          · rfl
          · rfl
        · rfl
      · rfl
    · rw [if_neg hkey]
      refine if_congr ?_ rfl rfl
      rw [List.mem_cons, or_iff_right hkey]

/-- Each listed project without a version of its own gets that of its frontend. -/
theorem deriveVersions_apply (given : String → Option String) (projects : List String)
    (key : String) : deriveVersions given projects key =
      if key ∈ projects.map normalizeProject then given key <|> (frontendOf key).bind given
      else given key :=
  foldl_deriveVersion_apply given projects key given

/-- The version that the command line gives for a project. -/
def Args.given (args : Args) (key : String) : Option String :=
  args.packageVersion.reverse.lookup key

theorem packageVersions_device {args : Args} {device frontend : String}
    (hdevice : device ∈ args.projects) (h : frontendOf (normalizeProject device) = some frontend) :
    args.packageVersions (normalizeProject device) =
      (args.given (normalizeProject device) <|> args.given frontend) := by
  rw [Args.packageVersions, deriveVersions_apply, if_pos (List.mem_map_of_mem hdevice), h]
  rfl

/-- The frontends are not device wheels themselves. -/
theorem packageVersions_frontend {args : Args} {normalized frontend : String}
    (h : frontendOf normalized = some frontend) :
    args.packageVersions frontend = args.given frontend := by
  have hnone : frontendOf frontend = none := by
    rw [frontendOf] at h
    split at h
    · obtain rfl : "torch" = frontend := Option.some.inj h
      decide
    · split at h
      · obtain rfl : "torchvision" = frontend := Option.some.inj h
        decide
      · cases h
  rw [Args.packageVersions, deriveVersions_apply, hnone]
  split
  · change (args.given frontend <|> none) = args.given frontend
    simp
  · rfl

/-! ### Device wheels and their frontend -/

section

variable {w : World} {args : Args} {sources out : Sources} {pythonTag rocmVersion : String}

/-- The distribution that is pinned for a project, under a version constraint. -/
def Newest (w : World) (rocmVersion pythonTag : String) (constraint : Option String)
    (project : String) (dist : Distribution) : Prop :=
  ∃ distributions m, w.listDistributions project = .ok distributions ∧
    LastMax.IsLastMax distKey (candidates rocmVersion pythonTag constraint distributions) m dist

/-- The ROCm version of a run: the one that is given, or a newest common one. -/
def IsSelected (w : World) (args : Args) (sources : Sources) (pythonTag rocmVersion : String) :
    Prop :=
  ∃ d, distributionsByProject w args.projects = .ok d ∧
    (truthy args.rocmVersion = some rocmVersion ∨
      truthy args.rocmVersion = none ∧ ∃ series, args.resolvedSeries sources = some series ∧
        IsNewestCommon series pythonTag args.packageVersions d rocmVersion)

/-- Every project has a distribution to pin, and its file can be fetched. -/
def Pinnable (w : World) (args : Args) (pythonTag rocmVersion : String) : Prop :=
  ∀ project ∈ args.projects, ∃ dist hash,
    Newest w rocmVersion pythonTag (args.packageVersions (normalizeProject project)) project dist ∧
      w.prefetch dist.url = .ok hash

/-- A device wheel and its frontend get the same public version: both from the command line, or one
from the command line and the other as the newest in the index, or both as the newest. -/
def Agree (w : World) (args : Args) (pythonTag rocmVersion device frontend : String) : Prop :=
  match args.given (normalizeProject frontend), args.given (normalizeProject device) with
  | some _, none => True
  | some version, some version' => version = version'
  | none, some version => ∃ dist, Newest w rocmVersion pythonTag none frontend dist ∧
      publicPackageVersion dist.packageVersion = version
  | none, none => ∃ dist dist', Newest w rocmVersion pythonTag none frontend dist ∧
      Newest w rocmVersion pythonTag none device dist' ∧
      publicPackageVersion dist'.packageVersion = publicPackageVersion dist.packageVersion

/-- The entry of the target pins every device wheel at the public version of its frontend. -/
def DeviceMatch (args : Args) (out : Sources) : Prop :=
  ∃ target, OrderedDict.get? out.targets args.target = some target ∧
    ∀ device ∈ args.projects, ∀ frontend ∈ args.projects,
      frontendOf (normalizeProject device) = some (normalizeProject frontend) →
      ∃ pin pin', OrderedDict.get? target.packages device = some pin ∧
        OrderedDict.get? target.packages frontend = some pin' ∧
        publicPackageVersion pin.packageVersion = publicPackageVersion pin'.packageVersion

theorem Newest.unique {constraint : Option String} {project : String} {dist dist' : Distribution}
    (h : Newest w rocmVersion pythonTag constraint project dist)
    (h' : Newest w rocmVersion pythonTag constraint project dist') : dist = dist' := by
  obtain ⟨distributions, m, hlist, hm⟩ := h
  obtain ⟨distributions', m', hlist', hm'⟩ := h'
  obtain rfl : distributions = distributions' := Except.ok.inj (hlist.symm.trans hlist')
  exact hm.unique hm'

/-- A constraint decides the public version. -/
theorem Newest.public_eq {version project : String} {dist : Distribution}
    (h : Newest w rocmVersion pythonTag (some version) project dist) :
    publicPackageVersion dist.packageVersion = version := by
  obtain ⟨distributions, m, -, hm⟩ := h
  have hmatch := (mem_candidates.1 (List.mem_of_getElem? hm.getElem?_eq)).2.2
  simpa [distMatches, distMatchesPackageVersion] using (Bool.and_eq_true_iff.1 hmatch).2

theorem newest_iff {constraint : Option String} {project : String} {dist : Distribution} :
    Newest w rocmVersion pythonTag constraint project dist ↔
      ∃ distributions, w.listDistributions project = .ok distributions ∧
        chooseDistribution rocmVersion pythonTag constraint distributions = .ok dist := by
  simp only [Newest, chooseDistribution_eq_ok_iff, LastMax.lastMax_eq_some_iff, exists_and_left]

/-- What the picks of a device wheel and its frontend have in common. -/
theorem public_eq_iff_agree {device frontend : String} {dist dist' : Distribution}
    (hdevice : device ∈ args.projects)
    (hfrontend : frontendOf (normalizeProject device) = some (normalizeProject frontend))
    (h : Newest w rocmVersion pythonTag (args.packageVersions (normalizeProject frontend))
      frontend dist)
    (h' : Newest w rocmVersion pythonTag (args.packageVersions (normalizeProject device))
      device dist') :
    publicPackageVersion dist'.packageVersion = publicPackageVersion dist.packageVersion ↔
      Agree w args pythonTag rocmVersion device frontend := by
  rw [packageVersions_frontend hfrontend] at h
  rw [packageVersions_device hdevice hfrontend] at h'
  rw [Agree]
  rcases hf : args.given (normalizeProject frontend) with _ | version
  · rcases hd : args.given (normalizeProject device) with _ | version'
    · rw [hf] at h
      rw [hf, hd] at h'
      refine ⟨fun heq ↦ ⟨dist, dist', h, h', heq⟩, fun ⟨x, x', hx, hx', heq⟩ ↦ ?_⟩
      obtain rfl := h.unique hx
      obtain rfl := h'.unique hx'
      exact heq
    · rw [hf] at h
      rw [hd] at h'
      refine ⟨fun heq ↦ ⟨dist, h, heq ▸ h'.public_eq⟩, fun ⟨x, hx, heq⟩ ↦ ?_⟩
      obtain rfl := h.unique hx
      rw [h'.public_eq, heq]
  · rw [hf] at h
    rcases hd : args.given (normalizeProject device) with _ | version'
    · rw [hf, hd] at h'
      exact iff_of_true (h'.public_eq.trans h.public_eq.symm) trivial
    · rw [hd] at h'
      rw [h.public_eq, h'.public_eq]
      exact eq_comm

/-! ### What a run writes -/

/-- The entry of the target has the ROCm version `rocmVersion` and the newest distribution of each
project for it. -/
def Written (w : World) (args : Args) (pythonTag rocmVersion : String) (out : Sources) : Prop :=
  ∃ target, OrderedDict.get? out.targets args.target = some target ∧
    target.rocmVersion = rocmVersion ∧
    ∀ project ∈ args.projects, ∃ dist hash,
      Newest w rocmVersion pythonTag (args.packageVersions (normalizeProject project))
        project dist ∧
      OrderedDict.get? target.packages project = some (packagePin dist hash rocmVersion)

/-- The file that a run writes once it has chosen a version and pinned the projects. -/
theorem written_of_pins {pins : List (String × PackagePin)} {target : TargetSources}
    {updated : Option String}
    (hpins : args.projects.mapM (pinProject w args pythonTag rocmVersion) = .ok pins)
    (hrocm : target.rocmVersion = rocmVersion)
    (hpackages : target.packages = OrderedDict.ofPairs pins) :
    Written w args pythonTag rocmVersion
      { targets := OrderedDict.insert args.target target sources.targets, updated } := by
  refine ⟨target, OrderedDict.get?_insert_self _ _ _, hrocm, fun project hproject ↦ ?_⟩
  obtain ⟨p, hp, hpin⟩ := Result.exists_mem_of_mapM_eq_ok hpins hproject
  obtain ⟨distributions, dist, hash, hlist, hdist, hhash, rfl⟩ := pinProject_eq_ok_iff.1 hpin
  refine ⟨dist, hash, newest_iff.2 ⟨distributions, hlist, hdist⟩, ?_⟩
  rw [hpackages]
  refine OrderedDict.get?_ofPairs (fun pin hmem ↦ ?_) hp
  obtain ⟨project', -, hpin'⟩ := Result.mem_of_mapM_eq_ok hpins hmem
  obtain ⟨_, _, _, _, _, _, heq⟩ := pinProject_eq_ok_iff.1 hpin'
  obtain ⟨rfl, -⟩ := Prod.mk.inj heq
  exact (Prod.mk.inj (Except.ok.inj (hpin'.symm.trans hpin))).2

theorem isSelected_of_selectRocmVersion {d : List (String × List Distribution)}
    (hd : distributionsByProject w args.projects = .ok d)
    (h : selectRocmVersion w args sources pythonTag d = .ok rocmVersion) :
    IsSelected w args sources pythonTag rocmVersion := by
  refine ⟨d, hd, ?_⟩
  rw [selectRocmVersion] at h
  rcases hgiven : truthy args.rocmVersion with _ | version
  · rcases hseries : args.resolvedSeries sources with _ | series
    · simp [hgiven, hseries] at h
    · rw [hgiven, hseries] at h
      exact Or.inr ⟨rfl, series, rfl, isNewestCommon_of_chooseRocmVersion h⟩
  · rw [hgiven] at h
    exact Or.inl (congrArg some (Except.ok.inj h))

/-- A run that completes has selected a version and written what is newest for it. -/
theorem written_of_main (h : main w args sources = .ok out) : ∃ pythonTag rocmVersion,
    args.resolvedPythonTag sources = some pythonTag ∧
      IsSelected w args sources pythonTag rocmVersion ∧ Pinnable w args pythonTag rocmVersion ∧
      Written w args pythonTag rocmVersion out := by
  obtain ⟨pythonTag, d, rocmVersion, pins, htag, hd, hr, hpins, rfl⟩ := main_eq_ok_iff.1 h
  refine ⟨pythonTag, rocmVersion, htag, isSelected_of_selectRocmVersion hd hr,
    fun project hproject ↦ ?_, written_of_pins hpins rfl rfl⟩
  obtain ⟨p, -, hpin⟩ := Result.exists_mem_of_mapM_eq_ok hpins hproject
  obtain ⟨distributions, dist, hash, hlist, hdist, hhash, rfl⟩ := pinProject_eq_ok_iff.1 hpin
  exact ⟨dist, hash, newest_iff.2 ⟨distributions, hlist, hdist⟩, hhash⟩

/-- A version that can be selected is, in some order of enumeration, and a run at it completes when
every project can be pinned. -/
theorem exists_main (htag : args.resolvedPythonTag sources = some pythonTag)
    (h : IsSelected w args sources pythonTag rocmVersion)
    (hpin : Pinnable w args pythonTag rocmVersion) :
    ∃ order out, main { w with setOrder := order } args sources = .ok out ∧
      Written w args pythonTag rocmVersion out := by
  obtain ⟨d, hd, hselect⟩ := h
  obtain ⟨pins, hpins⟩ : ∃ pins,
      args.projects.mapM (pinProject w args pythonTag rocmVersion) = .ok pins := by
    refine Result.exists_mapM_eq_ok fun project hproject ↦ ?_
    obtain ⟨dist, hash, hnewest, hhash⟩ := hpin project hproject
    obtain ⟨distributions, hlist, hdist⟩ := newest_iff.1 hnewest
    exact ⟨_, pinProject_eq_ok_iff.2 ⟨distributions, dist, hash, hlist, hdist, hhash, rfl⟩⟩
  have hr : selectRocmVersion { w with setOrder := .putLast rocmVersion } args sources pythonTag
      d = .ok rocmVersion := by
    rw [selectRocmVersion]
    rcases hselect with hgiven | ⟨hnone, series, hseries, hnewest⟩
    · rw [hgiven]
    · rw [hnone, hseries]
      exact chooseRocmVersion_putLast hnewest
  exact ⟨.putLast rocmVersion, _,
    main_eq_ok_iff.2 ⟨pythonTag, d, rocmVersion, pins, htag, hd, hr, hpins, rfl⟩,
    written_of_pins hpins rfl rfl⟩

/-- What a run writes matches when the picks of every device wheel and its frontend agree. -/
theorem Written.matches_iff (h : Written w args pythonTag rocmVersion out) :
    DeviceMatch args out ↔ ∀ device ∈ args.projects, ∀ frontend ∈ args.projects,
      frontendOf (normalizeProject device) = some (normalizeProject frontend) →
        Agree w args pythonTag rocmVersion device frontend := by
  obtain ⟨target, htarget, -, hpins⟩ := h
  have hpublic : ∀ device ∈ args.projects, ∀ frontend ∈ args.projects,
      frontendOf (normalizeProject device) = some (normalizeProject frontend) →
      ((∃ pin pin', OrderedDict.get? target.packages device = some pin ∧
        OrderedDict.get? target.packages frontend = some pin' ∧
        publicPackageVersion pin.packageVersion = publicPackageVersion pin'.packageVersion) ↔
        Agree w args pythonTag rocmVersion device frontend) := by
    intro device hdevice frontend hfrontend hof
    obtain ⟨dist, hash, hnewest, hget⟩ := hpins frontend hfrontend
    obtain ⟨dist', hash', hnewest', hget'⟩ := hpins device hdevice
    rw [← public_eq_iff_agree hdevice hof hnewest hnewest', hget, hget']
    refine ⟨fun ⟨pin, pin', hpin, hpin', heq⟩ ↦ ?_, fun heq ↦ ⟨_, _, rfl, rfl, heq⟩⟩
    obtain rfl := Option.some.inj hpin
    obtain rfl := Option.some.inj hpin'
    exact heq
  constructor
  · rintro ⟨target', htarget', hmatch⟩ device hdevice frontend hfrontend hof
    obtain rfl : target = target' := Option.some.inj (htarget.symm.trans htarget')
    exact (hpublic device hdevice frontend hfrontend hof).1
      (hmatch device hdevice frontend hfrontend hof)
  · intro hagree
    exact ⟨target, htarget, fun device hdevice frontend hfrontend hof ↦
      (hpublic device hdevice frontend hfrontend hof).2
        (hagree device hdevice frontend hfrontend hof)⟩

/-- **When device wheels match their frontend**: exactly when, at every ROCm version that a run can
select and complete with, the two versions agree on the command line or in the index. -/
theorem deviceMatch_iff (w : World) (args : Args) (sources : Sources) :
    (∀ order out, main { w with setOrder := order } args sources = .ok out →
      DeviceMatch args out) ↔
    ∀ pythonTag rocmVersion, args.resolvedPythonTag sources = some pythonTag →
      IsSelected w args sources pythonTag rocmVersion → Pinnable w args pythonTag rocmVersion →
      ∀ device ∈ args.projects, ∀ frontend ∈ args.projects,
        frontendOf (normalizeProject device) = some (normalizeProject frontend) →
          Agree w args pythonTag rocmVersion device frontend := by
  constructor
  · intro h pythonTag rocmVersion htag hselect hpin
    obtain ⟨order, out, hmain, hwritten⟩ := exists_main htag hselect hpin
    exact hwritten.matches_iff.1 (h order out hmain)
  · intro h order out hmain
    obtain ⟨pythonTag, rocmVersion, htag, hselect, hpin, hwritten⟩ := written_of_main hmain
    exact hwritten.matches_iff.2 (h pythonTag rocmVersion htag hselect hpin)

/-- A version for the frontend on the command line settles both picks. -/
theorem Agree.of_given {version : String}
    (hfrontend : args.given (normalizeProject frontend) = some version)
    (hdevice : ∀ version' ∈ args.given (normalizeProject device), version' = version) :
    Agree w args pythonTag rocmVersion device frontend := by
  rw [Agree, hfrontend]
  rcases hgiven : args.given (normalizeProject device) with _ | version'
  · trivial
  · exact (hdevice version' hgiven).symm

/-- **Versions on the command line are enough**: device wheels match their frontend, whatever the
index lists, where the command line fixes the version of the frontend and gives the device wheel no
other one. -/
theorem deviceMatch_of_given {out : Sources}
    (hgiven : ∀ device ∈ args.projects, ∀ frontend ∈ args.projects,
      frontendOf (normalizeProject device) = some (normalizeProject frontend) →
      ∃ version, args.given (normalizeProject frontend) = some version ∧
        ∀ version' ∈ args.given (normalizeProject device), version' = version)
    (h : main w args sources = .ok out) : DeviceMatch args out := by
  obtain ⟨pythonTag, rocmVersion, -, -, -, hwritten⟩ := written_of_main h
  refine hwritten.matches_iff.2 fun device hdevice frontend hfrontend hof ↦ ?_
  obtain ⟨version, hversion, hnone⟩ := hgiven device hdevice frontend hfrontend hof
  exact Agree.of_given hversion hnone

/-- An index where `torch` has a release for which no device wheel is published yet. -/
def newerFrontend : World where
  listDistributions project := .ok <| (match project with
    | "torch" => ["torch-2.13.0+rocm10.0.0-cp313-cp313-linux_x86_64.whl",
        "torch-2.14.0+rocm10.0.0-cp313-cp313-linux_x86_64.whl"]
    | _ => ["amd_torch_device_gfx1151-2.13.0+rocm10.0.0-py3-none-linux_x86_64.whl"]).filterMap
      fun filename ↦ parseDistribution project filename (baseUrl ++ "/" ++ filename)
  prefetch _ := .ok "sha256-AA=="
  now := "2026-10-01T00:00:00+00:00"
  setOrder := .asBuilt

/-- The series and the Python tag of a target, as `refresh` passes them. -/
def refreshTorch : Args where
  pythonTag := some "cp313"
  series := some "10.0"
  package := ["torch", "amd-torch-device-gfx1151"]

/-- The public version that a file pins a project at. -/
def pinnedPublic (out : Sources) (target project : String) : Option String := do
  let target ← OrderedDict.get? out.targets target
  let pin ← OrderedDict.get? target.packages project
  return publicPackageVersion pin.packageVersion

/-- `torch` is pinned at 2.14.0 and its device wheel at 2.13.0. -/
theorem not_deviceMatch_newerFrontend : ¬ ∀ order out,
    main { newerFrontend with setOrder := order } refreshTorch {} = .ok out →
      DeviceMatch refreshTorch out := by
  intro h
  have hrun : (main newerFrontend refreshTorch {}).toOption.map (fun out ↦
      (pinnedPublic out "gfx1151" "torch", pinnedPublic out "gfx1151" "amd-torch-device-gfx1151")) =
        some (some "2.14.0", some "2.13.0") := by decide +kernel
  rcases hmain : main newerFrontend refreshTorch {} with e | out
  · simp [hmain, Except.toOption] at hrun
  · obtain ⟨target, htarget, hmatch⟩ := h .asBuilt out hmain
    obtain ⟨pin, pin', hpin, hpin', heq⟩ := hmatch "amd-torch-device-gfx1151" (by decide) "torch"
      (by decide) (by decide)
    have htarget' : OrderedDict.get? out.targets "gfx1151" = some target := htarget
    have hpublic : pinnedPublic out "gfx1151" "torch" =
        pinnedPublic out "gfx1151" "amd-torch-device-gfx1151" := by
      simp only [pinnedPublic, htarget', hpin, hpin', heq, Option.bind_eq_bind, Option.bind_some]
    rw [hmain] at hrun
    obtain ⟨htorch, hdevice⟩ := Prod.mk.inj (Option.some.inj hrun)
    rw [hpublic, hdevice] at htorch
    exact absurd htorch (by decide)

end

end TheRock
