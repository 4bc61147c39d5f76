import Mathlib.Data.List.Sort
import Mathlib.Data.Prod.Lex
import Mathlib.Data.String.Basic
import NixStrixHalo.Library.FileTree
import NixStrixHalo.Library.PythonText
import NixStrixHalo.Library.Result

/-!
# The staged source tree

`update-source-tree.py` records which submodules of TheRock are fetched, at which paths and
revisions, and `mkLockedSource` copies the sources of the record into one tree, each over whatever
is at its path. The tree is the overlay of the sources (`isStaged_of_buildGraph`): every file is
that of the deepest entry above it.

## Why copying works

This rests on the order in which `build_graph` sorts the entries, by depth first, and on what
gitlinks are: no path above a gitlink is a file or another gitlink of the same tree (`Git.Lawful`).
So no copy runs into a file, and none clears what a deeper one has put there. `IsForest` has what
the proofs use of the sorted entries: each is a gitlink of the checkout of another entry, or of the
root, below its path.

## Paths and components

The updater works on paths as texts and sorts by the number of their slashes; the tree is about
components. For normalized paths the two are the same (`Normalized.components_inj`,
`Normalized.length_components`), and that the entries of a record are normalized is assumed where
it is needed.

## The compiler's tree

`compilerSourceTreeInputs` stages some of the submodules only. What matters is that they are closed
upwards (`IsClosed`): with an entry come all that are above it.
-/

namespace TheRock

/-! ### Paths -/

/-- The components of a relative path; the empty path is the root. -/
def components (path : String) : List (List Char) :=
  if path = "" then [] else path.toList.splitOn '/'

/-- A normalized relative path has no empty component and none that is `.` or `..`. -/
def Normalized (path : String) : Prop :=
  ∀ c ∈ path.toList.splitOn '/', c ≠ [] ∧ c ≠ ['.'] ∧ c ≠ ['.', '.']

instance (path : String) : Decidable (Normalized path) :=
  inferInstanceAs (Decidable (∀ c ∈ path.toList.splitOn '/', c ≠ [] ∧ c ≠ ['.'] ∧ c ≠ ['.', '.']))

theorem components_empty : components "" = [] := if_pos rfl

theorem Normalized.ne_empty {path : String} (h : Normalized path) : path ≠ "" := by
  rintro rfl
  exact (h [] (by decide)).1 rfl

theorem Normalized.components_eq {path : String} (h : Normalized path) :
    components path = path.toList.splitOn '/' :=
  if_neg h.ne_empty

theorem Normalized.components_ne_nil {path : String} (h : Normalized path) :
    components path ≠ [] :=
  h.components_eq ▸ List.splitOn_ne_nil '/' _

/-- Normalized paths are told apart by their components. -/
theorem Normalized.components_inj {p q : String} (hp : Normalized p) (hq : Normalized q)
    (h : components p = components q) : p = q := by
  rw [hp.components_eq, hq.components_eq] at h
  have htext := congrArg (List.intercalate ['/']) h
  rwa [List.intercalate_splitOn, List.intercalate_splitOn, String.toList_inj] at htext

/-- A joined path has the components of both. -/
theorem splitOn_join (p q : String) :
    (p ++ "/" ++ q).toList.splitOn '/' = p.toList.splitOn '/' ++ q.toList.splitOn '/' := by
  rw [String.toList_append, String.toList_append, List.append_assoc]
  exact List.splitOn_append_cons_self _ _

/-- The parts of a joined path. -/
theorem Normalized.of_join {p q : String} (hp : Normalized p) (h : Normalized (p ++ "/" ++ q)) :
    Normalized q ∧ components (p ++ "/" ++ q) = components p ++ components q := by
  have hq : Normalized q := fun c hc ↦ h c (splitOn_join p q ▸ List.mem_append_right _ hc)
  exact ⟨hq, by rw [h.components_eq, splitOn_join, hp.components_eq, hq.components_eq]⟩

/-- A text is split into one part more than it has separators. -/
theorem length_splitOn (c : Char) (l : List Char) : (l.splitOn c).length = l.count c + 1 := by
  induction l with
  | nil => rfl
  | cons d l ih =>
    rw [List.splitOn_cons_eq_if_modifyHead, List.count_cons]
    split
    · rw [List.length_cons, ih]
    · rw [List.length_modifyHead, ih, Nat.add_zero]

theorem Normalized.length_components {path : String} (h : Normalized path) :
    (components path).length = path.toList.count '/' + 1 := by
  rw [h.components_eq, length_splitOn]

/-- The first of some parts are joined to a prefix. -/
theorem intercalate_prefix (sep : List Char) {l l' : List (List Char)} (h : l <+: l') :
    sep.intercalate l <+: sep.intercalate l' := by
  obtain ⟨rest, rfl⟩ := h
  induction l with
  | nil => exact List.nil_prefix
  | cons c l ih =>
    rcases l with _ | ⟨d, l⟩
    · rcases rest with _ | ⟨d, rest⟩
      · exact List.prefix_rfl
      · rw [List.intercalate_singleton, List.singleton_append, List.intercalate_cons_cons,
          List.append_assoc]
        exact List.prefix_append c _
    · rw [List.cons_append, List.cons_append, List.intercalate_cons_cons,
        List.intercalate_cons_cons]
      exact (List.prefix_append_right_inj _).2 ih

/-- A path above another one is a prefix of its text. -/
theorem Normalized.prefix_toList {p q : String} (hp : Normalized p) (hq : Normalized q)
    (h : components p <+: components q) : p.toList <+: q.toList := by
  rw [hp.components_eq, hq.components_eq] at h
  have htext := intercalate_prefix ['/'] h
  rwa [List.intercalate_splitOn, List.intercalate_splitOn] at htext

/-! ### Repositories -/

/-- `GitSource`. -/
structure GitSource where
  url : String
  rev : String
  deriving DecidableEq

/-- What `submodules` returns for a submodule. -/
structure Submodule where
  name : String
  path : String
  url : String
  deriving DecidableEq

/-- What git and the root's `fetch_sources.py` say about the repositories at their revisions: the
values that `.gitmodules` has for the keys that match `submodule\..*\.path` and
`submodule\..*\.url`, the type and the object of the first line of `git ls-tree HEAD -- path`, the
paths that `fetch_sources.py` enables, and the files of a checkout without its submodules. -/
structure Git (α : Type*) where
  pathConfig : GitSource → List (String × String)
  urlConfig : GitSource → List (String × String)
  lsTree : GitSource → String → Option (String × String)
  enabledRootPaths : GitSource → List String → Option (List String)
  tree : GitSource → FileTree.Tree (List Char) α

/-- How the updater ends early. -/
inductive GraphError
  | valueError
  | noSourcePaths
  | unresolved (selector : String) (repo : GitSource)
  | noTreeEntry (path : String) (repo : GitSource)
  | notGitlink (path : String) (repo : GitSource)
  | notFetched (parent : String)
  deriving DecidableEq

section

variable {α : Type*} (git : Git α)

/-- The dictionary `by_name` of `submodules`. The name is what stands between the first two dots of
the key. A key of `.gitmodules` has at least the dot behind its section, so that `key.split(".")[1]`
exists. -/
def submodulesByName (repo : GitSource) : List (String × Submodule) :=
  OrderedDict.ofPairs ((git.pathConfig repo).filterMap fun (key, path) ↦
    let name := String.ofList ((key.toList.splitOn '.').getD 1 [])
    (OrderedDict.get? (git.urlConfig repo) ("submodule." ++ name ++ ".url")).map fun url ↦
      (name, { name, path, url }))

/-- The dictionary `by_path` of `submodules`. -/
def submodulesByPath (repo : GitSource) : List (String × Submodule) :=
  OrderedDict.ofPairs ((submodulesByName git repo).map fun (_, submodule) ↦
    (submodule.path, submodule))

/-- `resolve_submodule`. -/
def resolveSubmodule (repo : GitSource) (selector : String) (preferName : Bool) :
    Except GraphError Submodule :=
  let byName := OrderedDict.get? (submodulesByName git repo) selector
  let byPath := OrderedDict.get? (submodulesByPath git repo) selector
  let found := if preferName then byName <|> byPath <|> byName else byPath <|> byName
  match found with
  | some submodule => .ok submodule
  | none => .error (.unresolved selector repo)

/-- `tree_commit`: the revision that a gitlink holds. -/
def treeCommit (repo : GitSource) (path : String) : Except GraphError String :=
  match git.lsTree repo path with
  | none => .error (.noTreeEntry path repo)
  | some (type, object) =>
    if type ≠ "commit" then .error (.notGitlink path repo) else .ok object

/-! ### Arguments of the fetch -/

/-- The value `project:path,path` of `--nested-submodules`. -/
def nestedSpec (arg : List Char) : Except GraphError (String × List String) :=
  match arg.dropWhile (· ≠ ':') with
  | [] => .error .valueError
  | _ :: values =>
    let paths := ((values.splitOn ',').map PythonText.strip).filter (· ≠ [])
    .ok (String.ofList (arg.takeWhile (· ≠ ':')), paths.map String.ofList)

/-- `nested_specs`: the values after each `--nested-submodules`, up to the next option. -/
def nestedSpecs (inside : Bool) : List String → Except GraphError (List (String × List String))
  | [] => .ok []
  | arg :: args =>
    if inside && !(['-', '-'].isPrefixOf arg.toList) then do
      let spec ← nestedSpec arg.toList
      let specs ← nestedSpecs inside args
      .ok (spec :: specs)
    else nestedSpecs (arg = "--nested-submodules") args

example : nestedSpecs false ["--stage", "--nested-submodules", "iree: a , b,", "rocm-systems:c"] =
    .ok [("iree", ["a", "b"]), ("rocm-systems", ["c"])] := by decide

/-! ### The graph -/

/-- `SourceEntry`. -/
structure SourceEntry where
  path : String
  url : String
  rev : String
  deriving DecidableEq

/-- The repository of an entry. -/
def SourceEntry.repo (e : SourceEntry) : GitSource := { url := e.url, rev := e.rev }

/-- The entry of a target in `rocm-source.json`. -/
structure TreeSource where
  url : String
  rev : String
  fetchArgs : List String := []
  deepNestedSubmodules : List (String × List String) := []

/-- The entries by path. -/
abbrev Entries := List (String × SourceEntry)

/-- `add_entry`: the first entry of a path stays. -/
def addEntry (path url rev : String) (entries : Entries) : Entries :=
  match OrderedDict.get? entries path with
  | some _ => entries
  | none => OrderedDict.insert path { path, url, rev } entries

/-- A submodule that the root enables. Its path in the tree is the one that `fetch_sources.py`
names. -/
def addRootPath (root : GitSource) (entries : Entries) (path : String) :
    Except GraphError Entries := do
  let submodule ← resolveSubmodule git root path false
  let rev ← treeCommit git root path
  .ok (addEntry path submodule.url rev entries)

/-- A submodule of a parent that is an entry. -/
def addNestedPath (preferName : Bool) (parentPath : String) (parentRepo : GitSource)
    (entries : Entries) (nestedPath : String) : Except GraphError Entries := do
  let nested ← resolveSubmodule git parentRepo nestedPath preferName
  let rev ← treeCommit git parentRepo nested.path
  .ok (addEntry (parentPath ++ "/" ++ nested.path) nested.url rev entries)

/-- The submodules of a parent that the fetch arguments name; one that was not fetched is
skipped. -/
def addNested (root : GitSource) (entries : Entries) (spec : String × List String) :
    Except GraphError Entries := do
  let parentModule ← resolveSubmodule git root spec.1 true
  match OrderedDict.get? entries parentModule.path with
  | none => .ok entries
  | some parent => spec.2.foldlM (addNestedPath git true parentModule.path parent.repo) entries

/-- The submodules of an item of `deepNestedSubmodules`. -/
def addDeepNested (entries : Entries) (item : String × List String) : Except GraphError Entries :=
  match OrderedDict.get? entries item.1 with
  | none => .error (.notFetched item.1)
  | some parent => item.2.foldlM (addNestedPath git false item.1 parent.repo) entries

/-- The sort key of an entry: the number of its slashes, and its path. -/
def SourceEntry.key (e : SourceEntry) : ℕ ×ₗ List Char :=
  toLex (e.path.toList.count '/', e.path.toList)

/-- `build_graph`: the root entry and the sorted entries. -/
def buildGraph (source : TreeSource) : Except GraphError (SourceEntry × List SourceEntry) := do
  let root : GitSource := { url := source.url, rev := source.rev }
  let paths ← (git.enabledRootPaths root source.fetchArgs).elim (.error .noSourcePaths) .ok
  let entries ← paths.foldlM (addRootPath git root) []
  let specs ← nestedSpecs false source.fetchArgs
  let entries ← specs.foldlM (addNested git root) entries
  let entries ← source.deepNestedSubmodules.foldlM (addDeepNested git) entries
  .ok ({ path := "", url := root.url, rev := root.rev },
    (entries.map Prod.snd).insertionSort fun e f ↦ e.key ≤ f.key)

/-! ### Staging -/

/-- `install_source`. -/
def installSource (destination : String) (source out : FileTree.Tree (List Char) α) :
    Option (FileTree.Tree (List Char) α) := do
  let out ← FileTree.mkdirP (components destination).dropLast out
  let out ← FileTree.mkdirP (components destination)
    (FileTree.rmRf (components destination) out)
  FileTree.copyInto source (components destination) out

/-- `mkLockedSource`, up to the installs: the tree that the derivation builds from the inputs of the
entries, if no command fails. -/
def mkLockedSource (root : SourceEntry) (submodules : List SourceEntry) :
    Option (FileTree.Tree (List Char) α) := do
  let out ← FileTree.mkdirP [] []
  let out ← FileTree.copyInto (git.tree root.repo) [] out
  submodules.foldlM (fun out e ↦ installSource e.path (git.tree e.repo) out) out

/-- The submodules of `compilerSourceTreeInputs`. -/
def compilerSubmodules (submodules : List SourceEntry) : List SourceEntry :=
  submodules.filter fun e ↦ !("rocm-systems/projects/rocprofiler-".toList.isPrefixOf e.path.toList)

/-! ### Where the entries come from -/

/-- The entry is a submodule of the root, or of an entry. -/
def HasOrigin (root : GitSource) (entries : List SourceEntry) (e : SourceEntry) : Prop :=
  ∃ rel rev, e.path = rel ∧ treeCommit git root rel = .ok rev ∨
    ∃ f ∈ entries, e.path = f.path ++ "/" ++ rel ∧ treeCommit git f.repo rel = .ok rev

/-- What the dictionary of `build_graph` keeps. -/
structure IsGraph (root : GitSource) (entries : Entries) : Prop where
  nodup : OrderedDict.NodupKeys entries
  path_eq : ∀ p ∈ entries, p.2.path = p.1
  origin : ∀ p ∈ entries, HasOrigin git root (entries.map Prod.snd) p.2

variable {git} {root : GitSource} {entries entries' : Entries}

theorem HasOrigin.mono {l l' : List SourceEntry} {e : SourceEntry} (h : HasOrigin git root l e)
    (hl : l ⊆ l') : HasOrigin git root l' e := by
  obtain ⟨rel, rev, hroot | ⟨f, hf, hnested⟩⟩ := h
  · exact ⟨rel, rev, Or.inl hroot⟩
  · exact ⟨rel, rev, Or.inr ⟨f, hl hf, hnested⟩⟩

theorem isGraph_nil : IsGraph git root [] where
  nodup := List.nodup_nil
  path_eq _ hp := absurd hp List.not_mem_nil
  origin _ hp := absurd hp List.not_mem_nil

theorem subset_addEntry (path url rev : String) (entries : Entries) :
    entries ⊆ addEntry path url rev entries := by
  rw [addEntry]
  split
  · exact List.Subset.refl entries
  next hnone => exact OrderedDict.subset_insert_of_get?_eq_none hnone

/-- An entry with an origin keeps the graph. -/
theorem IsGraph.addEntry {path url rev : String} (h : IsGraph git root entries)
    (horigin : HasOrigin git root (entries.map Prod.snd) { path, url, rev }) :
    IsGraph git root (addEntry path url rev entries) := by
  have hsubset := List.map_subset Prod.snd (subset_addEntry path url rev entries)
  rw [TheRock.addEntry] at hsubset ⊢
  split at hsubset
  · exact h
  · refine ⟨h.nodup.insert _ _, fun p hp ↦ ?_, fun p hp ↦ ?_⟩
    · rcases OrderedDict.mem_insert hp with rfl | hp
      · rfl
      · exact h.path_eq p hp
    · rcases OrderedDict.mem_insert hp with rfl | hp
      · exact horigin.mono hsubset
      · exact (h.origin p hp).mono hsubset

theorem IsGraph.addRootPath {path : String} (h : IsGraph git root entries)
    (hadd : addRootPath git root entries path = .ok entries') : IsGraph git root entries' := by
  obtain ⟨submodule, -, hadd⟩ := Result.bind_eq_ok_iff.1 hadd
  obtain ⟨rev, hrev, hadd⟩ := Result.bind_eq_ok_iff.1 hadd
  obtain rfl := Except.ok.inj hadd
  exact h.addEntry ⟨path, rev, Or.inl ⟨rfl, hrev⟩⟩

theorem IsGraph.addNestedPaths {preferName : Bool} {parentPath : String} {parent : SourceEntry}
    {paths : List String} (h : IsGraph git root entries)
    (hparent : OrderedDict.get? entries parentPath = some parent)
    (hadd : paths.foldlM (addNestedPath git preferName parentPath parent.repo) entries =
      .ok entries') : IsGraph git root entries' := by
  have hmem := OrderedDict.mem_of_get? hparent
  have hkeep : IsGraph git root entries' ∧ (parentPath, parent) ∈ entries' := by
    refine Result.foldlM_induction (P := fun d ↦ IsGraph git root d ∧ (parentPath, parent) ∈ d)
      ?_ ⟨h, hmem⟩ hadd
    rintro d path d' ⟨hd, hmem⟩ hstep
    obtain ⟨nested, -, hstep⟩ := Result.bind_eq_ok_iff.1 hstep
    obtain ⟨rev, hrev, hstep⟩ := Result.bind_eq_ok_iff.1 hstep
    obtain rfl := Except.ok.inj hstep
    refine ⟨hd.addEntry ?_, subset_addEntry _ _ _ _ hmem⟩
    have hpath : parent.path = parentPath := hd.path_eq _ hmem
    exact ⟨nested.path, rev, Or.inr ⟨parent, List.mem_map_of_mem hmem, by rw [hpath], hrev⟩⟩
  exact hkeep.1

/-- The submodules of one specification keep the graph. -/
theorem IsGraph.addNested {spec : String × List String} (h : IsGraph git root entries)
    (hadd : addNested git root entries spec = .ok entries') : IsGraph git root entries' := by
  obtain ⟨parentModule, -, hadd⟩ := Result.bind_eq_ok_iff.1 hadd
  split at hadd
  · exact Except.ok.inj hadd ▸ h
  next parent hparent => exact h.addNestedPaths hparent hadd

theorem IsGraph.addDeepNested {item : String × List String} (h : IsGraph git root entries)
    (hadd : addDeepNested git entries item = .ok entries') : IsGraph git root entries' := by
  rw [TheRock.addDeepNested] at hadd
  split at hadd
  · cases hadd
  next parent hparent => exact h.addNestedPaths hparent hadd

/-- What `build_graph` returns is a graph, sorted. -/
theorem exists_isGraph {source : TreeSource} {rootEntry : SourceEntry}
    {submodules : List SourceEntry} (h : buildGraph git source = .ok (rootEntry, submodules)) :
    rootEntry.path = "" ∧ ∃ entries : Entries, IsGraph git rootEntry.repo entries ∧
      submodules = (entries.map Prod.snd).insertionSort fun e f ↦ e.key ≤ f.key := by
  obtain ⟨paths, -, h⟩ := Result.bind_eq_ok_iff.1 h
  obtain ⟨entries₁, h₁, h⟩ := Result.bind_eq_ok_iff.1 h
  obtain ⟨specs, -, h⟩ := Result.bind_eq_ok_iff.1 h
  obtain ⟨entries₂, h₂, h⟩ := Result.bind_eq_ok_iff.1 h
  obtain ⟨entries₃, h₃, h⟩ := Result.bind_eq_ok_iff.1 h
  obtain ⟨rfl, rfl⟩ := Prod.mk.inj (Except.ok.inj h)
  refine ⟨rfl, entries₃, ?_, rfl⟩
  have hgraph₁ := Result.foldlM_induction (fun d p d' hd ↦ hd.addRootPath) isGraph_nil h₁
  have hgraph₂ := Result.foldlM_induction (fun d p d' hd ↦ hd.addNested) hgraph₁ h₂
  exact Result.foldlM_induction (fun d p d' hd ↦ hd.addDeepNested) hgraph₂ h₃

/-! ### Gitlinks -/

/-- What git trees are. The root of a checkout is a directory; nothing at or above a gitlink is a
file; no gitlink is above another one of the same tree. -/
structure Git.Lawful (git : Git α) : Prop where
  rootIsDir : ∀ repo, FileTree.RootIsDir (git.tree repo)
  clear : ∀ repo path rev, Normalized path → treeCommit git repo path = .ok rev →
    FileTree.NoFileAbove (git.tree repo) (components path)
  unnested : ∀ repo path path' rev rev', Normalized path → Normalized path' →
    treeCommit git repo path = .ok rev → treeCommit git repo path' = .ok rev' →
      components path <+: components path' → path = path'

/-- An entry as a mount of its checkout. -/
def SourceEntry.mount (git : Git α) (e : SourceEntry) : FileTree.Mount (List Char) α :=
  { path := components e.path, source := git.tree e.repo }

/-- What the sorted entries satisfy, on components. -/
structure IsForest (git : Git α) (root : SourceEntry) (submodules : List SourceEntry) : Prop where
  root_eq : root.path = ""
  normalized : ∀ e ∈ submodules, Normalized e.path
  nodup : (submodules.map SourceEntry.path).Nodup
  sorted : submodules.Pairwise fun e f ↦
    (components e.path).length ≤ (components f.path).length
  origin : ∀ e ∈ submodules, ∃ f ∈ root :: submodules, ∃ rel rev, Normalized rel ∧
    treeCommit git f.repo rel = .ok rev ∧ components e.path = components f.path ++ components rel

/-- The entries of `build_graph` are a forest if their paths are normalized. -/
theorem isForest_of_buildGraph {source : TreeSource} {rootEntry : SourceEntry}
    {submodules : List SourceEntry} (h : buildGraph git source = .ok (rootEntry, submodules))
    (hnorm : ∀ e ∈ submodules, Normalized e.path) : IsForest git rootEntry submodules := by
  obtain ⟨hroot, entries, hgraph, hsub⟩ := exists_isGraph h
  have hperm : submodules.Perm (entries.map Prod.snd) := hsub ▸ List.perm_insertionSort _ _
  refine ⟨hroot, hnorm, ?_, ?_, fun e he ↦ ?_⟩
  · have hkeys : (entries.map Prod.snd).map SourceEntry.path = entries.map Prod.fst := by
      rw [List.map_map]
      exact List.map_congr_left fun p hp ↦ hgraph.path_eq p hp
    exact (hperm.map SourceEntry.path).nodup_iff.2 (hkeys ▸ hgraph.nodup)
  · have hsorted : submodules.Pairwise fun e f ↦ e.key ≤ f.key :=
      hsub ▸ List.pairwise_insertionSort _ _
    refine hsorted.imp_of_mem fun {e f} he hf hle ↦ ?_
    rw [(hnorm e he).length_components, (hnorm f hf).length_components]
    exact Nat.succ_le_succ (Prod.Lex.monotone_fst _ _ hle)
  · obtain ⟨p, hp, rfl⟩ := List.mem_map.1 (hperm.mem_iff.1 he)
    have hpath := hnorm p.2 he
    obtain ⟨rel, rev, ⟨hrel, hrev⟩ | ⟨f, hf, hrel, hrev⟩⟩ := hgraph.origin p hp
    · refine ⟨rootEntry, List.mem_cons_self, rel, rev, hrel ▸ hpath, hrev, ?_⟩
      rw [hroot, hrel, components_empty, List.nil_append]
    · have hf := hperm.mem_iff.2 hf
      obtain ⟨hnormRel, hcomponents⟩ := (hnorm f hf).of_join (hrel ▸ hpath)
      exact ⟨f, List.mem_cons_of_mem _ hf, rel, rev, hnormRel, hrev, hrel ▸ hcomponents⟩

variable {rootEntry e f g h : SourceEntry} {submodules kept : List SourceEntry}

theorem IsForest.components_root (hforest : IsForest git rootEntry submodules) :
    components rootEntry.path = [] := by
  rw [hforest.root_eq, components_empty]

/-- Different entries are at different paths. -/
theorem IsForest.eq_of_components_eq (hforest : IsForest git rootEntry submodules)
    (hf : f ∈ rootEntry :: submodules) (hg : g ∈ rootEntry :: submodules)
    (heq : components f.path = components g.path) : f = g := by
  have hne : ∀ e ∈ submodules, components e.path ≠ [] := fun e he ↦
    (hforest.normalized e he).components_ne_nil
  rcases List.mem_cons.1 hf with rfl | hfsub
  · rcases List.mem_cons.1 hg with rfl | hgsub
    · rfl
    · exact absurd (heq ▸ hforest.components_root) (hne g hgsub)
  · rcases List.mem_cons.1 hg with rfl | hgsub
    · exact absurd (heq ▸ hforest.components_root) (hne f hfsub)
    · refine List.inj_on_of_nodup_map hforest.nodup hfsub hgsub ?_
      exact (hforest.normalized f hfsub).components_inj (hforest.normalized g hgsub) heq

theorem IsForest.mem_of_length_pos (hforest : IsForest git rootEntry submodules)
    (hf : f ∈ rootEntry :: submodules) (hpos : 0 < (components f.path).length) :
    f ∈ submodules := by
  rcases List.mem_cons.1 hf with rfl | hf
  · rw [hforest.components_root] at hpos
    cases hpos
  · exact hf

/-- No entry is between another one and the entry whose submodule that is. The induction is on the
lengths of both paths: an entry in between is a submodule of one that is above, at or below the
given one. -/
theorem IsForest.not_between (hforest : IsForest git rootEntry submodules) (hgit : git.Lawful)
    {rel rev : String} (he : e ∈ submodules) (hf : f ∈ rootEntry :: submodules)
    (hnorm : Normalized rel) (hrev : treeCommit git f.repo rel = .ok rev)
    (hrel : components e.path = components f.path ++ components rel) (hh : h ∈ submodules)
    (hfh : (components f.path).length < (components h.path).length)
    (hhe : (components h.path).length < (components e.path).length) :
    ¬ components h.path <+: components e.path := by
  intro habove
  -- by induction on the two lengths, over the entry that the one in between comes from
  induction hn : (components e.path).length + (components h.path).length using
    Nat.strong_induction_on generalizing e f h rel rev with
  | _ n ih =>
    obtain ⟨f', hf', rel', rev', hnorm', hrev', hrel'⟩ := hforest.origin h hh
    have hfe : components f.path <+: components e.path := ⟨_, hrel.symm⟩
    have hf'h : components f'.path <+: components h.path := ⟨_, hrel'.symm⟩
    have hlt : (components f'.path).length < (components h.path).length := by
      have hpos := List.length_pos_iff.2 hnorm'.components_ne_nil
      rw [hrel', List.length_append]
      omega
    have hfh' : components f.path <+: components h.path :=
      List.prefix_of_prefix_length_le hfe habove hfh.le
    rcases lt_trichotomy (components f'.path).length (components f.path).length with hcmp | hcmp |
      hcmp
    · -- the entry in between comes from above the given one, which then is in between itself
      have hmem := hforest.mem_of_length_pos hf (by omega)
      exact ih _ (by omega) hh hf' hnorm' hrev' hrel' hmem hcmp hfh hfh' rfl
    · -- two gitlinks of one tree, which are not above each other
      have hpath : components f'.path = components f.path :=
        (List.prefix_of_prefix_length_le hf'h hfh' hcmp.le).eq_of_length hcmp
      obtain rfl := hforest.eq_of_components_eq hf' hf hpath
      have hprefix : components rel' <+: components rel := by
        rw [hrel, hrel'] at habove
        exact (List.prefix_append_right_inj _).1 habove
      obtain rfl := hgit.unnested _ _ _ _ _ hnorm' hnorm hrev' hrev hprefix
      rw [hrel, hrel'] at hhe
      exact lt_irrefl _ hhe
    · -- what the entry in between comes from is in between too, and is shorter
      have hmem := hforest.mem_of_length_pos hf' (by omega)
      exact ih _ (by omega) he hf hnorm hrev hrel hmem hcmp (by omega) (hf'h.trans habove) rfl

/-- Some of the entries, with all that are above them. -/
structure IsClosed (submodules kept : List SourceEntry) : Prop where
  sublist : kept.Sublist submodules
  above : ∀ e ∈ kept, ∀ f ∈ submodules, components f.path <+: components e.path → f ∈ kept

/-- Above an entry, the deepest entry has no file. The induction is on the length of the path: what
is above the parent too is its case, and what is not is in the checkout of the parent. -/
theorem IsForest.clear (hforest : IsForest git rootEntry submodules) (hgit : git.Lawful)
    (hclosed : IsClosed submodules kept) (he : e ∈ kept) {q : List (List Char)}
    (hq : q <+: (components e.path).dropLast) {o : FileTree.Mount (List Char) α}
    (ho : FileTree.IsDeepest (rootEntry.mount git) (kept.map (SourceEntry.mount git)) q o)
    (a : α) : ¬ o.HasFile q a := by
  induction hn : (components e.path).length using Nat.strong_induction_on generalizing e with
  | _ n ih =>
    have hesub := hclosed.sublist.subset he
    obtain ⟨f, hf, rel, rev, hnorm, hrev, hrel⟩ := hforest.origin e hesub
    have hfe : components f.path <+: components e.path := ⟨_, hrel.symm⟩
    have hfkept : f ∈ rootEntry :: kept := by
      rcases List.mem_cons.1 hf with rfl | hf
      · exact List.mem_cons_self
      · exact List.mem_cons_of_mem _ (hclosed.above e he f hf hfe)
    have hqe : q <+: components e.path := hq.trans (List.dropLast_prefix _)
    have hqlt : q.length < (components e.path).length := by
      have hpos := List.length_pos_iff.2 (hforest.normalized e hesub).components_ne_nil
      have hle := hq.length_le
      rw [List.length_dropLast] at hle
      omega
    -- the deepest entry above the path is the parent of `e`, or lies above the parent
    by_cases hfq : components f.path <+: q
    · obtain ⟨g, hg, rfl⟩ : ∃ g ∈ rootEntry :: kept, g.mount git = o :=
        List.mem_map.1 ho.mem
      have hgmem : g ∈ rootEntry :: submodules :=
        (List.cons_subset_cons rootEntry hclosed.sublist.subset) hg
      have hgq : components g.path <+: q := ho.above
      have hle : (components f.path).length ≤ (components g.path).length :=
        ho.length_le (f.mount git) (List.mem_map_of_mem (f := SourceEntry.mount git) hfkept) hfq
      rcases hle.eq_or_lt with heq | hlt
      · have hpath := (List.prefix_of_prefix_length_le hfq hgq hle).eq_of_length heq
        obtain rfl := hforest.eq_of_components_eq hf hgmem hpath
        refine hgit.clear f.repo rel rev hnorm hrev _ ?_ a
        obtain ⟨r, rfl⟩ := hfq
        rw [hrel] at hqe
        exact List.drop_left.symm ▸ (List.prefix_append_right_inj _).1 hqe
      · have hgsub := hforest.mem_of_length_pos hgmem (by omega)
        have hglt := hgq.length_le.trans_lt hqlt
        exact absurd (hgq.trans hqe)
          (hforest.not_between hgit hesub hf hnorm hrev hrel hgsub hlt hglt)
    · -- the path is above the parent as well
      have hqf : q <+: components f.path :=
        (List.prefix_or_prefix_of_prefix hqe hfe).resolve_right hfq
      have hne : q ≠ components f.path := fun heq ↦ hfq (heq ▸ List.prefix_rfl)
      have hfk : f ∈ kept := by
        rcases List.mem_cons.1 hfkept with rfl | hfk
        · exact absurd (hforest.components_root ▸ List.nil_prefix) hfq
        · exact hfk
      have hlt : (components f.path).length < (components e.path).length := by
        have hpos := List.length_pos_iff.2 hnorm.components_ne_nil
        rw [hrel, List.length_append]
        omega
      exact ih _ (hn ▸ hlt) hfk (FileTree.prefix_dropLast hqf hne) rfl

/-! ### The overlay -/

/-- **The sources come in layers**: none above another one comes behind it. -/
theorem IsForest.isLayered (hforest : IsForest git rootEntry submodules)
    (hclosed : IsClosed submodules kept) :
    FileTree.IsLayered (rootEntry.mount git) (kept.map (SourceEntry.mount git)) := by
  refine ⟨hforest.components_root, ?_, ?_⟩
  · exact List.pairwise_map.2 (hforest.sorted.sublist hclosed.sublist)
  · have hsublist := hclosed.sublist.cons_cons rootEntry
    have hnodup : (rootEntry :: submodules).Nodup := by
      refine List.nodup_cons.2 ⟨fun hmem ↦ ?_, List.Nodup.of_map _ hforest.nodup⟩
      exact (hforest.normalized _ hmem).components_ne_nil hforest.components_root
    rw [← List.map_cons, List.map_map]
    refine (hnodup.sublist hsublist).map_on fun f hf g hg heq ↦ ?_
    exact hforest.eq_of_components_eq (hsublist.subset hf) (hsublist.subset hg) heq

/-- What `mkLockedSource` does is to copy the root and then to mount the entries. -/
theorem exists_copyRoot (hdir : FileTree.RootIsDir (git.tree rootEntry.repo))
    (hroot : components rootEntry.path = []) (kept : List SourceEntry) :
    ∃ out, (∀ x a, FileTree.HasFile out x a ↔ (rootEntry.mount git).HasFile x a) ∧
      mkLockedSource git rootEntry kept =
        FileTree.installAll (kept.map (SourceEntry.mount git)) out := by
  have hempty : FileTree.NoFileAbove ([] : FileTree.Tree (List Char) α) [] :=
    fun q _ a hfile ↦ by cases hfile
  obtain ⟨out₁, h₁, hlookup₁⟩ := FileTree.exists_mkdirP hempty
  have hempty₁ : ∀ x, FileTree.lookup out₁ x = if x = [] then some .dir else none := by
    intro x
    rw [hlookup₁, if_congr List.prefix_nil rfl rfl]
    rfl
  obtain ⟨out₂, h₂, hfile₂⟩ := FileTree.exists_copyInto hdir fun x _ ↦ hempty₁ x
  refine ⟨out₂, fun x a ↦ ?_, ?_⟩
  · rw [hfile₂, if_pos List.nil_prefix, FileTree.Mount.HasFile, SourceEntry.mount, hroot]
  · rw [mkLockedSource, h₁, Option.bind_eq_bind, Option.bind_some, h₂, Option.bind_some,
      FileTree.installAll, List.foldlM_map]
    rfl

variable (git) in
/-- The entry whose path is the longest directory prefix of a path, the root where there is no
other. -/
structure Owns (root : SourceEntry) (submodules : List SourceEntry) (x : List (List Char))
    (e : SourceEntry) : Prop where
  mem : e ∈ root :: submodules
  above : components e.path <+: x
  longest : ∀ f ∈ root :: submodules, components f.path <+: x →
    (components f.path).length ≤ (components e.path).length

variable (git) in
/-- Staging succeeds, and at every path the tree has the file of the entry that owns the path. -/
def IsStaged (root : SourceEntry) (submodules : List SourceEntry) : Prop :=
  ∃ out, mkLockedSource git root submodules = some out ∧ ∀ x, ∃ e, Owns root submodules x e ∧
    ∀ a, FileTree.HasFile out x a ↔
      FileTree.HasFile (git.tree e.repo) (x.drop (components e.path).length) a

/-- **The staged tree is the overlay of the sources.** -/
theorem isStaged_of_isClosed (hforest : IsForest git rootEntry submodules) (hgit : git.Lawful)
    (hclosed : IsClosed submodules kept) : IsStaged git rootEntry kept := by
  have hlayered := hforest.isLayered hclosed
  obtain ⟨out, hfile, hstage⟩ :=
    exists_copyRoot (hgit.rootIsDir _) hforest.components_root kept
  have hdir : ∀ m ∈ kept.map (SourceEntry.mount git), FileTree.RootIsDir m.source := by
    intro m hm
    obtain ⟨e, -, rfl⟩ := List.mem_map.1 hm
    exact hgit.rootIsDir e.repo
  have hclear : ∀ m ∈ kept.map (SourceEntry.mount git), ∀ q, q <+: m.path.dropLast → ∀ o,
      FileTree.IsDeepest (rootEntry.mount git) (kept.map (SourceEntry.mount git)) q o →
        ∀ a, ¬ o.HasFile q a := by
    intro m hm q hq o ho
    obtain ⟨e, he, rfl⟩ := List.mem_map.1 hm
    exact hforest.clear hgit hclosed he hq ho
  obtain ⟨out', hout', hoverlay⟩ := FileTree.exists_isOverlay hlayered hdir hclear hfile
  refine ⟨out', hstage.trans hout', fun x ↦ ?_⟩
  obtain ⟨m, hm⟩ : ∃ m, FileTree.IsDeepest _ _ x m := ⟨_, hlayered.isDeepest_lastAbove_self x⟩
  obtain ⟨e, he, rfl⟩ : ∃ e ∈ rootEntry :: kept, e.mount git = m := List.mem_map.1 hm.mem
  refine ⟨e, ⟨he, hm.above, fun f hf hx ↦ ?_⟩, hoverlay x _ hm⟩
  exact hm.length_le (f.mount git) (List.mem_map_of_mem (f := SourceEntry.mount git) hf) hx

/-- What the filter of the compiler keeps is closed: what is above a path that does not start with
the prefix does not start with it either. -/
theorem IsForest.isClosed_compilerSubmodules (hforest : IsForest git rootEntry submodules) :
    IsClosed submodules (compilerSubmodules submodules) where
  sublist := List.filter_sublist
  above e he f hf hfe := by
    obtain ⟨hesub, hkeep⟩ := List.mem_filter.1 he
    refine List.mem_filter.2 ⟨hf, ?_⟩
    rw [Bool.not_eq_true'] at hkeep ⊢
    refine Bool.eq_false_iff.2 fun hprefix ↦ Bool.eq_false_iff.1 hkeep ?_
    have htext := (hforest.normalized f hf).prefix_toList (hforest.normalized e hesub) hfe
    exact List.isPrefixOf_iff_prefix.2 ((List.isPrefixOf_iff_prefix.1 hprefix).trans htext)

/-- **The staged tree is the overlay of the pinned sources**, of all of them and of those of the
compiler. -/
theorem isStaged_of_buildGraph (hgit : git.Lawful) {source : TreeSource}
    (hgraph : buildGraph git source = .ok (rootEntry, submodules))
    (hnorm : ∀ e ∈ submodules, Normalized e.path) :
    IsStaged git rootEntry submodules ∧
      IsStaged git rootEntry (compilerSubmodules submodules) := by
  have hforest := isForest_of_buildGraph hgraph hnorm
  refine ⟨isStaged_of_isClosed hforest hgit ?_, isStaged_of_isClosed hforest hgit
    hforest.isClosed_compilerSubmodules⟩
  exact ⟨List.Sublist.refl submodules, fun _ _ f hf _ ↦ hf⟩

end

/-! ### A tree with nested submodules -/

/-- The repositories of a root with one submodule that has two of its own. -/
def nestedGit : Git String where
  pathConfig repo :=
    if repo.rev = "1" then [("submodule.systems.path", "rocm-systems")]
    else if repo.rev = "2" then
      [("submodule.sdk.path", "projects/rocprofiler-sdk"), ("submodule.half.path", "core/half")]
    else []
  urlConfig _ := [("submodule.systems.url", "systems"), ("submodule.sdk.url", "sdk"),
    ("submodule.half.url", "half")]
  lsTree repo path :=
    if repo.rev = "1" ∧ path = "rocm-systems" then some ("commit", "2")
    else if repo.rev = "2" ∧ path = "projects/rocprofiler-sdk" then some ("commit", "3")
    else if repo.rev = "2" ∧ path = "core/half" then some ("commit", "4")
    else none
  enabledRootPaths _ _ := some ["rocm-systems"]
  tree repo := [([], .dir), (["README.md".toList], .file repo.rev)]

/-- What the updater is given for them. -/
def nestedSource : TreeSource where
  url := "therock"
  rev := "1"
  deepNestedSubmodules := [("rocm-systems", ["projects/rocprofiler-sdk", "core/half"])]

theorem nestedGit_treeCommit {repo : GitSource} {path rev : String}
    (h : treeCommit nestedGit repo path = .ok rev) :
    repo.rev = "1" ∧ path = "rocm-systems" ∨
      repo.rev = "2" ∧ (path = "projects/rocprofiler-sdk" ∨ path = "core/half") := by
  simp only [treeCommit, nestedGit] at h
  grind

theorem nestedGit_lawful : nestedGit.Lawful where
  rootIsDir repo e he hnil := by
    rcases List.mem_pair.1 he with rfl | rfl
    · rfl
    · cases hnil
  clear repo path rev _ hrev q hq a hfile := by
    have hq' : q = ["README.md".toList] := by
      have hmem := OrderedDict.mem_of_get? hfile
      rcases List.mem_pair.1 hmem with heq | heq
      · cases heq
      · exact (Prod.mk.inj heq).1
    subst hq'
    revert hq
    rcases nestedGit_treeCommit hrev with ⟨-, rfl⟩ | ⟨-, rfl | rfl⟩
    · decide
    · decide
    · decide
  unnested repo path path' rev rev' _ _ hrev hrev' := by
    rcases nestedGit_treeCommit hrev with ⟨-, rfl⟩ | ⟨-, rfl | rfl⟩ <;>
      rcases nestedGit_treeCommit hrev' with ⟨-, rfl⟩ | ⟨-, rfl | rfl⟩ <;>
      decide

/-- Three entries, one of which the compiler leaves out. -/
theorem isStaged_of_buildGraph_nested :
    IsStaged nestedGit ⟨"", "therock", "1"⟩
        [⟨"rocm-systems", "systems", "2"⟩, ⟨"rocm-systems/core/half", "half", "4"⟩,
          ⟨"rocm-systems/projects/rocprofiler-sdk", "sdk", "3"⟩] ∧
      IsStaged nestedGit ⟨"", "therock", "1"⟩
        [⟨"rocm-systems", "systems", "2"⟩, ⟨"rocm-systems/core/half", "half", "4"⟩] := by
  have hgraph : buildGraph nestedGit nestedSource = .ok (⟨"", "therock", "1"⟩,
      [⟨"rocm-systems", "systems", "2"⟩, ⟨"rocm-systems/core/half", "half", "4"⟩,
        ⟨"rocm-systems/projects/rocprofiler-sdk", "sdk", "3"⟩]) := by decide
  exact isStaged_of_buildGraph nestedGit_lawful hgraph (by decide)

end TheRock
