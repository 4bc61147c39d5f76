import NixStrixHalo.TheRock.FlakeInputs

/-!
# What the generated Nix says

The updater prints the strings of the source graph with `json.dumps`, and Nix reads them. A file
says what was written into it exactly when each of its strings survives, which one with a character
outside ASCII, with most control characters or with `${` does not (`generatedNix_iff`).

## Reading the files

`readInputs` and `readTree` read the two files in their own layout: the lines are fixed but for the
strings, and these are read by `NixString`. Between the texts of the layout a string is read back if
and only if it survives on its own (`readString_line`), so the files can be taken line by line.

## Which strings can fail

The name of an input is made of a series, a target, a slug and a digest, so it survives whatever the
path of the submodule is (`survives_inputName`). The paths themselves, the revisions and the names
of repositories are written as they are.
-/

namespace TheRock

open PythonText

/-- What stands before the entries in the file of `write_tree`. -/
def treeHead (target version rootName : String) : List (List Char) :=
  ["# Generated by pkgs/therock/scripts/update-source-tree.py; do not edit by hand.".toList,
    "\x7b inputs \x7d:".toList, "\x7b".toList,
    "  ".toList ++ (nixString target ++ " = \x7b".toList),
    "    version = ".toList ++ (nixString version ++ ";".toList),
    "    root = inputs.".toList ++ (nixString rootName ++ ";".toList),
    "    submodules = [".toList]

/-- The lines of one entry. -/
def treeEntry (entry : InputEntry) : List (List Char) :=
  ["      \x7b".toList,
    "        path = ".toList ++ (nixString entry.path ++ ";".toList),
    "        source = inputs.".toList ++ (nixString entry.inputName ++ ";".toList),
    "      \x7d".toList]

/-- What stands after the entries. -/
def treeEnd : List (List Char) := ["    ];".toList, "  \x7d;".toList, "\x7d".toList]

/-- The lines of the file. -/
def treeLines (target version : String) (g : SourceGraph) : List (List Char) :=
  treeHead target version g.root.inputName ++ g.submodules.flatMap treeEntry ++ treeEnd

/-- `write_tree`: the text of the file. -/
def writeTree (target version : String) (g : SourceGraph) : List Char :=
  ['\n'].intercalate (treeLines target version g) ++ ['\n']

/-! ### Reading the files -/

/-- The value of the string on a line, between what else stands on it. -/
def readString (paired : Bool) (before after line : List Char) : Option (List Char) := do
  let rest ← line.dropPrefix? before
  let (value, rest) ← NixString.literal paired rest
  guard (rest = after)
  return value

/-- The inputs that the lines after the comment declare. -/
def readInputEntries (paired : Bool) : List (List Char) → Option (List (List Char × List Char))
  | [line] => if line = endInputs then some [] else none
  | name :: url :: flake :: close :: blank :: rest =>
    if flake = "      flake = false;".toList ∧ close = "    \x7d;".toList ∧ blank = [] then do
      let name ← readString paired (List.replicate 4 ' ') " = \x7b".toList name
      let url ← readString paired "      url = ".toList ";".toList url
      let entries ← readInputEntries paired rest
      return (name, url) :: entries
    else none
  | _ => none

/-- The inputs, by name and URL, that the block declares. -/
def readInputs (paired : Bool) : List (List Char) → Option (List (List Char × List Char))
  | first :: comment :: rest =>
    if first = beginInputs ∧ comment = generatedComment then readInputEntries paired rest else none
  | _ => none

/-- What the file of `write_tree` records for a target: the version, the input of the root, and the
path and the input of each submodule. -/
structure TreeRecord where
  target : List Char
  version : List Char
  root : List Char
  submodules : List (List Char × List Char)
  deriving DecidableEq

/-- The submodules that the lines after the bracket record. -/
def readTreeEntries (paired : Bool) : List (List Char) → Option (List (List Char × List Char))
  | brace :: path :: source :: close :: rest =>
    if brace = "      \x7b".toList ∧ close = "      \x7d".toList then do
      let path ← readString paired "        path = ".toList ";".toList path
      let source ← readString paired "        source = inputs.".toList ";".toList source
      let entries ← readTreeEntries paired rest
      return (path, source) :: entries
    else none
  | lines => if lines = treeEnd then some [] else none

/-- The record in the text of the file. -/
def readTree (paired : Bool) (text : List Char) : Option TreeRecord :=
  match splitlines text with
  | comment :: inputs :: first :: target :: version :: root :: submodules :: rest =>
    if comment.head? = some '#' ∧ inputs = "\x7b inputs \x7d:".toList ∧
        first = "\x7b".toList ∧ submodules = "    submodules = [".toList then do
      let target ← readString paired "  ".toList " = \x7b".toList target
      let version ← readString paired "    version = ".toList ";".toList version
      let root ← readString paired "    root = inputs.".toList ";".toList root
      let submodules ← readTreeEntries paired rest
      return { target, version, root, submodules }
    else none
  | _ => none

variable {paired : Bool}

theorem readString_line (before after : List Char) (value : String) :
    readString paired before after (before ++ (nixString value ++ after)) =
      NixString.eval paired (nixString value) := by
  rw [readString, List.dropPrefix?_append_of_beq _ (beq_self_eq_true _), nixString,
    NixString.eval_dumps, Option.bind_eq_bind, Option.bind_some, NixString.literal_dumps]
  split
  · rfl
  · simp [guard]

theorem eval_nixString_iff {value : String} :
    NixString.eval paired (nixString value) = some value.toList ↔
      NixString.Survives paired value.toList :=
  NixString.eval_dumps_iff

/-- Lines that each item puts two strings on are read back exactly if all of the strings survive. -/
theorem readPairs_iff {ι : Type*} {read : List (List Char) → Option (List (List Char × List Char))}
    {lines : ι → List (List Char)} {first second : ι → String} {rest : List (List Char)}
    (hrest : read rest = some [])
    (hread : ∀ item rest, read (lines item ++ rest) =
      (NixString.eval paired (nixString (first item))).bind fun x ↦
        (NixString.eval paired (nixString (second item))).bind fun y ↦
          (read rest).bind fun pairs ↦ some ((x, y) :: pairs)) {items : List ι} :
    read (items.flatMap lines ++ rest) =
        some (items.map fun item ↦ ((first item).toList, (second item).toList)) ↔
      ∀ item ∈ items, NixString.Survives paired (first item).toList ∧
        NixString.Survives paired (second item).toList := by
  induction items with
  | nil => exact iff_of_true hrest fun _ h ↦ absurd h List.not_mem_nil
  | cons item items ih =>
    rw [List.flatMap_cons, List.append_assoc, hread, List.map_cons, List.forall_mem_cons, ← ih,
      ← eval_nixString_iff, ← eval_nixString_iff]
    simp only [Option.bind_eq_some_iff, Option.some_inj, List.cons.injEq, Prod.mk.injEq]
    constructor
    · rintro ⟨x, hx, y, hy, pairs, hpairs, ⟨rfl, rfl⟩, rfl⟩
      exact ⟨⟨hx, hy⟩, hpairs⟩
    · rintro ⟨⟨hx, hy⟩, hpairs⟩
      exact ⟨_, hx, _, hy, _, hpairs, ⟨rfl, rfl⟩, rfl⟩

/-- The strings of an input are read on their own. -/
theorem readInputEntries_entryLines (input : String × String) (rest : List (List Char)) :
    readInputEntries paired (entryLines input ++ rest) =
      (NixString.eval paired (nixString input.1)).bind fun name ↦
        (NixString.eval paired (nixString input.2)).bind fun url ↦
          (readInputEntries paired rest).bind fun entries ↦ some ((name, url) :: entries) := by
  obtain ⟨name, url⟩ := input
  rw [entryLines, List.cons_append, List.cons_append, List.cons_append, List.cons_append,
    List.cons_append, readInputEntries, if_pos ⟨rfl, rfl, rfl⟩, readString_line, readString_line,
    List.nil_append]
  rfl

theorem readInputs_iff {inputs : List (String × String)} :
    readInputs paired (blockLines inputs) =
        some (inputs.map fun input ↦ (input.1.toList, input.2.toList)) ↔
      ∀ input ∈ inputs, NixString.Survives paired input.1.toList ∧
        NixString.Survives paired input.2.toList := by
  rw [blockLines, blockBody, List.cons_append, readInputs, if_pos ⟨rfl, rfl⟩]
  exact readPairs_iff (if_pos rfl) readInputEntries_entryLines

/-! ### The tree -/

theorem readTreeEntries_treeEntry (entry : InputEntry) (rest : List (List Char)) :
    readTreeEntries paired (treeEntry entry ++ rest) =
      (NixString.eval paired (nixString entry.path)).bind fun path ↦
        (NixString.eval paired (nixString entry.inputName)).bind fun source ↦
          (readTreeEntries paired rest).bind fun entries ↦ some ((path, source) :: entries) := by
  rw [treeEntry, List.cons_append, List.cons_append, List.cons_append, List.cons_append,
    readTreeEntries, if_pos ⟨rfl, rfl⟩, readString_line, readString_line, List.nil_append]
  rfl

theorem readTreeEntries_iff {entries : List InputEntry} :
    readTreeEntries paired (entries.flatMap treeEntry ++ treeEnd) =
        some (entries.map fun entry ↦ (entry.path.toList, entry.inputName.toList)) ↔
      ∀ entry ∈ entries, NixString.Survives paired entry.path.toList ∧
        NixString.Survives paired entry.inputName.toList :=
  readPairs_iff (if_pos rfl) readTreeEntries_treeEntry

theorem isPrintable_of_mem_treeLines {target version : String} {g : SourceGraph}
    {line : List Char} (hline : line ∈ treeLines target version g) :
    ∀ c ∈ line, NixString.isPrintable c := by
  rcases List.mem_append.1 hline with hline | hline
  · rcases List.mem_append.1 hline with hline | hline
    · simp only [treeHead, List.mem_cons, List.not_mem_nil, or_false] at hline
      rcases hline with rfl | rfl | rfl | rfl | rfl | rfl | rfl
      · decide
      · decide
      · decide
      · exact isPrintable_stringLine (by decide) (by decide)
      · exact isPrintable_stringLine (by decide) (by decide)
      · exact isPrintable_stringLine (by decide) (by decide)
      · decide
    · obtain ⟨entry, -, hline⟩ := List.mem_flatMap.1 hline
      simp only [treeEntry, List.mem_cons, List.not_mem_nil, or_false] at hline
      rcases hline with rfl | rfl | rfl | rfl
      · decide
      · exact isPrintable_stringLine (by decide) (by decide)
      · exact isPrintable_stringLine (by decide) (by decide)
      · decide
  · have hall : ∀ line ∈ treeEnd, ∀ c ∈ line, NixString.isPrintable c := by decide
    exact hall line hline

/-- The lines of the file are those that were written. -/
theorem splitlines_writeTree (target version : String) (g : SourceGraph) :
    splitlines (writeTree target version g) = treeLines target version g := by
  have hne : treeLines target version g ≠ [] := by simp [treeLines, treeHead]
  rw [writeTree, intercalate_append_newline hne]
  exact splitlines_unlines fun line hline c hc ↦
    isLineBreak_of_isPrintable (isPrintable_of_mem_treeLines hline c hc)

/-- What `write_tree` is given. -/
def treeRecord (target version : String) (g : SourceGraph) : TreeRecord where
  target := target.toList
  version := version.toList
  root := g.root.inputName.toList
  submodules := g.submodules.map fun entry ↦ (entry.path.toList, entry.inputName.toList)

theorem readTree_iff {target version : String} {g : SourceGraph} :
    readTree paired (writeTree target version g) = some (treeRecord target version g) ↔
      NixString.Survives paired target.toList ∧ NixString.Survives paired version.toList ∧
        NixString.Survives paired g.root.inputName.toList ∧
        ∀ entry ∈ g.submodules, NixString.Survives paired entry.path.toList ∧
          NixString.Survives paired entry.inputName.toList := by
  have hread : readTree paired (writeTree target version g) =
      (NixString.eval paired (nixString target)).bind fun target ↦
        (NixString.eval paired (nixString version)).bind fun version ↦
          (NixString.eval paired (nixString g.root.inputName)).bind fun root ↦
            (readTreeEntries paired (g.submodules.flatMap treeEntry ++ treeEnd)).bind
              fun submodules ↦ some { target, version, root, submodules } := by
    rw [readTree, splitlines_writeTree, treeLines, treeHead]
    simp only [List.cons_append, List.nil_append]
    rw [if_pos ⟨by decide, trivial, trivial, trivial⟩, readString_line, readString_line,
      readString_line]
    rfl
  -- each string is read on its own, so the record is read iff all of them are
  rw [hread, ← readTreeEntries_iff, ← eval_nixString_iff, ← eval_nixString_iff,
    ← eval_nixString_iff]
  simp only [Option.bind_eq_some_iff, Option.some_inj, treeRecord, TreeRecord.mk.injEq]
  constructor
  · rintro ⟨_, htarget, _, hversion, _, hroot, _, hentries, rfl, rfl, rfl, rfl⟩
    exact ⟨htarget, hversion, hroot, hentries⟩
  · rintro ⟨htarget, hversion, hroot, hentries⟩
    exact ⟨_, htarget, _, hversion, _, hroot, _, hentries, rfl, rfl, rfl, rfl⟩

/-! ### Names of inputs -/

/-- A character that is kept and is no brace. -/
def IsPlain (c : Char) : Prop := NixString.isKept c ∧ c ≠ '{'

instance (c : Char) : Decidable (IsPlain c) :=
  inferInstanceAs (Decidable (NixString.isKept c ∧ c ≠ '{'))

theorem mem_of_mem_stripEnd {c d : Char} {value : List Char} (h : d ∈ stripEnd c value) :
    d ∈ value := by
  rw [stripEnd, List.mem_reverse] at h
  exact List.mem_reverse.1 ((List.dropWhile_suffix _).subset h)

theorem isAlphanum_of_mem_dashRuns {inRun : Bool} {path : List Char} {c : Char}
    (h : c ∈ dashRuns inRun path) : c.isAlphanum ∨ c = '-' := by
  induction path generalizing inRun with
  | nil => exact absurd h List.not_mem_nil
  | cons d path ih =>
    rw [dashRuns] at h
    split at h
    next hd =>
      rcases List.mem_cons.1 h with rfl | h
      · exact Or.inl hd
      · exact ih h
    split at h
    · exact ih h
    · rcases List.mem_cons.1 h with rfl | h
      · exact Or.inr rfl
      · exact ih h

/-- Letters, digits and dashes are plain, in lower case too. -/
theorem isPlain_of_isAlphanum {c : Char} (h : c.isAlphanum ∨ c = '-') :
    IsPlain c ∧ IsPlain c.toLower := by
  -- letters and digits are ASCII, so it is decided for all of ASCII
  have hall : ∀ n < 128, (Char.ofNat n).isAlphanum ∨ Char.ofNat n = '-' →
      IsPlain (Char.ofNat n) ∧ IsPlain (Char.ofNat n).toLower := by decide +kernel
  have hlt : c.toNat < 128 := by
    rcases h with h | rfl
    · have hrange := toNat_of_isAlphanum h
      omega
    · decide
  have hc := hall c.toNat hlt
  rw [Char.ofNat_toNat] at hc
  exact hc h

/-- A slug has letters, digits and dashes only. -/
theorem isPlain_of_mem_inputSlug {path : List Char} : ∀ c ∈ inputSlug path, IsPlain c := by
  have hslug : ∀ c ∈ (stripEnd '-' ((dashRuns false path).dropWhile (· = '-'))).map Char.toLower,
      IsPlain c := by
    intro c hc
    obtain ⟨d, hd, rfl⟩ := List.mem_map.1 hc
    exact (isPlain_of_isAlphanum (isAlphanum_of_mem_dashRuns
      ((List.dropWhile_suffix _).subset (mem_of_mem_stripEnd hd)))).2
  rw [inputSlug]
  split
  · exact fun c hc ↦ hslug c (List.mem_of_mem_take (mem_of_mem_stripEnd hc))
  · exact hslug

/-- **The names of inputs survive** whatever the paths are, if the version and the target have plain
characters only. -/
theorem survives_inputName {sha1 : String → List Char} {series target : String}
    (hsha1 : ∀ path, ∀ c ∈ sha1 path, c.isAlphanum) (hseries : ∀ c ∈ series.toList, IsPlain c)
    (htarget : ∀ c ∈ target.toList, IsPlain c) (path : String) :
    NixString.Survives paired (inputName sha1 series target path).toList := by
  have hdash : IsPlain '-' := by decide
  have hhead : ∀ c ∈ "therock-src-".toList ++ (series.toList.map fun c ↦ if c = '.' then '-' else c)
      ++ '-' :: target.toList, IsPlain c := by
    refine List.forall_mem_append.2 ⟨List.forall_mem_append.2 ⟨by decide, fun c hc ↦ ?_⟩,
      List.forall_mem_cons.2 ⟨hdash, htarget⟩⟩
    obtain ⟨d, hd, rfl⟩ := List.mem_map.1 hc
    split
    · exact hdash
    · exact hseries d hd
  have hdigest : ∀ c ∈ (sha1 path).take 8, IsPlain c :=
    fun c hc ↦ (isPlain_of_isAlphanum (Or.inl (hsha1 path c (List.mem_of_mem_take hc)))).1
  refine NixString.survives_of_forall ?_
  rw [inputName, String.toList_ofList]
  split
  · exact List.forall_mem_append.2 ⟨hhead, by decide⟩
  · exact List.forall_mem_append.2 ⟨List.forall_mem_append.2 ⟨hhead,
      List.forall_mem_cons.2 ⟨hdash, isPlain_of_mem_inputSlug⟩⟩,
      List.forall_mem_cons.2 ⟨hdash, hdigest⟩⟩

/-! ### Generated files -/

/-- **The generated Nix says what was written**: a literal is the string that it was printed from
exactly if the string survives, and a file declares the inputs, or records the tree, exactly if all
of its strings survive. -/
theorem generatedNix_iff (paired : Bool) (check : List Char → Bool) :
    (∀ value : String, NixString.eval paired (nixString value) = some value.toList ↔
      NixString.Survives paired value.toList) ∧
    (∀ g inputs, graphInputs check g = .ok inputs →
      ∃ block, inputLines check g = .ok block ∧
        (readInputs paired block =
            some (inputs.map fun input ↦ (input.1.toList, input.2.toList)) ↔
          ∀ input ∈ inputs, NixString.Survives paired input.1.toList ∧
            NixString.Survives paired input.2.toList)) ∧
    (∀ target version g,
      readTree paired (writeTree target version g) = some (treeRecord target version g) ↔
        NixString.Survives paired target.toList ∧ NixString.Survives paired version.toList ∧
          NixString.Survives paired g.root.inputName.toList ∧
          ∀ entry ∈ g.submodules, NixString.Survives paired entry.path.toList ∧
            NixString.Survives paired entry.inputName.toList) := by
  refine ⟨fun value ↦ eval_nixString_iff, fun g inputs hinputs ↦ ?_,
    fun target version g ↦ readTree_iff⟩
  exact ⟨blockLines inputs, by rw [inputLines, hinputs]; rfl, readInputs_iff⟩

theorem generatedNix_iff_rootGraph : ∃ block, inputLines (fun _ ↦ true) rootGraph = .ok block ∧
    readInputs true block = some [("therock-root".toList, "github:ROCm/TheRock/f00d".toList)] := by
  obtain ⟨block, hblock, hiff⟩ := (generatedNix_iff true fun _ ↦ true).2.1 rootGraph
    [("therock-root", "github:ROCm/TheRock/f00d")] (by decide +kernel)
  exact ⟨block, hblock, hiff.2 (by decide +kernel)⟩

theorem not_generatedNix :
    NixString.eval true (nixString "é") ≠ some "é".toList ∧
      NixString.eval true (nixString "$\x7bx\x7d") ≠ some "$\x7bx\x7d".toList ∧
      readTree true (writeTree "gfx1151" "7.0" { rootGraph with
        submodules := [{ path := "é", url := "u", rev := "f00d", inputName := "i" }] }) =
          some ⟨"gfx1151".toList, "7.0".toList, "therock-root".toList,
            [("u00e9".toList, "i".toList)]⟩ := by
  decide +kernel

end TheRock
