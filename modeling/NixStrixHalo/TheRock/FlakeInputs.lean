import NixStrixHalo.Library.MarkedBlock
import NixStrixHalo.Library.NixString
import NixStrixHalo.Library.PythonText
import NixStrixHalo.Library.Result
import NixStrixHalo.Library.Url
import NixStrixHalo.TheRock.SourceTree

/-!
# The inputs of the flake

`update_flake_inputs` writes the repositories of the source graph between two marker lines of
`flake.nix`, and `write_tree` a file that refers to them. The last call decides what stands between
the markers, and the rest of the flake stays as it is (`flakeRewriting`).

## Why the markers are found again

What is written between them consists of lines of printable characters, since every character that
JSON writes is printable. So nothing in a graph can end a line or pass for a marker
(`not_mem_blockBody`), and a rewritten flake splits at the same markers into the same
lines around them (`updateFlakeInputs_flakeAfter`).

## How it ends early

A flake that does not have the markers in order and a repository that is none of GitHub are errors
(`FlakeError`), and then the file is left alone. A call with a graph that has been recorded before
writes the same text.
-/

namespace TheRock

open PythonText

/-- `nix_string`. -/
def nixString (value : String) : List Char := NixString.dumps value.toList

/-- `BEGIN_INPUTS`. -/
def beginInputs : List Char := "    # BEGIN generated TheRock source inputs".toList

/-- `END_INPUTS`. -/
def endInputs : List Char := "    # END generated TheRock source inputs".toList

/-- `SourceEntry`, with the name of its input. -/
structure InputEntry extends SourceEntry where
  inputName : String
  deriving DecidableEq

/-- `re.sub(r"[^A-Za-z0-9]+", "-", path)`; the flag says that a run has begun. -/
def dashRuns : Bool → List Char → List Char
  | _, [] => []
  | inRun, c :: cs =>
    if c.isAlphanum then c :: dashRuns false cs
    else if inRun then dashRuns true cs
    else '-' :: dashRuns true cs

/-- `value.rstrip(c)`. -/
def stripEnd (c : Char) (value : List Char) : List Char :=
  (value.reverse.dropWhile (· = c)).reverse

/-- `slug`. -/
def inputSlug (path : List Char) : List Char :=
  let slug := (stripEnd '-' ((dashRuns false path).dropWhile (· = '-'))).map Char.toLower
  if 64 < slug.length then stripEnd '-' (slug.take 64) else slug

/-- `input_name`; `sha1` is the hexadecimal digest. -/
def inputName (sha1 : String → List Char) (series target path : String) : String :=
  let head := "therock-src-".toList ++ (series.toList.map fun c ↦ if c = '.' then '-' else c) ++
    '-' :: target.toList
  String.ofList <|
    if path = "" then head ++ "-root".toList
    else head ++ '-' :: inputSlug path.toList ++ '-' :: (sha1 path).take 8

example : inputName (fun _ ↦ "0123456789".toList) "10.0" "gfx1151" "third-party/llvm_project" =
    "therock-src-10-0-gfx1151-third-party-llvm-project-01234567" := by decide +kernel

/-- What `build_graph` returns. -/
structure SourceGraph where
  root : InputEntry
  submodules : List InputEntry

/-- `[root] + submodules`. -/
def SourceGraph.entries (g : SourceGraph) : List InputEntry := g.root :: g.submodules

/-- How the rewriting ends early. -/
inductive FlakeError
  | valueError
  | runtimeError (message : String)
  deriving DecidableEq

/-! ### The lines -/

/-- `path.strip("/")`. -/
def stripSlashes (path : List Char) : List Char := stripEnd '/' (path.dropWhile (· = '/'))

/-- The owner and the name of a repository of GitHub. -/
def githubParts (parsed : Url.ParseResult) : Option (List Char × List Char) :=
  if (parsed.scheme = "http".toList ∨ parsed.scheme = "https".toList) ∧
      parsed.netloc = "github.com".toList then
    let path := stripSlashes parsed.path
    let path := (path.dropSuffix? ".git".toList).getD path
    match path.splitOn '/' with
    | [owner, repo] => some (owner, repo)
    | _ => none
  else none

/-- `input_url`. -/
def inputUrl (check : List Char → Bool) (url rev : String) : Except FlakeError String :=
  match Url.urlparse check [] url.toList with
  | none => .error .valueError
  | some parsed =>
    match githubParts parsed with
    | some (owner, repo) =>
      .ok ("github:" ++ String.ofList owner ++ "/" ++ String.ofList repo ++ "/" ++ rev)
    | none => .ok ("git+" ++ url ++ "?rev=" ++ rev ++ "&shallow=1")

/-- The inputs that a graph is recorded as, with their URLs. -/
def graphInputs (check : List Char → Bool) (g : SourceGraph) :
    Except FlakeError (List (String × String)) :=
  g.entries.mapM fun entry ↦ (inputUrl check entry.url entry.rev).map fun url ↦
    (entry.inputName, url)

/-- The lines of one input. -/
def entryLines : String × String → List (List Char)
  | (name, url) =>
    [List.replicate 4 ' ' ++ (nixString name ++ " = \x7b".toList),
      "      url = ".toList ++ (nixString url ++ ";".toList),
      "      flake = false;".toList, "    \x7d;".toList, []]

/-- The comment under the first marker. -/
def generatedComment : List Char :=
  "    # Generated by pkgs/therock/scripts/update-source-tree.py; do not edit by hand.".toList

/-- What stands between the markers. -/
def blockBody (inputs : List (String × String)) : List (List Char) :=
  generatedComment :: inputs.flatMap entryLines

/-- The block with its markers. -/
def blockLines (inputs : List (String × String)) : List (List Char) :=
  beginInputs :: (blockBody inputs ++ [endInputs])

/-- `input_lines`. -/
def inputLines (check : List Char → Bool) (g : SourceGraph) :
    Except FlakeError (List (List Char)) :=
  (graphInputs check g).map blockLines

/-- `update_flake_inputs`: the text that is written for the text that is read. -/
def updateFlakeInputs (check : List Char → Bool) (path : String) (text : List Char)
    (g : SourceGraph) : Except FlakeError (List Char) :=
  let lines := splitlines (universalNewlines text)
  match lines.idxOf? beginInputs, lines.idxOf? endInputs with
  | some first, some last =>
    if last ≤ first then
      .error (.runtimeError
        ("invalid generated TheRock source input marker order in " ++ path))
    else do
      let replacement ← inputLines check g
      return ['\n'].intercalate (lines.take first ++ replacement ++ lines.drop (last + 1)) ++ ['\n']
  | _, _ =>
    .error (.runtimeError ("missing generated TheRock source input markers in " ++ path))

/-- What the file holds after a call. -/
def flakeAfter (check : List Char → Bool) (path : String) (g : SourceGraph) (text : List Char) :
    List Char :=
  match updateFlakeInputs check path text g with
  | .ok text' => text'
  | .error _ => text

/-! ### The block -/

/-- A line with a string on it is printable if the rest of it is. -/
theorem isPrintable_stringLine {before after : List Char} {value : String}
    (hbefore : ∀ c ∈ before, NixString.isPrintable c)
    (hafter : ∀ c ∈ after, NixString.isPrintable c) :
    ∀ c ∈ before ++ (nixString value ++ after), NixString.isPrintable c :=
  List.forall_mem_append.2 ⟨hbefore, List.forall_mem_append.2
    ⟨fun _ hc ↦ NixString.isPrintable_of_mem_dumps hc, hafter⟩⟩

theorem isPrintable_of_mem_entryLines {input : String × String} {line : List Char}
    (hline : line ∈ entryLines input) : ∀ c ∈ line, NixString.isPrintable c := by
  simp only [entryLines, List.mem_cons, List.not_mem_nil, or_false] at hline
  rcases hline with rfl | rfl | rfl | rfl | rfl
  · exact isPrintable_stringLine (by decide) (by decide)
  · exact isPrintable_stringLine (by decide) (by decide)
  · decide
  · decide
  · decide

/-- Every character of the block is printable. -/
theorem isPrintable_of_mem_blockLines {inputs : List (String × String)} {line : List Char}
    (hline : line ∈ blockLines inputs) : ∀ c ∈ line, NixString.isPrintable c := by
  rcases List.mem_cons.1 hline with rfl | hline
  · decide
  rcases List.mem_append.1 hline with hline | hline
  · rcases List.mem_cons.1 hline with rfl | hline
    · decide
    · obtain ⟨input, -, hline⟩ := List.mem_flatMap.1 hline
      exact isPrintable_of_mem_entryLines hline
  · obtain rfl := List.mem_singleton.1 hline
    decide

theorem isLineBreak_of_isPrintable {c : Char} (h : NixString.isPrintable c) :
    isLineBreak c = false := by
  rw [NixString.isPrintable, decide_eq_true_eq] at h
  rw [isLineBreak, decide_eq_false_iff_not]
  simp only [List.mem_cons, List.not_mem_nil, or_false]
  omega

theorem not_mem_entryLines {marker : List Char} (hmark : marker[4]? = some '#')
    (input : String × String) : marker ∉ entryLines input := by
  intro h
  simp only [entryLines, List.mem_cons, List.not_mem_nil, or_false] at h
  -- the fifth character is the quotation mark of the name, or one of the indentation
  rcases h with h | h | h | h | h
  · rw [h, List.getElem?_append_right (by decide)] at hmark
    exact absurd (Option.some.inj hmark) (by decide)
  · rw [h, List.getElem?_append_left (by decide)] at hmark
    exact absurd hmark (by decide)
  · exact absurd (h ▸ hmark) (by decide)
  · exact absurd (h ▸ hmark) (by decide)
  · exact absurd (h ▸ hmark) (by decide)

/-- No line of an input is a comment. -/
theorem not_mem_blockBody {marker : List Char} (hmark : marker[4]? = some '#')
    (hne : marker ≠ generatedComment) (inputs : List (String × String)) :
    marker ∉ blockBody inputs := by
  refine List.not_mem_cons_of_ne_of_not_mem hne fun h ↦ ?_
  obtain ⟨input, -, h⟩ := List.mem_flatMap.1 h
  exact not_mem_entryLines hmark input h

theorem beginInputs_not_mem_blockBody (inputs : List (String × String)) :
    beginInputs ∉ blockBody inputs :=
  not_mem_blockBody (by decide) (by decide) inputs

theorem endInputs_not_mem_blockBody (inputs : List (String × String)) :
    endInputs ∉ blockBody inputs :=
  not_mem_blockBody (by decide) (by decide) inputs

/-! ### The rewriting -/

/-- The markers stand in the text in order, and these lines stand before, between and after them. -/
abbrev MarkersSplit (text : List Char) (before between after : List (List Char)) : Prop :=
  MarkedBlock.Splits beginInputs endInputs (splitlines text) before between after

section

variable {check : List Char → Bool} {path : String} {text : List Char}
  {before between after : List (List Char)}

theorem updateFlakeInputs_of_split (h : MarkersSplit text before between after)
    (g : SourceGraph) :
    updateFlakeInputs check path text g =
      (graphInputs check g).map fun inputs ↦ unlines (before ++ blockLines inputs ++ after) := by
  have hlt : ¬before.length + (between.length + 1) ≤ before.length := by omega
  rw [updateFlakeInputs, splitlines_universalNewlines, h.idxOf?_begin, h.idxOf?_end]
  dsimp only
  rw [if_neg hlt, h.take_eq, h.drop_eq, inputLines]
  rcases graphInputs check g with error | inputs
  · rfl
  · have hne : before ++ blockLines inputs ++ after ≠ [] := by simp [blockLines]
    exact congrArg Except.ok (intercalate_append_newline hne)

/-- Without the markers in order, nothing is written. -/
theorem updateFlakeInputs_of_not_split
    (h : ¬∃ before between after, MarkersSplit text before between after) (g : SourceGraph) :
    ∃ message, updateFlakeInputs check path text g = .error (.runtimeError message) := by
  rw [updateFlakeInputs, splitlines_universalNewlines]
  rcases hbegin : (splitlines text).idxOf? beginInputs with _ | first
  · exact ⟨_, rfl⟩
  rcases hend : (splitlines text).idxOf? endInputs with _ | last
  · exact ⟨_, rfl⟩
  dsimp only
  by_cases hle : last ≤ first
  · rw [if_pos hle]
    exact ⟨_, rfl⟩
  · exact absurd (MarkedBlock.exists_splits hbegin hend (Nat.lt_of_not_le hle)) h

/-- The text that is written has the same lines around the markers. -/
theorem splitlines_block (h : MarkersSplit text before between after)
    (inputs : List (String × String)) :
    MarkersSplit (unlines (before ++ blockLines inputs ++ after)) before (blockBody inputs)
      after := by
  have hline : ∀ line ∈ before ++ blockLines inputs ++ after, ∀ c ∈ line,
      isLineBreak c = false := by
    intro line hline
    have hkept : ∀ line, line ∈ before ∨ line ∈ after → line ∈ splitlines text := by
      rw [h.eq]
      rintro line (hline | hline)
      · exact List.mem_append_left _ hline
      · simp [hline]
    rcases List.mem_append.1 hline with hline | hline
    · rcases List.mem_append.1 hline with hline | hline
      · exact isLineBreak_of_mem_splitlines (hkept line (Or.inl hline))
      · exact fun c hc ↦
          isLineBreak_of_isPrintable (isPrintable_of_mem_blockLines hline c hc)
    · exact isLineBreak_of_mem_splitlines (hkept line (Or.inr hline))
  rw [MarkersSplit, splitlines_unlines hline]
  exact MarkedBlock.splits_block h (endInputs_not_mem_blockBody inputs)

theorem flakeAfter_of_split (h : MarkersSplit text before between after) {g : SourceGraph}
    {inputs : List (String × String)} (hinputs : graphInputs check g = .ok inputs) :
    flakeAfter check path g text = unlines (before ++ blockLines inputs ++ after) := by
  rw [flakeAfter, updateFlakeInputs_of_split h, hinputs]
  rfl

theorem flakeAfter_of_error {g : SourceGraph} {error : FlakeError}
    (h : updateFlakeInputs check path text g = .error error) :
    flakeAfter check path g text = text := by
  rw [flakeAfter, h]

/-- **The last writer wins**: a call does what it would have done before any other call. -/
theorem updateFlakeInputs_flakeAfter (g₁ g₂ : SourceGraph) :
    updateFlakeInputs check path (flakeAfter check path g₁ text) g₂ =
      updateFlakeInputs check path text g₂ := by
  -- with the markers in order the first call replaces the block that the second one replaces
  by_cases h : ∃ before between after, MarkersSplit text before between after
  · obtain ⟨before, between, after, h⟩ := h
    rcases hinputs : graphInputs check g₁ with error | inputs
    · have herror : updateFlakeInputs check path text g₁ = .error error := by
        rw [updateFlakeInputs_of_split h, hinputs]
        rfl
      rw [flakeAfter_of_error herror]
    · rw [flakeAfter_of_split h hinputs, updateFlakeInputs_of_split (splitlines_block h inputs),
        updateFlakeInputs_of_split h]
  · obtain ⟨message, herror⟩ : ∃ message,
        updateFlakeInputs check path text g₁ = .error (.runtimeError message) :=
      updateFlakeInputs_of_not_split h g₁
    rw [flakeAfter_of_error herror]

/-- Calling again changes nothing. -/
theorem flakeAfter_flakeAfter (g : SourceGraph) :
    flakeAfter check path g (flakeAfter check path g text) = flakeAfter check path g text := by
  rcases hupdate : updateFlakeInputs check path text g with error | text'
  · rw [flakeAfter_of_error hupdate, flakeAfter_of_error hupdate]
  · have hagain : updateFlakeInputs check path (flakeAfter check path g text) g = .ok text' := by
      rw [updateFlakeInputs_flakeAfter, hupdate]
    rw [flakeAfter, hagain, flakeAfter, hupdate]

theorem unlines_of_split (hbreaks : ∀ c ∈ text, isLineBreak c → c = '\n')
    (hend : text.getLast? = some '\n') (h : MarkersSplit text before between after) :
    text = unlines (before ++ beginInputs :: (between ++ endInputs :: after)) := by
  have hlast : text.getLast?.all (· = '\n') := by rw [hend]; rfl
  rw [← h.eq, unlines_splitlines hbreaks hlast]

/-- The inputs of a graph are computed if every URL can be split. -/
theorem exists_graphInputs {g : SourceGraph}
    (h : ∀ entry ∈ g.entries, (Url.urlparse check [] entry.url.toList).isSome) :
    ∃ inputs, graphInputs check g = .ok inputs := by
  refine Result.exists_mapM_eq_ok fun entry hentry ↦ ?_
  obtain ⟨parsed, hparsed⟩ := Option.isSome_iff_exists.1 (h entry hentry)
  rw [inputUrl, hparsed]
  dsimp only
  split
  · exact ⟨_, rfl⟩
  · exact ⟨_, rfl⟩

end

/-- **Rewriting the flake.** A call does what it would have done without the calls before it, and
calling again changes nothing. In a flake whose only line breaks are newlines, the lines before the
first marker and after the second one are kept, and between them stand the inputs of the graph;
without the markers in order the file is kept. -/
theorem flakeRewriting (check : List Char → Bool) (path : String) (text : List Char) :
    (∀ g₁ g₂, updateFlakeInputs check path (flakeAfter check path g₁ text) g₂ =
      updateFlakeInputs check path text g₂) ∧
    (∀ g, flakeAfter check path g (flakeAfter check path g text) =
      flakeAfter check path g text) ∧
    (∀ before between after, (∀ c ∈ text, isLineBreak c → c = '\n') → text.getLast? = some '\n' →
      MarkersSplit text before between after →
        text = unlines (before ++ beginInputs :: (between ++ endInputs :: after)) ∧
        ∀ g : SourceGraph,
          (∀ entry ∈ g.entries, (Url.urlparse check [] entry.url.toList).isSome) →
            ∃ inputs, graphInputs check g = .ok inputs ∧
              beginInputs ∉ blockBody inputs ∧ endInputs ∉ blockBody inputs ∧
                updateFlakeInputs check path text g = .ok (unlines
                  (before ++ beginInputs :: (blockBody inputs ++ endInputs :: after)))) ∧
    ((¬∃ before between after, MarkersSplit text before between after) → ∀ g,
      (∃ message, updateFlakeInputs check path text g = .error (.runtimeError message)) ∧
        flakeAfter check path g text = text) := by
  refine ⟨updateFlakeInputs_flakeAfter, flakeAfter_flakeAfter, ?_, fun hnone g ↦ ?_⟩
  · intro before between after hbreaks hend hsplit
    refine ⟨unlines_of_split hbreaks hend hsplit, fun g hurls ↦ ?_⟩
    obtain ⟨inputs, hinputs⟩ := exists_graphInputs hurls
    refine ⟨inputs, hinputs, beginInputs_not_mem_blockBody inputs,
      endInputs_not_mem_blockBody inputs, ?_⟩
    rw [updateFlakeInputs_of_split hsplit, hinputs]
    simp [blockLines, Except.map]
  · obtain ⟨message, herror⟩ := updateFlakeInputs_of_not_split hnone g
    exact ⟨⟨message, herror⟩, flakeAfter_of_error herror⟩

/-- A flake that holds nothing but the markers. -/
def emptyFlake : List Char := unlines [['{'], beginInputs, endInputs, ['}']]

/-- A graph of one repository. -/
def rootGraph : SourceGraph where
  root := { path := "", url := "https://github.com/ROCm/TheRock.git", rev := "f00d",
            inputName := "therock-root" }
  submodules := []

theorem flakeRewriting_emptyFlake :
    ∃ inputs, graphInputs (fun _ ↦ true) rootGraph = .ok inputs ∧
      beginInputs ∉ blockBody inputs ∧ endInputs ∉ blockBody inputs ∧
        updateFlakeInputs (fun _ ↦ true) "flake.nix" emptyFlake rootGraph = .ok (unlines
          ([['{']] ++ beginInputs :: (blockBody inputs ++ endInputs :: [['}']]))) :=
  ((flakeRewriting (fun _ ↦ true) "flake.nix" emptyFlake).2.2.1 [['{']] [] [['}']]
    (by decide +kernel) (by decide +kernel)
    ⟨by decide +kernel, by decide +kernel, by decide +kernel⟩).2 rootGraph (by decide +kernel)

example : inputUrl (fun _ ↦ true) "https://github.com/ROCm/TheRock.git" "f00d" =
    .ok "github:ROCm/TheRock/f00d" := by decide +kernel

end TheRock
