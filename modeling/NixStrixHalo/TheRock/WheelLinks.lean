import NixStrixHalo.Library.Url
import NixStrixHalo.TheRock.PythonWheels

/-!
# The links of a package index

`parse_distribution` reads a distribution from a link: it splits the URL, unquotes its path and
takes the file name apart from the right. It inverts every rendering of a wheel or of an sdist as a
link (`parseLink_rendered`): the names of files keep projects, versions and tags apart, whichever
of their characters are percent-encoded and whatever stands around them in the link.

## File names

An `Artifact` is what a file is named after. The parts of a name are joined by hyphens, and neither
versions nor tags contain one, so a wheel is split at the last four of them and an sdist at the last
one (`parseDistribution_filename`).

## Links

A `Link` is a directory, the name with any of its characters escaped, and a query or a fragment. The
directory may be a URL of its own or relative to the page, and `Url` does the splitting, the joining
and the unquoting.

## ROCm versions

A version carries a ROCm version at its end, right after its public part or behind a local one
(`CarriesRocm`), and the search in the text finds that one and nothing before it.
-/

namespace TheRock

/-- How reading a link ends early. -/
inductive LinkError
  | valueError
  deriving DecidableEq

/-- `Path(path).name`: the last component that is neither empty nor a dot. -/
def pathName (path : List Char) : List Char :=
  ((path.splitOn '/').filter fun c ↦ c ≠ [] ∧ c ≠ ['.']).getLastD []

/-- `parse_distribution`. -/
def parseLink (check : List Char → Bool) (project href indexUrl : String) :
    Except LinkError (Option Distribution) :=
  match Url.urlsplit check [] href.toList with
  | none => .error .valueError
  | some split =>
    let path := Url.unquote split.path
    if ".whl".toList <:+ path ∨ ".tar.gz".toList <:+ path then
      match parseDistribution project (String.ofList (pathName path)) "" with
      | none => .ok none
      | some dist =>
        match Url.urljoin check indexUrl.toList href.toList with
        | none => .error .valueError
        | some url => .ok (some { dist with url := String.ofList url })
    else .ok none

/-! ### Rendering -/

/-- The characters of a project name. -/
def isProjectChar (c : Char) : Bool := c.isAlphanum || c == '-' || c == '_' || c == '.'

/-- The characters of versions and tags. -/
def isTagChar (c : Char) : Bool :=
  c.isAlphanum || c == '.' || c == '_' || c == '+' || c == '!'

/-- The name of a project. -/
structure ProjectName where
  text : String
  isProjectChar_of_mem : ∀ c ∈ text.toList, isProjectChar c

/-- A version or a tag. -/
structure VersionText where
  text : String
  isTagChar_of_mem : ∀ c ∈ text.toList, isTagChar c

/-- What a file of an index is named after. -/
inductive Artifact
  | wheel (name : ProjectName) (version pythonTag abiTag platformTag : VersionText)
  | sdist (name : ProjectName) (version : VersionText)

namespace Artifact

/-- The name of the project, as the file spells it. -/
def name : Artifact → ProjectName
  | wheel name _ _ _ _ => name
  | sdist name _ => name

def version : Artifact → VersionText
  | wheel _ version _ _ _ => version
  | sdist _ version => version

def kind : Artifact → Kind
  | wheel .. => .wheel
  | sdist .. => .sdist

/-- The Python tag, the ABI tag and the platform tag. -/
def tags : Artifact → String × String × String
  | wheel _ _ pythonTag abiTag platformTag => (pythonTag.text, abiTag.text, platformTag.text)
  | sdist .. => ("source", "source", "source")

/-- `name-version-python-abi-platform.whl` or `name-version.tar.gz`. -/
def filename : Artifact → List Char
  | wheel name version pythonTag abiTag platformTag =>
    ['-'].intercalate [name.text.toList, version.text.toList, pythonTag.text.toList,
      abiTag.text.toList, platformTag.text.toList] ++ ".whl".toList
  | sdist name version =>
    ['-'].intercalate [name.text.toList, version.text.toList] ++ ".tar.gz".toList

/-- What is read from a link to the file, for a project. -/
def distribution (a : Artifact) (project url : String) : Distribution where
  project := project
  filename := String.ofList a.filename
  url := url
  packageVersion := a.version.text
  rocmVersion := rocmMatch project a.version.text
  pythonTag := a.tags.1
  abiTag := a.tags.2.1
  platformTag := a.tags.2.2
  kind := a.kind

end Artifact

/-! ### File names -/

/-- Splitting from the right: only the first part may contain the separator. -/
theorem splitOn_intercalate_cons {c : Char} {parts : List (List Char)}
    (h : ∀ part ∈ parts, c ∉ part) (first : List Char) :
    ([c].intercalate (first :: parts)).splitOn c = first.splitOn c ++ parts := by
  induction parts generalizing first with
  | nil => rw [List.intercalate_singleton, List.append_nil]
  | cons part parts ih =>
    obtain ⟨hpart, hparts⟩ := List.forall_mem_cons.1 h
    rw [List.intercalate_cons_cons, List.append_assoc, List.singleton_append,
      List.splitOn_append_cons_self, ih hparts, List.splitOn_eq_singleton hpart,
      List.singleton_append]

theorem VersionText.dash_not_mem (v : VersionText) : '-' ∉ v.text.toList :=
  fun h ↦ absurd (v.isTagChar_of_mem '-' h) (by decide)

theorem dropSuffix?_append (s t : List Char) : (s ++ t).dropSuffix? t = some s :=
  List.dropSuffix?_eq_some_iff.2 ⟨t, rfl, beq_self_eq_true t⟩

theorem dropSuffix?_whl_targz (s : List Char) :
    (s ++ ".tar.gz".toList).dropSuffix? ".whl".toList = none := by
  rcases h : (s ++ ".tar.gz".toList).dropSuffix? ".whl".toList with _ | p
  · rfl
  · obtain ⟨_, heq, hbeq⟩ := List.dropSuffix?_eq_some_iff.1 h
    obtain rfl := eq_of_beq hbeq
    -- the two suffixes end with different letters
    have hlast := congrArg List.getLast? heq
    have hz : ".tar.gz".toList.getLast? = some 'z' := by decide
    have hl : ".whl".toList.getLast? = some 'l' := by decide
    rw [List.getLast?_append, List.getLast?_append, hz, hl] at hlast
    exact absurd (Option.some.inj hlast) (by decide)

theorem guard_bind {p : Prop} [Decidable p] {α : Type} (x : Option α) :
    (guard p >>= fun _ ↦ x) = if p then x else none := by
  by_cases hp : p
  · rw [if_pos hp, guard, if_pos hp]
    rfl
  · rw [if_neg hp, guard, if_neg hp]
    rfl

/-- **A file name is taken apart as it was put together.** -/
theorem parseDistribution_filename (a : Artifact) (project url : String) :
    parseDistribution project (String.ofList a.filename) url =
      if normalizeProject a.name.text = normalizeProject project then
        some (a.distribution project url)
      else none := by
  -- the name may have dashes of its own, so the parts are counted from the right
  rcases a with ⟨name, version, pythonTag, abiTag, platformTag⟩ | ⟨name, version⟩
  · have hsplit : (['-'].intercalate [name.text.toList, version.text.toList,
        pythonTag.text.toList, abiTag.text.toList, platformTag.text.toList]).splitOn '-' =
        name.text.toList.splitOn '-' ++ [version.text.toList, pythonTag.text.toList,
          abiTag.text.toList, platformTag.text.toList] :=
      splitOn_intercalate_cons (by simp [VersionText.dash_not_mem]) _
    have hpos : 0 < (name.text.toList.splitOn '-').length :=
      List.length_pos_iff.2 (List.splitOn_ne_nil '-' _)
    have hlength : ∀ a b c d : List Char, (name.text.toList.splitOn '-' ++ [a, b, c, d]).length =
        (name.text.toList.splitOn '-').length + 4 := fun _ _ _ _ ↦ List.length_append
    rw [parseDistribution, String.toList_ofList, Artifact.filename, dropSuffix?_append]
    dsimp only
    rw [hsplit, hlength, Nat.add_sub_cancel, List.take_left, List.drop_left,
      List.intercalate_splitOn, guard_bind, if_pos (by omega), List.map_cons, List.map_cons,
      List.map_cons, List.map_cons, List.map_nil]
    dsimp only
    rw [guard_bind]
    simp only [String.ofList_toList]
    rfl
  · have hsplit : (['-'].intercalate [name.text.toList, version.text.toList]).splitOn '-' =
        name.text.toList.splitOn '-' ++ [version.text.toList] :=
      splitOn_intercalate_cons (by simp [VersionText.dash_not_mem]) _
    have hpos : 0 < (name.text.toList.splitOn '-').length :=
      List.length_pos_iff.2 (List.splitOn_ne_nil '-' _)
    rw [parseDistribution, String.toList_ofList, Artifact.filename, dropSuffix?_whl_targz,
      dropSuffix?_append]
    dsimp only
    rw [hsplit, List.length_append, List.length_singleton, guard_bind, if_pos (by omega),
      List.dropLast_concat, List.getLastD_concat, List.intercalate_splitOn, guard_bind]
    simp only [String.ofList_toList]
    rfl

/-! ### ROCm versions -/

/-- `rocm`. -/
def rocmText : List Char := "rocm".toList

/-- Digits, a dot and at least one more character, without `-` and `+`. -/
structure IsRocmVersion (r : List Char) : Prop where
  exists_parts : ∃ major minor, r = major ++ '.' :: minor ∧ major ≠ [] ∧
    (∀ c ∈ major, c.isDigit) ∧ minor ≠ []
  dash_not_mem : '-' ∉ r
  plus_not_mem : '+' ∉ r

/-- A version that ends with a ROCm version: right after its public part, or behind a local part. -/
inductive CarriesRocm : List Char → List Char → Prop
  | direct {pub r : List Char} (hpub : ¬rocmText <:+: pub) (hr : IsRocmVersion r) :
    CarriesRocm (pub ++ '+' :: (rocmText ++ r)) r
  | behindLocal {pub loc r : List Char} (hpub : ¬rocmText <:+: pub) (hloc : ¬rocmText <:+: loc)
    (hr : IsRocmVersion r) :
    CarriesRocm (pub ++ '+' :: (loc ++ '.' :: (rocmText ++ r))) r

theorem matchRocmVersion_self {r : List Char} (h : IsRocmVersion r) :
    matchRocmVersion r = some (r, []) := by
  obtain ⟨major, minor, rfl, hmajor, hdigits, hminor⟩ := h.exists_parts
  have hall : ∀ c ∈ minor, decide (c ≠ '-' ∧ c ≠ '+') = true := by
    intro c hc
    refine decide_eq_true ⟨?_, ?_⟩
    · rintro rfl
      exact h.dash_not_mem (by simp [hc])
    · rintro rfl
      exact h.plus_not_mem (by simp [hc])
  rw [matchRocmVersion, PythonText.span_append hdigits rfl]
  simp only [PythonText.span_of_forall hall]
  exact if_neg (not_or_intro hmajor hminor)

/-- A text without `rocm` does not begin it for what follows. -/
theorem rocmText_not_prefix {s : List Char} (hs : ¬rocmText <+: s) {c : Char}
    (hc : c ∉ rocmText) (rest : List Char) : ¬rocmText <+: s ++ c :: rest := by
  intro h
  rcases List.prefix_or_prefix_of_prefix h (List.prefix_append s _) with hpre | ⟨t, ht⟩
  · exact hs hpre
  · rcases t with _ | ⟨d, t⟩
    · rw [List.append_nil] at ht
      exact hs (ht ▸ List.prefix_rfl)
    · -- `rocm` reaches over the end of `s`, so it has the character that follows
      rw [← ht, List.prefix_append_right_inj] at h
      obtain ⟨rfl, -⟩ := List.cons_prefix_cons.1 h
      exact hc (by rw [← ht]; simp)

theorem searchRocmTag_cons_of_not_prefix {c : Char} {cs : List Char} (h : ¬rocmText <+: cs) :
    searchRocmTag (c :: cs) = searchRocmTag cs := by
  have hdrop : cs.dropPrefix? "rocm".toList = none := by
    rcases hdrop : cs.dropPrefix? "rocm".toList with _ | rest
    · rfl
    · obtain ⟨_, heq, hbeq⟩ := List.dropPrefix?_eq_some_iff.1 hdrop
      obtain rfl := eq_of_beq hbeq
      exact absurd ⟨rest, heq.symm⟩ h
  rw [searchRocmTag, hdrop, ite_self]
  rfl

/-- The search passes over a text without `rocm`. -/
theorem searchRocmTag_append {s : List Char} (hs : ¬rocmText <:+: s) {c : Char}
    (hc : c ∉ rocmText) (rest : List Char) :
    searchRocmTag (s ++ c :: rest) = searchRocmTag (c :: rest) := by
  induction s with
  | nil => rfl
  | cons d s ih =>
    have hs' : ¬rocmText <:+: s := fun h ↦ hs (List.infix_cons h)
    have hpre : ¬rocmText <+: s ++ c :: rest :=
      rocmText_not_prefix (fun h ↦ hs' h.isInfix) hc rest
    rw [List.cons_append, searchRocmTag_cons_of_not_prefix hpre, ih hs']

theorem searchRocmTag_tag {c : Char} (hc : c = '+' ∨ c = '.' ∨ c = '-') {r : List Char}
    (hr : IsRocmVersion r) : searchRocmTag (c :: (rocmText ++ r)) = some r := by
  have hdrop : (rocmText ++ r).dropPrefix? "rocm".toList = some r :=
    List.dropPrefix?_append_of_beq _ (beq_self_eq_true _)
  rw [searchRocmTag, if_pos hc, hdrop, Option.bind_some, matchRocmVersion_self hr]

/-- **The ROCm version that a version carries is found.** -/
theorem CarriesRocm.rocmMatch_eq {version : String} {r : List Char}
    (h : CarriesRocm version.toList r) (project : String) :
    rocmMatch project version = some (String.ofList r) := by
  have hplus : '+' ∉ rocmText := by decide
  have hdot : '.' ∉ rocmText := by decide
  have hsearch : searchRocmTag version.toList = some r := by
    generalize version.toList = text at h
    rcases h with ⟨hpub, hr⟩ | @⟨pub, loc, _, hpub, hloc, hr⟩
    · rw [searchRocmTag_append hpub hplus, searchRocmTag_tag (Or.inl rfl) hr]
    · -- the plus sign is passed over, for no `rocm` begins the local part
      have hpre : ¬rocmText <+: [] ++ '+' :: loc := rocmText_not_prefix (by decide) hplus loc
      have hlocal : ¬rocmText <:+: '+' :: loc :=
        fun h ↦ (List.infix_cons_iff.1 h).elim hpre hloc
      rw [searchRocmTag_append hpub hplus, ← List.cons_append, searchRocmTag_append hlocal hdot,
        searchRocmTag_tag (Or.inr (Or.inl rfl)) hr]
  rw [rocmMatch, hsearch]
  rfl

/-! ### Names of projects -/

/-- The same letter up to case, or two characters that names are not told apart by. -/
def SameLetter (c d : Char) : Prop :=
  c.toLower = d.toLower ∨ (c = '-' ∨ c = '_') ∧ (d = '-' ∨ d = '_')

/-- The names differ only in case, and in `-` and `_`. -/
def SpelledLike (name project : String) : Prop :=
  List.Forall₂ SameLetter name.toList project.toList

theorem eq_underscore_of_toLower {c : Char} (h : c.toLower = '_') : c = '_' := by
  unfold Char.toLower at h
  split at h
  next hupper =>
    have hval := congrArg (fun c : Char ↦ c.val.toNat) h
    simp only [ge_iff_le, UInt32.le_iff_toNat_le] at hupper
    simp only [UInt32.toNat_add] at hval
    have hA : 'A'.val.toNat = 65 := rfl
    have hZ : 'Z'.val.toNat = 90 := rfl
    have hshift : ('a'.val - 'A'.val).toNat = 32 := rfl
    have hunderscore : '_'.val.toNat = 95 := rfl
    omega
  next => exact h

/-- The spellings of a project have one normal form. -/
theorem SpelledLike.normalizeProject_eq {name project : String} (h : SpelledLike name project) :
    normalizeProject name = normalizeProject project := by
  have hletter : ∀ c d, SameLetter c d →
      (if c = '_' then '-' else c).toLower = (if d = '_' then '-' else d).toLower := by
    rintro c d (hcd | ⟨hc, hd⟩)
    · by_cases hc : c = '_'
      · subst hc
        obtain rfl := eq_underscore_of_toLower hcd.symm
        rfl
      · have hd : d ≠ '_' := by
          rintro rfl
          exact hc (eq_underscore_of_toLower hcd)
        rw [if_neg hc, if_neg hd, hcd]
    · rcases hc with rfl | rfl <;> rcases hd with rfl | rfl <;> rfl
  rw [normalizeProject, normalizeProject]
  refine congrArg String.ofList ?_
  rw [SpelledLike] at h
  generalize name.toList = s, project.toList = t at h
  induction h with
  | nil => rfl
  | cons hcd _ ih => exact congrArg₂ List.cons (hletter _ _ hcd) ih

/-! ### Links -/

/-- The characters of file names. -/
def isFileChar (c : Char) : Bool :=
  c.isAlphanum || c == '-' || c == '_' || c == '.' || c == '+' || c == '!'

theorem isFileChar_of_isProjectChar {c : Char} (h : isProjectChar c) : isFileChar c := by
  simp only [isProjectChar, isFileChar, Bool.or_eq_true] at h ⊢
  exact Or.inl (Or.inl h)

theorem isFileChar_of_isTagChar {c : Char} (h : isTagChar c) : isFileChar c := by
  simp only [isTagChar, isFileChar, Bool.or_eq_true] at h ⊢
  tauto

theorem isFileChar_range {c : Char} (h : isFileChar c) :
    c ∈ ['-', '_', '.', '+', '!'] ∨ 48 ≤ c.toNat ∧ c.toNat ≤ 57 ∨
      65 ≤ c.toNat ∧ c.toNat < 128 := by
  simp only [isFileChar, Bool.or_eq_true, beq_iff_eq] at h
  rcases h with ((((h | h) | h) | h) | h) | h
  · exact Or.inr (PythonText.toNat_of_isAlphanum h)
  · simp [h]
  · simp [h]
  · simp [h]
  · simp [h]
  · simp [h]

theorem isSegmentChar_of_isFileChar {c : Char} (h : isFileChar c) : Url.isSegmentChar c := by
  rcases isFileChar_range h with hmem | hrange
  · have hall : ∀ c ∈ ['-', '_', '.', '+', '!'], Url.isSegmentChar c := by decide
    exact hall c hmem
  · exact Url.isSegmentChar_of_range (hrange.imp_right And.left)

/-- A file name needs no quoting but what the link does. -/
theorem isFileChar_of_mem_filename (a : Artifact) : ∀ c ∈ a.filename, isFileChar c := by
  have hname (name : ProjectName) : ∀ c ∈ name.text.toList, isFileChar c :=
    fun c hc ↦ isFileChar_of_isProjectChar (name.isProjectChar_of_mem c hc)
  have hversion (v : VersionText) : ∀ c ∈ v.text.toList, isFileChar c :=
    fun c hc ↦ isFileChar_of_isTagChar (v.isTagChar_of_mem c hc)
  have hdash : ∀ c ∈ ['-'], isFileChar c := by decide
  have hjoin : ∀ parts : List (List Char), (∀ part ∈ parts, ∀ c ∈ part, isFileChar c) →
      ∀ c ∈ ['-'].intercalate parts, isFileChar c := by
    intro parts h
    induction parts with
    | nil => exact fun c hc ↦ absurd hc List.not_mem_nil
    | cons part parts ih =>
      obtain ⟨hpart, hparts⟩ := List.forall_mem_cons.1 h
      rcases parts with _ | ⟨next, parts⟩
      · rwa [List.intercalate_singleton]
      · rw [List.intercalate_cons_cons]
        exact List.forall_mem_append.2 ⟨List.forall_mem_append.2 ⟨hpart, hdash⟩, ih hparts⟩
  rcases a with ⟨name, version, pythonTag, abiTag, platformTag⟩ | ⟨name, version⟩
  · refine List.forall_mem_append.2 ⟨hjoin _ ?_, by decide⟩
    simp only [List.forall_mem_cons]
    exact ⟨hname _, hversion _, hversion _, hversion _, hversion _, fun _ h ↦ absurd h (by simp)⟩
  · refine List.forall_mem_append.2 ⟨hjoin _ ?_, by decide⟩
    simp only [List.forall_mem_cons]
    exact ⟨hname _, hversion _, fun _ h ↦ absurd h (by simp)⟩

theorem suffix_filename (a : Artifact) :
    ".whl".toList <:+ a.filename ∨ ".tar.gz".toList <:+ a.filename := by
  rcases a with _ | _
  · exact Or.inl (List.suffix_append _ _)
  · exact Or.inr (List.suffix_append _ _)

/-- A file name is neither empty nor a dot. -/
theorem filename_ne (a : Artifact) : a.filename ≠ [] ∧ a.filename ≠ ['.'] := by
  have hsuffix := suffix_filename a
  refine ⟨fun h ↦ ?_, fun h ↦ ?_⟩
  · rw [h] at hsuffix
    exact absurd hsuffix (by decide)
  · rw [h] at hsuffix
    exact absurd hsuffix (by decide)

/-- The name of a file in a directory. -/
theorem pathName_append {folder name : List Char} (hfolder : Url.EndsSlash folder)
    (hslash : '/' ∉ name) (hne : name ≠ [] ∧ name ≠ ['.']) : pathName (folder ++ name) = name := by
  have hkeep : ([name].filter fun c ↦ c ≠ [] ∧ c ≠ ['.']) = [name] := by simp [hne]
  rcases List.eq_nil_or_concat folder with rfl | ⟨s, c, rfl⟩
  · rw [List.nil_append, pathName, List.splitOn_eq_singleton hslash, hkeep]
    rfl
  · obtain rfl : c = '/' := hfolder c (by simp)
    rw [List.concat_eq_append, List.append_assoc, List.singleton_append, pathName,
      List.splitOn_append_cons_self, List.splitOn_eq_singleton hslash, List.filter_append, hkeep,
      List.getLastD_concat]

/-- A link to a file: a directory, the name with any of its characters percent-encoded, and a query
or a fragment. -/
structure Link (check : List Char → Bool) (a : Artifact) where
  directory : Url.Directory check
  encoded : List Char
  encodes : Url.Encodes encoded a.filename
  suffix : List Char
  isSuffix : Url.IsSuffix suffix

section

variable {check : List Char → Bool} {a : Artifact}

/-- The text of the link. -/
def Link.text (link : Link check a) : List Char :=
  link.directory.text ++ (link.encoded ++ link.suffix)

/-- The path of a link ends with the encoded file name. -/
theorem Link.urlsplit_text (link : Link check a) (default : List Char) :
    ∃ s folder, Url.urlsplit check default link.text = some s ∧
      s.path = folder ++ link.encoded ∧ Url.EndsSlash folder :=
  Url.urlsplit_directory link.directory (link.encodes.ne_nil (filename_ne a).1)
    (link.encodes.isSegmentChar fun c hc ↦
      isSegmentChar_of_isFileChar (isFileChar_of_mem_filename a c hc)) link.isSuffix default

/-- The name at the end of the unquoted path is the name of the file. -/
theorem Link.unquote_path (link : Link check a) {folder : List Char}
    (hfolder : Url.EndsSlash folder) : ∃ folder', Url.EndsSlash folder' ∧
      Url.unquote (folder ++ link.encoded) = folder' ++ a.filename := by
  have hascii : ∀ c ∈ a.filename, c.toNat < 128 := by
    intro c hc
    rcases isFileChar_range (isFileChar_of_mem_filename a c hc) with hmem | hrange
    · have hall : ∀ c ∈ ['-', '_', '.', '+', '!'], c.toNat < 128 := by decide
      exact hall c hmem
    · omega
  obtain ⟨folder', heq, hfolder'⟩ := Url.exists_unquote_append hfolder link.encoded
  rw [Url.unquote_encodes link.encodes hascii] at heq
  exact ⟨folder', hfolder', heq⟩

/-- **What is read from a link** to a file. -/
theorem parseLink_text (link : Link check a) {indexUrl : String}
    (hindex : (Url.urlsplit check [] indexUrl.toList).isSome) (project : String) :
    ∃ url, parseLink check project (String.ofList link.text) indexUrl =
      .ok (if normalizeProject a.name.text = normalizeProject project then
        some (a.distribution project url) else none) := by
  obtain ⟨s, folder, hsplit, hpath, hfolder⟩ := link.urlsplit_text []
  obtain ⟨folder', hfolder', hunquote⟩ := link.unquote_path hfolder
  have hslash : '/' ∉ a.filename := fun h ↦
    absurd (isFileChar_of_mem_filename a '/' h) (by decide)
  -- the link is joined to the index only behind the check of the name
  have hjoin : (Url.urljoin check indexUrl.toList link.text).isSome := by
    refine Url.isSome_urljoin hindex fun default ↦ ?_
    obtain ⟨s, -, hs, -⟩ := link.urlsplit_text default
    rw [hs]
    rfl
  obtain ⟨url, hurl⟩ := Option.isSome_iff_exists.1 hjoin
  have hsuffix : ".whl".toList <:+ folder' ++ a.filename ∨
      ".tar.gz".toList <:+ folder' ++ a.filename :=
    (suffix_filename a).imp (fun h ↦ h.trans (List.suffix_append _ _))
      fun h ↦ h.trans (List.suffix_append _ _)
  refine ⟨String.ofList url, ?_⟩
  rw [parseLink, String.toList_ofList, hsplit]
  dsimp only
  rw [hpath, hunquote, if_pos hsuffix, pathName_append hfolder' hslash (filename_ne a),
    parseDistribution_filename]
  by_cases hname : normalizeProject a.name.text = normalizeProject project
  · rw [if_pos hname, if_pos hname]
    dsimp only
    rw [hurl]
    rfl
  · rw [if_neg hname, if_neg hname]

end

/-- **Reading a link inverts rendering it.** The project may be spelled in any way, and the version,
the tags, the kind and the name of the file are read back, with the ROCm version that the version
carries; for a project with another normalized name there is nothing to read. -/
theorem parseLink_rendered (check : List Char → Bool) {indexUrl : String}
    (hindex : (Url.urlsplit check [] indexUrl.toList).isSome) (a : Artifact) (link : Link check a)
    (project : ProjectName) :
    (SpelledLike a.name.text project.text →
      ∃ dist, parseLink check project.text (String.ofList link.text) indexUrl = .ok (some dist) ∧
        dist.filename = String.ofList a.filename ∧ dist.packageVersion = a.version.text ∧
        (dist.pythonTag, dist.abiTag, dist.platformTag) = a.tags ∧ dist.kind = a.kind ∧
        ∀ r, CarriesRocm a.version.text.toList r → dist.rocmVersion = some (String.ofList r)) ∧
    (normalizeProject a.name.text ≠ normalizeProject project.text →
      parseLink check project.text (String.ofList link.text) indexUrl = .ok none) := by
  obtain ⟨url, hparse⟩ := parseLink_text link hindex project.text
  refine ⟨fun hspelled ↦ ?_, fun hne ↦ ?_⟩
  · rw [if_pos hspelled.normalizeProject_eq] at hparse
    exact ⟨_, hparse, rfl, rfl, rfl, rfl, fun r hr ↦ hr.rocmMatch_eq project.text⟩
  · rw [hparse, if_neg hne]

/-- A wheel of PyTorch for ROCm 10. -/
def torchWheel : Artifact :=
  .wheel ⟨"torch", by decide⟩ ⟨"2.13.0+rocm10.0.0", by decide⟩ ⟨"cp313", by decide⟩
    ⟨"cp313", by decide⟩ ⟨"linux_x86_64", by decide⟩

/-- A link to it, with the plus sign escaped. -/
def torchLink (check : List Char → Bool) : Link check torchWheel where
  directory :=
    { text := "torch/".toList
      plain := by decide
      endsSlash := by decide
      authority := fun before rest htext _ ↦ by
        -- no two slashes follow each other, so no authority is opened
        have hnot : ¬['/', '/'] <:+: Url.clean "torch/".toList := by decide +kernel
        exact absurd ⟨before, rest, by rw [htext]; simp⟩ hnot }
  encoded := "torch-2.13.0".toList ++
    '%' :: '2' :: 'B' :: "rocm10.0.0-cp313-cp313-linux_x86_64.whl".toList
  encodes := by
    have hname : torchWheel.filename =
        "torch-2.13.0".toList ++ '+' :: "rocm10.0.0-cp313-cp313-linux_x86_64.whl".toList := by
      decide +kernel
    rw [hname]
    exact (Url.Encodes.refl (by decide)).append
      (.escape (m := 2) (n := 11) (by decide) (by decide) (by decide) (.refl (by decide)))
  suffix := "?delta=0#sha256=deadbeef".toList
  isSuffix := by decide

theorem parseLink_rendered_torch : ∃ dist,
    parseLink (fun _ ↦ true) "Torch" (String.ofList (torchLink fun _ ↦ true).text)
      "https://stable.repo.amd.com/rocm/whl-next/torch/" = .ok (some dist) ∧
    dist.packageVersion = "2.13.0+rocm10.0.0" ∧ dist.rocmVersion = some "10.0.0" := by
  have hindex : (Url.urlsplit (fun _ ↦ true) []
      "https://stable.repo.amd.com/rocm/whl-next/torch/".toList).isSome := by decide +kernel
  have hspelled : SpelledLike "torch" "Torch" := by
    unfold SpelledLike SameLetter
    decide +kernel
  have hversion : "2.13.0+rocm10.0.0".toList =
      "2.13.0".toList ++ '+' :: (rocmText ++ "10.0.0".toList) := by decide
  have hrocm : CarriesRocm "2.13.0+rocm10.0.0".toList "10.0.0".toList :=
    hversion ▸ .direct (by decide +kernel)
      ⟨⟨['1', '0'], ['0', '.', '0'], by decide, by decide, by decide, by decide⟩, by decide,
        by decide⟩
  obtain ⟨dist, hparse, -, hversion, -, -, hmatch⟩ :=
    (parseLink_rendered _ hindex torchWheel (torchLink _) ⟨"Torch", by decide⟩).1 hspelled
  exact ⟨dist, hparse, hversion, hmatch _ hrocm⟩

end TheRock
