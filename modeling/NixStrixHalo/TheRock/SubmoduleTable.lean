import NixStrixHalo.Library.PythonText
import NixStrixHalo.TheRock.SourceTree

/-!
# The submodule table

`submodules` reads the names, paths and URLs of `.gitmodules` from what `git config --get-regexp`
prints. It takes the name of a submodule from between the first two dots of a key, and the value
from behind the first space of a line, so a name with a dot or a space is cut, and two submodules
can share what is left of their names. The table is the declared one exactly when nothing that the
file declares is cut (`submodulesFaithful_iff`).

## What git prints

A setting is printed as its key, a space and its value, and the regular expression lets every key
pass that starts with `submodule.` and ends with the field. So the keys of one field are those of
that variable (`keyMatches_iff`), whatever is in the names. A key starts with `submodule.`, which is
why the index into its parts does not fail.

## The condition

`Gitmodules.Kept` says that names have no dots and no spaces, that values start with no space and
have no line break, and that no two submodules have the same path, by which the second table is
made.
-/

namespace TheRock

open PythonText

/-! ### What is printed -/

/-- The variables of a submodule. -/
inductive SubmoduleKey
  | path
  | url
  | update
  | branch
  | fetchRecurseSubmodules
  | ignore
  | shallow
  deriving DecidableEq

/-- The variable as `git config` prints it. -/
def SubmoduleKey.text : SubmoduleKey → String
  | .path => "path"
  | .url => "url"
  | .update => "update"
  | .branch => "branch"
  | .fetchRecurseSubmodules => "fetchrecursesubmodules"
  | .ignore => "ignore"
  | .shallow => "shallow"

/-- A setting of `.gitmodules`. -/
structure ConfigEntry where
  name : String
  key : SubmoduleKey
  value : String
  deriving DecidableEq

/-- What every key starts with. -/
def submoduleDot : List Char := "submodule.".toList

theorem submoduleDot_eq : submoduleDot = "submodule".toList ++ ['.'] := rfl

/-- `submodule.<name>.<key>`. -/
def ConfigEntry.keyText (e : ConfigEntry) : List Char :=
  submoduleDot ++ (e.name.toList ++ '.' :: e.key.text.toList)

/-- The line printed for a setting. -/
def ConfigEntry.line (e : ConfigEntry) : List Char := e.keyText ++ ' ' :: e.value.toList

/-- The settings of `.gitmodules` in order. Every submodule has a path and a URL, and only one of
each. -/
structure Gitmodules where
  entries : List ConfigEntry
  complete : ∀ e ∈ entries, ∀ key ∈ [SubmoduleKey.path, .url],
    ∃ value, ⟨e.name, key, value⟩ ∈ entries
  unique : ∀ name value value', ∀ key ∈ [SubmoduleKey.path, .url],
    ⟨name, key, value⟩ ∈ entries → ⟨name, key, value'⟩ ∈ entries → value = value'

/-- The file has a submodule of this name with this path and this URL. -/
def Gitmodules.Declares (m : Gitmodules) (s : Submodule) : Prop :=
  ⟨s.name, .path, s.path⟩ ∈ m.entries ∧ ⟨s.name, .url, s.url⟩ ∈ m.entries

/-- Whether a key matches the regular expression `submodule\..*\.field`. -/
def keyMatches (field : String) (key : List Char) : Bool :=
  key.tails.any fun rest ↦ (rest.dropPrefix? submoduleDot).any fun rest ↦
    decide ('.' :: field.toList <:+: rest)

/-- What `git config --get-regexp` prints for a field; `none` if it fails, as it does without a
match. -/
def Gitmodules.getRegexp (m : Gitmodules) (field : String) : Option (List Char) :=
  let matching := m.entries.filter fun e ↦ keyMatches field e.keyText
  if matching = [] then none else some (unlines (matching.map ConfigEntry.line))

/-! ### What is read -/

/-- `key, value = line.split(None, 1)`. -/
def parseConfigLine (line : List Char) : Except GraphError (String × String) :=
  match splitOnce line with
  | none => .error .valueError
  | some (key, value) => .ok (String.ofList key, String.ofList value)

/-- `git_config_blob`, on what git prints; `none` is a failure of git. -/
def gitConfigBlob (stdout : Option (List Char)) : Except GraphError (List (String × String)) :=
  match stdout with
  | none => .ok []
  | some text => do
    let lines := (splitlines (universalNewlines text)).filter fun line ↦ !line.all isSpace
    return OrderedDict.ofPairs (← lines.mapM parseConfigLine)

/-- The body of the loop of `submodules`: the entry for a key and its path, unless the URL is
missing. Every line that git prints starts with `submodule.`, which no space cuts, so that
`key.split(".")[1]` exists. -/
def nameEntry (urls : List (String × String)) : String × String → Option (String × Submodule)
  | (key, path) =>
    let name := String.ofList ((key.toList.splitOn '.').getD 1 [])
    (OrderedDict.get? urls ("submodule." ++ name ++ ".url")).map fun url ↦
      (name, { name, path, url })

/-- `by_name`, from the paths and the URLs. -/
def byName (paths urls : List (String × String)) : List (String × Submodule) :=
  OrderedDict.ofPairs (paths.filterMap (nameEntry urls))

/-- `by_path`, from `by_name`. -/
def byPath (byName : List (String × Submodule)) : List (String × Submodule) :=
  OrderedDict.ofPairs (byName.map fun (_, submodule) ↦ (submodule.path, submodule))

/-- `submodules`. -/
def submodules (m : Gitmodules) :
    Except GraphError (List (String × Submodule) × List (String × Submodule)) := do
  let paths ← gitConfigBlob (m.getRegexp "path")
  let urls ← gitConfigBlob (m.getRegexp "url")
  return (byName paths urls, byPath (byName paths urls))

/-! ### Faithful tables -/

/-- The tables are the declared submodules, by name and by path. -/
def SubmodulesFaithful (m : Gitmodules) : Prop :=
  ∃ names paths, submodules m = .ok (names, paths) ∧
    (∀ name s, OrderedDict.get? names name = some s ↔ s.name = name ∧ m.Declares s) ∧
    ∀ path s, OrderedDict.get? paths path = some s ↔ s.path = path ∧ m.Declares s

/-- The name has no dot and no space. -/
def NameKept (name : String) : Prop := ∀ c ∈ name.toList, c ≠ '.' ∧ isSpace c = false

/-- The value starts with a character that is no space, and has no line break. -/
def ValueKept (value : String) : Prop :=
  startsWord value.toList ∧ ∀ c ∈ value.toList, isLineBreak c = false

/-- What the file declares survives being printed and read, and the paths are distinct. -/
structure Gitmodules.Kept (m : Gitmodules) : Prop where
  name : ∀ s, m.Declares s → NameKept s.name
  path : ∀ s, m.Declares s → ValueKept s.path
  url : ∀ s, m.Declares s → ValueKept s.url
  inj : ∀ s s', m.Declares s → m.Declares s' → s.path = s'.path → s = s'

variable {m : Gitmodules} {paths urls : List (String × String)}

/-! ### What a table can hold -/

/-- What a line is read as has neither a space in its key nor one before its value. -/
theorem parseConfigLine_spec {line : List Char} {key value : String}
    (hline : ∀ c ∈ line, isLineBreak c = false) (h : parseConfigLine line = .ok (key, value)) :
    (∀ c ∈ key.toList, isSpace c = false) ∧ ValueKept value := by
  rw [parseConfigLine] at h
  split at h
  · cases h
  next key' value' hsplit =>
    obtain ⟨rfl, rfl⟩ := Prod.mk.inj (Except.ok.inj h)
    obtain ⟨hkey, hstart, hsub⟩ := splitOnce_spec hsplit
    rw [ValueKept, String.toList_ofList, String.toList_ofList]
    exact ⟨hkey, hstart, fun c hc ↦ hline c (hsub hc)⟩

/-- Keys have no space and values no line break. -/
theorem gitConfigBlob_spec {stdout : Option (List Char)} {d : List (String × String)}
    (h : gitConfigBlob stdout = .ok d) {p : String × String} (hp : p ∈ d) :
    (∀ c ∈ p.1.toList, isSpace c = false) ∧ ValueKept p.2 := by
  rcases stdout with _ | text
  · obtain rfl := Except.ok.inj h
    exact absurd hp List.not_mem_nil
  · obtain ⟨pairs, hpairs, h⟩ := Result.bind_eq_ok_iff.1 h
    obtain rfl := Except.ok.inj h
    obtain ⟨line, hline, hparse⟩ := Result.mem_of_mapM_eq_ok hpairs (OrderedDict.mem_ofPairs hp)
    refine parseConfigLine_spec (fun c hc ↦ ?_) hparse
    exact isLineBreak_of_mem_splitlines (List.mem_filter.1 hline).1 c hc

/-- A name in the table has no dot, for it is cut at the dots of a key. -/
theorem byName_spec (hpaths : ∀ p ∈ paths, (∀ c ∈ p.1.toList, isSpace c = false) ∧ ValueKept p.2)
    (hurls : ∀ p ∈ urls, (∀ c ∈ p.1.toList, isSpace c = false) ∧ ValueKept p.2)
    {name : String} {s : Submodule} (h : (name, s) ∈ byName paths urls) :
    NameKept name ∧ ValueKept s.path ∧ ValueKept s.url := by
  obtain ⟨⟨key, path⟩, hmem, hsome⟩ := List.mem_filterMap.1 (OrderedDict.mem_ofPairs h)
  obtain ⟨url, hurl, heq⟩ := Option.map_eq_some_iff.1 hsome
  obtain ⟨rfl, rfl⟩ := Prod.mk.inj heq
  obtain ⟨hkey, hpath⟩ := hpaths _ hmem
  refine ⟨fun c hc ↦ ?_, hpath, (hurls _ (OrderedDict.mem_of_get? hurl)).2⟩
  rw [String.toList_ofList] at hc
  rcases hfield : (key.toList.splitOn '.')[1]? with _ | field
  · rw [List.getD_eq_getElem?_getD, hfield] at hc
    exact absurd hc List.not_mem_nil
  · rw [List.getD_eq_getElem?_getD, hfield, Option.getD_some] at hc
    obtain ⟨hdot, hsub⟩ := mem_splitOn (List.mem_of_getElem? hfield)
    exact ⟨fun heq ↦ hdot (heq ▸ hc), hkey c (hsub hc)⟩

/-- Where the tables are right, names and values are kept. -/
theorem kept_of_submodulesFaithful (h : SubmodulesFaithful m) : m.Kept := by
  obtain ⟨names, byPaths, hok, hnames, hpaths⟩ := h
  obtain ⟨paths, hpathBlob, hok⟩ := Result.bind_eq_ok_iff.1 hok
  obtain ⟨urls, hurlBlob, hok⟩ := Result.bind_eq_ok_iff.1 hok
  obtain ⟨rfl, rfl⟩ := Prod.mk.inj (Except.ok.inj hok)
  have hkept : ∀ s, m.Declares s → NameKept s.name ∧ ValueKept s.path ∧ ValueKept s.url := by
    intro s hs
    have hget := (hnames s.name s).2 ⟨rfl, hs⟩
    exact byName_spec (fun _ ↦ gitConfigBlob_spec hpathBlob) (fun _ ↦ gitConfigBlob_spec hurlBlob)
      (OrderedDict.mem_of_get? hget)
  refine ⟨fun s hs ↦ (hkept s hs).1, fun s hs ↦ (hkept s hs).2.1, fun s hs ↦ (hkept s hs).2.2, ?_⟩
  intro s s' hs hs' heq
  have hget := (hpaths s.path s).2 ⟨rfl, hs⟩
  have hget' := (hpaths s.path s').2 ⟨heq.symm, hs'⟩
  exact Option.some.inj (hget.symm.trans hget')

/-! ### Files whose names and values are kept -/

theorem dot_not_mem_text (key : SubmoduleKey) : '.' ∉ key.text.toList := by
  cases key <;> decide

theorem ConfigEntry.splitOn_keyText {e : ConfigEntry} (h : '.' ∉ e.name.toList) :
    e.keyText.splitOn '.' = ["submodule".toList, e.name.toList, e.key.text.toList] := by
  have hkey : e.keyText =
      "submodule".toList ++ '.' :: (e.name.toList ++ '.' :: e.key.text.toList) := by
    rw [ConfigEntry.keyText, submoduleDot_eq, List.append_assoc, List.singleton_append]
  rw [hkey, List.splitOn_append_cons_self_of_not_mem (by decide),
    List.splitOn_append_cons_self_of_not_mem h, List.splitOn_eq_singleton (dot_not_mem_text e.key)]

/-- Three nonempty parts of a list of three are one element each. -/
theorem last_eq_of_append {α : Type*} {x y z : α} {l₁ l₂ l₃ : List α} (h₁ : l₁ ≠ [])
    (h₂ : l₂ ≠ []) (h₃ : l₃ ≠ []) (h : l₁ ++ (l₂ ++ l₃) = [x, y, z]) : l₃ = [z] := by
  -- three positive lengths add up to three
  have hlen := congrArg List.length h
  rw [List.length_append, List.length_append] at hlen
  simp only [List.length_cons, List.length_nil] at hlen
  have hpos₁ := List.length_pos_iff.2 h₁
  have hpos₂ := List.length_pos_iff.2 h₂
  have hpos₃ := List.length_pos_iff.2 h₃
  have htail := (List.append_inj (show l₁ ++ (l₂ ++ l₃) = [x] ++ ([y] ++ [z]) from h)
    (by rw [List.length_singleton]; omega)).2
  exact (List.append_inj htail (by rw [List.length_singleton]; omega)).2

/-- A key whose name has no dot matches the fields that its variable starts with. -/
theorem keyMatches_iff {e : ConfigEntry} (h : '.' ∉ e.name.toList) {field : SubmoduleKey} :
    keyMatches field.text e.keyText ↔ field.text.toList <+: e.key.text.toList := by
  rw [keyMatches, List.any_eq_true]
  constructor
  · rintro ⟨tail, htail, hmatch⟩
    rcases hdrop : tail.dropPrefix? submoduleDot with _ | rest
    · rw [hdrop] at hmatch
      cases hmatch
    · rw [hdrop, Option.any_some, decide_eq_true_eq] at hmatch
      obtain ⟨before, hbefore⟩ := (List.mem_tails _ _).1 htail
      obtain ⟨_, htail, heq⟩ := List.dropPrefix?_eq_some_iff.1 hdrop
      obtain rfl := eq_of_beq heq
      obtain ⟨name, after, rfl⟩ := hmatch
      -- the two dots of the match are the two dots of the key
      have hkey : e.keyText = (before ++ "submodule".toList) ++
          '.' :: (name ++ '.' :: (field.text.toList ++ after)) := by
        rw [← hbefore, htail, submoduleDot_eq]
        simp only [List.append_assoc, List.cons_append, List.nil_append]
      have hsplit := e.splitOn_keyText h
      rw [hkey, List.splitOn_append_cons_self, List.splitOn_append_cons_self] at hsplit
      have hlast := last_eq_of_append (List.splitOn_ne_nil _ _) (List.splitOn_ne_nil _ _)
        (List.splitOn_ne_nil _ _) hsplit
      refine ⟨after, ?_⟩
      have htext := congrArg (List.intercalate ['.']) hlast
      rwa [List.intercalate_splitOn, List.intercalate_singleton] at htext
  · rintro ⟨after, hafter⟩
    refine ⟨e.keyText, (List.mem_tails _ _).2 List.suffix_rfl, ?_⟩
    have hdrop : e.keyText.dropPrefix? submoduleDot =
        some (e.name.toList ++ '.' :: e.key.text.toList) :=
      List.dropPrefix?_append_of_beq _ (beq_self_eq_true submoduleDot)
    rw [hdrop]
    refine decide_eq_true ⟨e.name.toList, after, ?_⟩
    rw [← hafter, List.append_assoc, List.cons_append]

theorem text_isPrefix_iff {field : SubmoduleKey} (hfield : field ∈ [SubmoduleKey.path, .url])
    (key : SubmoduleKey) : field.text.toList <+: key.text.toList ↔ key = field := by
  rcases List.mem_pair.1 hfield with rfl | rfl
  · cases key <;> decide
  · cases key <;> decide

theorem Gitmodules.Kept.entry (h : m.Kept) {e : ConfigEntry} (he : e ∈ m.entries) :
    NameKept e.name ∧ (e.key ∈ [SubmoduleKey.path, .url] → ValueKept e.value) := by
  obtain ⟨path, hpath⟩ := m.complete e he .path (by decide)
  obtain ⟨url, hurl⟩ := m.complete e he .url (by decide)
  refine ⟨h.name ⟨e.name, path, url⟩ ⟨hpath, hurl⟩, fun hkey ↦ ?_⟩
  obtain ⟨name, key, value⟩ := e
  rcases List.mem_pair.1 hkey with rfl | rfl
  · exact h.path ⟨name, value, url⟩ ⟨he, hurl⟩
  · exact h.url ⟨name, path, value⟩ ⟨hpath, he⟩

/-- The pairs that are printed for a field. -/
def fieldPairs (m : Gitmodules) (field : SubmoduleKey) : List (String × String) :=
  (m.entries.filter (·.key = field)).map fun e ↦ (String.ofList e.keyText, e.value)

theorem ConfigEntry.keyText_ne_nil (e : ConfigEntry) : e.keyText ≠ [] :=
  List.append_ne_nil_of_left_ne_nil (by decide) _

theorem ConfigEntry.isSpace_keyText {e : ConfigEntry} (h : NameKept e.name) :
    ∀ c ∈ e.keyText, isSpace c = false := by
  have hstart : ∀ c ∈ submoduleDot, isSpace c = false := by decide
  have hkey : ∀ key : SubmoduleKey, ∀ c ∈ '.' :: key.text.toList, isSpace c = false := by
    intro key
    cases key <;> decide
  intro c hc
  rcases List.mem_append.1 hc with hc | hc
  · exact hstart c hc
  · rcases List.mem_append.1 hc with hc | hc
    · exact (h c hc).2
    · exact hkey e.key c hc

theorem ConfigEntry.isLineBreak_line {e : ConfigEntry} (hname : NameKept e.name)
    (hvalue : ValueKept e.value) : ∀ c ∈ e.line, isLineBreak c = false := by
  intro c hc
  rcases List.mem_append.1 hc with hc | hc
  · rw [Bool.eq_false_iff]
    intro hbreak
    exact absurd (isSpace_of_isLineBreak hbreak) (by simp [isSpace_keyText hname c hc])
  · rcases List.mem_cons.1 hc with rfl | hc
    · decide
    · exact hvalue.2 c hc

/-- A line of git is read back, if its name and its value are kept. -/
theorem parseConfigLine_line {e : ConfigEntry} (hname : NameKept e.name)
    (hvalue : ValueKept e.value) :
    parseConfigLine e.line = .ok (String.ofList e.keyText, e.value) := by
  rw [parseConfigLine, ConfigEntry.line,
    splitOnce_append e.keyText_ne_nil (e.isSpace_keyText hname) hvalue.1]
  exact congrArg (fun value ↦ Except.ok (String.ofList e.keyText, value)) String.ofList_toList

/-- **What is read for a field** is what was printed. -/
theorem gitConfigBlob_getRegexp (h : m.Kept) {field : SubmoduleKey}
    (hfield : field ∈ [SubmoduleKey.path, .url]) :
    gitConfigBlob (m.getRegexp field.text) = .ok (OrderedDict.ofPairs (fieldPairs m field)) := by
  have hmatching : (m.entries.filter fun e ↦ keyMatches field.text e.keyText) =
      m.entries.filter (·.key = field) := by
    refine List.filter_congr fun e he ↦ ?_
    have hdot : '.' ∉ e.name.toList := fun hmem ↦ ((h.entry he).1 _ hmem).1 rfl
    rw [Bool.eq_iff_iff, keyMatches_iff hdot, text_isPrefix_iff hfield, decide_eq_true_eq]
  have hkept : ∀ e ∈ m.entries.filter (·.key = field), NameKept e.name ∧ ValueKept e.value := by
    intro e he
    obtain ⟨hmem, hkey⟩ := List.mem_filter.1 he
    have hkey : e.key = field := of_decide_eq_true hkey
    exact ⟨(h.entry hmem).1, (h.entry hmem).2 (hkey ▸ hfield)⟩
  rw [Gitmodules.getRegexp, hmatching, fieldPairs]
  generalize m.entries.filter (·.key = field) = matching at hkept
  by_cases hnil : matching = []
  · subst hnil
    rfl
  · have hlines : ∀ line ∈ matching.map ConfigEntry.line, ∀ c ∈ line, isLineBreak c = false := by
      intro line hline
      obtain ⟨e, he, rfl⟩ := List.mem_map.1 hline
      exact e.isLineBreak_line (hkept e he).1 (hkept e he).2
    -- every line begins with its key, so none is skipped as blank
    have hblank : (matching.map ConfigEntry.line).filter (fun line ↦ !line.all isSpace) =
        matching.map ConfigEntry.line := by
      refine List.filter_eq_self.2 fun line hline ↦ ?_
      obtain ⟨e, he, rfl⟩ := List.mem_map.1 hline
      obtain ⟨c, cs, hcons⟩ := List.exists_cons_of_ne_nil e.keyText_ne_nil
      have hc := e.isSpace_keyText (hkept e he).1 c (hcons ▸ List.mem_cons_self)
      simp [ConfigEntry.line, hcons, hc]
    have hparse : (matching.map ConfigEntry.line).mapM parseConfigLine =
        .ok (matching.map fun e ↦ (String.ofList e.keyText, e.value)) := by
      rw [Result.mapM_eq_ok_iff, List.forall₂_map_left_iff, List.forall₂_map_right_iff,
        List.forall₂_same]
      exact fun e he ↦ parseConfigLine_line (hkept e he).1 (hkept e he).2
    rw [if_neg hnil, gitConfigBlob, splitlines_universalNewlines, splitlines_unlines hlines, hblank,
      hparse]
    rfl

/-! ### When the table is faithful -/

theorem keyText_inj {e e' : ConfigEntry} (hkey : e.key = e'.key)
    (h : String.ofList e.keyText = String.ofList e'.keyText) : e.name = e'.name := by
  have htext := String.ofList_injective h
  rw [ConfigEntry.keyText, ConfigEntry.keyText, List.append_cancel_left_eq, hkey,
    List.append_cancel_right_eq] at htext
  exact String.toList_inj.1 htext

theorem mem_fieldPairs {field : SubmoduleKey} {key value : String} :
    (key, value) ∈ fieldPairs m field ↔
      ∃ name, ⟨name, field, value⟩ ∈ m.entries ∧
        key = String.ofList (ConfigEntry.keyText ⟨name, field, value⟩) := by
  rw [fieldPairs, List.mem_map]
  constructor
  · rintro ⟨⟨name, key', value'⟩, he, heq⟩
    obtain ⟨rfl, rfl⟩ := Prod.mk.inj heq
    obtain ⟨hmem, hkey⟩ := List.mem_filter.1 he
    obtain rfl : key' = field := of_decide_eq_true hkey
    exact ⟨name, hmem, rfl⟩
  · rintro ⟨name, he, rfl⟩
    exact ⟨_, List.mem_filter.2 ⟨he, decide_eq_true rfl⟩, rfl⟩

/-- A field has one value for each key. -/
theorem fieldPairs_unique {field : SubmoduleKey} (hfield : field ∈ [SubmoduleKey.path, .url])
    (key a b : String) (ha : (key, a) ∈ fieldPairs m field) (hb : (key, b) ∈ fieldPairs m field) :
    a = b := by
  obtain ⟨name, ha, hkey⟩ := mem_fieldPairs.1 ha
  obtain ⟨name', hb, hkey'⟩ := mem_fieldPairs.1 hb
  have hname : (⟨name, field, a⟩ : ConfigEntry).name = (⟨name', field, b⟩ : ConfigEntry).name :=
    keyText_inj rfl (hkey.symm.trans hkey')
  obtain rfl : name = name' := hname
  exact m.unique name a b field hfield ha hb

theorem Gitmodules.Declares.eq {s s' : Submodule} (h : m.Declares s) (h' : m.Declares s')
    (hname : s.name = s'.name) : s = s' := by
  obtain ⟨name, path, url⟩ := s
  obtain ⟨name', path', url'⟩ := s'
  obtain rfl : name = name' := hname
  obtain rfl := m.unique name path path' .path (by decide) h.1 h'.1
  obtain rfl := m.unique name url url' .url (by decide) h.2 h'.2
  rfl

theorem toList_append_append (s t u : String) :
    (s ++ t ++ u).toList = s.toList ++ (t.toList ++ u.toList) := by
  rw [String.toList_append, String.toList_append, List.append_assoc]

/-- The URL that is looked up for a name is the declared one. -/
theorem get?_urls {name url : String} (h : ⟨name, .url, url⟩ ∈ m.entries) :
    OrderedDict.get? (OrderedDict.ofPairs (fieldPairs m .url)) ("submodule." ++ name ++ ".url") =
      some url := by
  rw [OrderedDict.get?_ofPairs_iff (fieldPairs_unique (by decide)), mem_fieldPairs]
  refine ⟨name, h, String.toList_inj.1 ?_⟩
  have hurl : ".url".toList = '.' :: "url".toList := by decide
  calc ("submodule." ++ name ++ ".url").toList
      = submoduleDot ++ (name.toList ++ ".url".toList) :=
        toList_append_append "submodule." name ".url"
    _ = ConfigEntry.keyText ⟨name, .url, url⟩ := by rw [hurl]; rfl
    _ = (String.ofList (ConfigEntry.keyText ⟨name, .url, url⟩)).toList :=
        String.toList_ofList.symm

/-- What the loop makes of the path of a declared submodule. -/
theorem nameEntry_eq {s : Submodule} (hname : NameKept s.name) (h : m.Declares s) :
    nameEntry (OrderedDict.ofPairs (fieldPairs m .url))
      (String.ofList (ConfigEntry.keyText ⟨s.name, .path, s.path⟩), s.path) =
        some (s.name, s) := by
  have hdot : '.' ∉ s.name.toList := fun hmem ↦ (hname _ hmem).1 rfl
  have hcut : String.ofList (((String.ofList
      (ConfigEntry.keyText ⟨s.name, .path, s.path⟩)).toList.splitOn '.').getD 1 []) = s.name := by
    rw [String.toList_ofList, ConfigEntry.splitOn_keyText hdot]
    exact String.ofList_toList
  rw [nameEntry, hcut, get?_urls h.2]
  rfl

/-- **The pairs that fill `by_name`** are the declared submodules. -/
theorem mem_filterMap_nameEntry (h : m.Kept) {name : String} {s : Submodule} :
    (name, s) ∈ (OrderedDict.ofPairs (fieldPairs m .path)).filterMap
        (nameEntry (OrderedDict.ofPairs (fieldPairs m .url))) ↔ s.name = name ∧ m.Declares s := by
  rw [List.mem_filterMap]
  constructor
  · rintro ⟨⟨key, path⟩, hmem, hentry⟩
    obtain ⟨n, hpath, rfl⟩ := mem_fieldPairs.1 (OrderedDict.mem_ofPairs hmem)
    obtain ⟨url, hurl⟩ := m.complete _ hpath .url (by decide)
    have hdeclares : m.Declares ⟨n, path, url⟩ := ⟨hpath, hurl⟩
    rw [nameEntry_eq (h.name _ hdeclares) hdeclares] at hentry
    obtain ⟨rfl, rfl⟩ := Prod.mk.inj (Option.some.inj hentry)
    exact ⟨rfl, hdeclares⟩
  · rintro ⟨rfl, hdeclares⟩
    refine ⟨_, ?_, nameEntry_eq (h.name s hdeclares) hdeclares⟩
    rw [OrderedDict.mem_ofPairs_iff (fieldPairs_unique (by decide)), mem_fieldPairs]
    exact ⟨s.name, hdeclares.1, rfl⟩

/-- Where names and values are kept, the tables are right. -/
theorem submodulesFaithful_of_kept (h : m.Kept) : SubmodulesFaithful m := by
  let names := byName (OrderedDict.ofPairs (fieldPairs m .path))
    (OrderedDict.ofPairs (fieldPairs m .url))
  have hunique : ∀ name a b, (name, a) ∈ (OrderedDict.ofPairs (fieldPairs m .path)).filterMap
      (nameEntry (OrderedDict.ofPairs (fieldPairs m .url))) →
        (name, b) ∈ (OrderedDict.ofPairs (fieldPairs m .path)).filterMap
          (nameEntry (OrderedDict.ofPairs (fieldPairs m .url))) → a = b := by
    intro name a b hmem hmem'
    obtain ⟨hname, ha⟩ := (mem_filterMap_nameEntry h).1 hmem
    obtain ⟨hname', hb⟩ := (mem_filterMap_nameEntry h).1 hmem'
    exact ha.eq hb (hname.trans hname'.symm)
  have hmem : ∀ {path s}, (path, s) ∈ names.map (fun p ↦ (p.2.path, p.2)) ↔
      s.path = path ∧ m.Declares s := by
    intro path s
    rw [List.mem_map]
    constructor
    · rintro ⟨⟨name, s'⟩, hs, heq⟩
      obtain ⟨rfl, rfl⟩ := Prod.mk.inj heq
      exact ⟨rfl, ((mem_filterMap_nameEntry h).1 (OrderedDict.mem_ofPairs hs)).2⟩
    · rintro ⟨rfl, hs⟩
      refine ⟨(s.name, s), ?_, rfl⟩
      exact (OrderedDict.mem_ofPairs_iff hunique).2 ((mem_filterMap_nameEntry h).2 ⟨rfl, hs⟩)
  refine ⟨names, byPath names, ?_, fun name s ↦ ?_, fun path s ↦ ?_⟩
  · have hpaths := gitConfigBlob_getRegexp h
      (show SubmoduleKey.path ∈ [SubmoduleKey.path, .url] by decide)
    have hurls := gitConfigBlob_getRegexp h
      (show SubmoduleKey.url ∈ [SubmoduleKey.path, .url] by decide)
    exact Result.bind_eq_ok_iff.2 ⟨_, hpaths, Result.bind_eq_ok_iff.2 ⟨_, hurls, rfl⟩⟩
  · rw [← mem_filterMap_nameEntry h]
    exact OrderedDict.get?_ofPairs_iff hunique
  · rw [← hmem]
    -- here the distinct paths are needed: each is the key of one entry
    refine OrderedDict.get?_ofPairs_iff fun path a b ha hb ↦ ?_
    obtain ⟨hpath, ha⟩ := hmem.1 ha
    obtain ⟨hpath', hb⟩ := hmem.1 hb
    exact h.inj a b ha hb (hpath.trans hpath'.symm)

/-- **When the table is faithful**: exactly when no name has a dot or a space, no path or URL starts
with a space or has a line break, and the paths are distinct. -/
theorem submodulesFaithful_iff (m : Gitmodules) : SubmodulesFaithful m ↔ m.Kept :=
  ⟨kept_of_submodulesFaithful, submodulesFaithful_of_kept⟩

/-- Two submodules, one of which has the other's name up to a dot. -/
def dottedEntries : List ConfigEntry :=
  [⟨"llvm", .path, "compiler/llvm"⟩, ⟨"llvm", .url, "https://host/llvm"⟩,
    ⟨"llvm.org", .path, "compiler/org"⟩, ⟨"llvm.org", .url, "https://host/org"⟩]

def dottedName : Gitmodules where
  entries := dottedEntries
  complete := by simp [dottedEntries]
  unique := by
    have hunique : ∀ e ∈ dottedEntries, ∀ e' ∈ dottedEntries, e.name = e'.name → e.key = e'.key →
        e.value = e'.value := by decide
    exact fun name value value' key _ h h' ↦ hunique _ h _ h' rfl rfl

/-- One of them is dropped, and the other one's name and URL are paired with its path. -/
theorem not_submodulesFaithful_dottedName :
    (submodules dottedName).toOption.map (fun p ↦ OrderedDict.get? p.1 "llvm") =
        some (some ⟨"llvm", "compiler/org", "https://host/llvm"⟩) ∧
      ¬ SubmodulesFaithful dottedName := by
  have hget : (submodules dottedName).toOption.map (fun p ↦ OrderedDict.get? p.1 "llvm") =
      some (some ⟨"llvm", "compiler/org", "https://host/llvm"⟩) := by decide
  refine ⟨hget, fun ⟨names, paths, hok, hnames, _⟩ ↦ ?_⟩
  rw [hok] at hget
  have hdeclares := ((hnames "llvm" _).1 (Option.some.inj hget)).2.1
  exact absurd hdeclares (by decide)

end TheRock
