import Mathlib.Data.List.TakeDrop
import Mathlib.Data.List.TakeWhile
import Mathlib.Data.Prod.Lex
import Mathlib.Data.String.Basic
import Mathlib.Data.Sum.Order
import NixStrixHalo.Library.PythonText

/-!
# Version strings

How the updaters read the versions of an index: `version_key`, which orders them, `in_rocm_series`,
and the prefix `major.minor` that the regular expressions `\d+\.\d+` of the updaters match. Versions
are ASCII, so `\d` is `[0-9]` and `lower` changes `[A-Z]` only.

## Releases

The expression `(\d+(?:\.\d+)*)(.*)` splits a version into a release, as long as it gets, and a
suffix: a dot belongs to the release only between digits. `spanRelease` goes through the characters
once, and `matchRelease_eq_some_iff` says what is matched in terms of components, for the modules
that follow.

## Keys

A key is the release as a list of numbers and the parts of the suffix, letters before numbers.
Tuples are compared lexicographically, so a release is smaller than its extensions by further
components.
-/

namespace TheRock

/-! ### Releases -/

/-- The longest prefix that matches `\d+(?:\.\d+)*`, with what follows it; a dot is part of it only
between digits. -/
def spanRelease (afterDigit : Bool) : List Char → List Char × List Char
  | [] => ([], [])
  | c :: cs =>
    if c.isDigit then
      let (release, suffix) := spanRelease true cs
      (c :: release, suffix)
    else if c = '.' ∧ afterDigit ∧ cs.head?.any Char.isDigit then
      let (release, suffix) := spanRelease false cs
      (c :: release, suffix)
    else ([], c :: cs)

/-- `re.fullmatch(r"(\d+(?:\.\d+)*)(.*)", version)`, with the release split at its dots. -/
def matchRelease (version : String) : Option (List (List Char) × List Char) :=
  let (release, suffix) := spanRelease false version.toList
  if release = [] ∨ '\n' ∈ suffix then none else some (release.splitOn '.', suffix)

/-- `int(part)`, for a string of digits. -/
def toNat (part : List Char) : ℕ := part.foldl (fun n c ↦ 10 * n + (c.toNat - '0'.toNat)) 0

/-- `part.isdigit()`. -/
def isDigits (part : List Char) : Bool := !part.isEmpty && part.all Char.isDigit

/-! ### The order of versions -/

/-- An entry of a suffix key: `(0, text)` or `(1, number)`. -/
abbrev SuffixToken := List Char ⊕ₗ ℕ

/-- What `version_key` returns. Tuples are compared lexicographically. -/
abbrev VersionKey := List ℕ ×ₗ Bool ×ₗ List SuffixToken

/-- `re.findall(r"\d+|[A-Za-z]+", suffix)`. -/
def suffixParts (suffix : List Char) : List (List Char) :=
  (suffix.splitBy fun c d ↦ c.isDigit && d.isDigit || c.isAlpha && d.isAlpha).filter fun part ↦
    part.all Char.isAlphanum

/-- The key of one part. -/
def suffixToken (part : List Char) : SuffixToken :=
  if isDigits part then toLex (.inr (toNat part)) else toLex (.inl (part.map Char.toLower))

/-- `version_key`. -/
def versionKey (version : String) : VersionKey :=
  match matchRelease version with
  | none => toLex ([], toLex (false, [toLex (.inl (version.toList.map Char.toLower))]))
  | some (release, suffix) =>
    toLex (release.map toNat, toLex (suffix.isEmpty, (suffixParts suffix).map suffixToken))

example : versionKey "10.0.9" < versionKey "10.0.10" := by decide

example : versionKey "10.0.0rc4" < versionKey "10.0.0" := by decide

/-! ### Series -/

/-- `in_rocm_series`. -/
def inRocmSeries (version series : String) : Bool :=
  let seriesParts := series.toList.splitOn '.'
  if !seriesParts.all isDigits then false
  else
    match matchRelease version with
    | none => false
    | some (release, _) =>
      seriesParts.length ≤ release.length && release.take seriesParts.length == seriesParts

example : inRocmSeries "10.1.0rc2" "10.1" ∧ ¬ inRocmSeries "10.10.0" "10.1" := by decide

/-! ### The prefix `major.minor` -/

/-- What `\d+\.\d+` matches at the start of a string, with what follows it. -/
def matchMajorMinor (s : List Char) : Option (List Char × List Char) :=
  match s.span Char.isDigit with
  | (major, '.' :: rest) =>
    let (minor, suffix) := rest.span Char.isDigit
    if major = [] ∨ minor = [] then none else some (major ++ '.' :: minor, suffix)
  | _ => none

/-- The group of `re.match(r"(\d+\.\d+)\.", version)`. -/
def matchSeriesDot (version : String) : Option String :=
  match matchMajorMinor version.toList with
  | some (series, '.' :: _) => some (String.ofList series)
  | _ => none

/-- The group of `re.match(r"(\d+\.\d+)", version)`. -/
def matchSeries (version : String) : Option String :=
  (matchMajorMinor version.toList).map fun (series, _) ↦ String.ofList series

theorem isDigits_iff {part : List Char} :
    isDigits part ↔ part ≠ [] ∧ ∀ c ∈ part, c.isDigit := by
  simp [isDigits]

/-- What the prefix and what follows it look like. -/
theorem matchMajorMinor_eq_some_iff {s series suffix : List Char} :
    matchMajorMinor s = some (series, suffix) ↔
      s = series ++ suffix ∧ suffix.head?.any Char.isDigit = false ∧
        ∃ major minor, series = major ++ '.' :: minor ∧ isDigits major ∧ isDigits minor := by
  constructor
  · intro h
    rw [matchMajorMinor] at h
    split at h
    next major rest hspan =>
      obtain ⟨hs, hmajor, -⟩ := PythonText.eq_append_of_span hspan
      rcases hspan' : rest.span Char.isDigit with ⟨minor, suffix'⟩
      obtain ⟨hrest, hminor, hsuffix⟩ := PythonText.eq_append_of_span hspan'
      simp only [hspan'] at h
      split at h
      · cases h
      next hne =>
        obtain ⟨rfl, rfl⟩ := Prod.mk.inj (Option.some.inj h)
        push Not at hne
        refine ⟨by rw [hs, hrest, List.append_assoc, List.cons_append], hsuffix, major, minor, rfl,
          isDigits_iff.2 ⟨hne.1, hmajor⟩, isDigits_iff.2 ⟨hne.2, hminor⟩⟩
    · cases h
  · rintro ⟨rfl, hsuffix, major, minor, rfl, hmajor, hminor⟩
    obtain ⟨hmajorNe, hmajor⟩ := isDigits_iff.1 hmajor
    obtain ⟨hminorNe, hminor⟩ := isDigits_iff.1 hminor
    rw [List.append_assoc, List.cons_append, matchMajorMinor, PythonText.span_append hmajor rfl]
    simp only [PythonText.span_append hminor hsuffix, hmajorNe, hminorNe, or_self, if_false]

/-- A series that was matched matches itself. -/
theorem matchSeries_self {version series : String} (h : matchSeries version = some series) :
    matchSeries series = some series := by
  obtain ⟨⟨_, suffix⟩, hmatch, rfl⟩ := Option.map_eq_some_iff.1 h
  obtain ⟨-, -, major, minor, rfl, hmajor, hminor⟩ := matchMajorMinor_eq_some_iff.1 hmatch
  have hfull : matchMajorMinor (String.ofList (major ++ '.' :: minor)).toList =
      some (major ++ '.' :: minor, []) := by
    refine matchMajorMinor_eq_some_iff.2 ⟨?_, rfl, major, minor, rfl, hmajor, hminor⟩
    rw [String.toList_ofList, List.append_nil]
  rw [matchSeries, hfull]
  rfl

/-! ### Reading a release -/

theorem dot_not_mem {part : List Char} (h : isDigits part) : '.' ∉ part :=
  fun hmem ↦ absurd ((isDigits_iff.1 h).2 _ hmem) (by decide)

/-- What may follow a release: neither a digit nor a dot with a digit after it. -/
def endsRelease : List Char → Bool
  | [] => true
  | c :: cs => !c.isDigit && !(c == '.' && cs.head?.any Char.isDigit)

theorem head?_of_endsRelease {suffix : List Char} (h : endsRelease suffix) :
    suffix.head?.any Char.isDigit = false := by
  cases suffix with
  | nil => rfl
  | cons c cs => simpa using (Bool.and_eq_true_iff.1 h).1

/-- What follows a component either ends the release or is a dot before the next component. -/
theorem endsRelease_or_dot {rest : List Char} (h : rest.head?.any Char.isDigit = false) :
    endsRelease rest ∨ ∃ tail, rest = '.' :: tail ∧ tail.head?.any Char.isDigit := by
  cases rest with
  | nil => exact Or.inl rfl
  | cons c tail =>
    have hc : c.isDigit = false := h
    by_cases hdot : c = '.' ∧ tail.head?.any Char.isDigit
    · exact Or.inr ⟨tail, by rw [hdot.1], hdot.2⟩
    · refine Or.inl ?_
      simpa [endsRelease, hc] using not_and_or.1 hdot

theorem spanRelease_digit {c : Char} (hc : c.isDigit) (b : Bool) (cs : List Char) :
    spanRelease b (c :: cs) = (c :: (spanRelease true cs).1, (spanRelease true cs).2) := by
  rw [spanRelease, if_pos hc]

theorem spanRelease_dot {rest : List Char} (h : rest.head?.any Char.isDigit) :
    spanRelease true ('.' :: rest) =
      ('.' :: (spanRelease false rest).1, (spanRelease false rest).2) := by
  rw [spanRelease, if_neg (by decide), if_pos ⟨rfl, rfl, h⟩]

theorem spanRelease_of_endsRelease {suffix : List Char} (h : endsRelease suffix) (b : Bool) :
    spanRelease b suffix = ([], suffix) := by
  cases suffix with
  | nil => rfl
  | cons c cs =>
    obtain ⟨hc, hdot⟩ := Bool.and_eq_true_iff.1 h
    rw [spanRelease, if_neg (by simpa using hc), if_neg]
    rintro ⟨rfl, -, hcs⟩
    simp [hcs] at hdot

/-- A component is read whole. -/
theorem spanRelease_isDigits {part : List Char} (h : isDigits part) (b : Bool)
    (rest : List Char) : spanRelease b (part ++ rest) =
      (part ++ (spanRelease true rest).1, (spanRelease true rest).2) := by
  obtain ⟨hne, hdigits⟩ := isDigits_iff.1 h
  clear h
  induction part generalizing b with
  | nil => exact absurd rfl hne
  | cons c cs ih =>
    obtain ⟨hc, hcs⟩ := List.forall_mem_cons.1 hdigits
    rw [List.cons_append, spanRelease_digit hc]
    rcases cs with _ | ⟨d, cs⟩
    · rfl
    · rw [ih true (List.cons_ne_nil d cs) hcs]
      rfl

theorem intercalate_append {parts tail : List (List Char)} (hparts : parts ≠ [])
    (htail : tail ≠ []) : ['.'].intercalate (parts ++ tail) =
      ['.'].intercalate parts ++ '.' :: ['.'].intercalate tail := by
  induction parts with
  | nil => exact absurd rfl hparts
  | cons part parts ih =>
    rcases parts with _ | ⟨next, parts⟩
    · rw [List.singleton_append, List.intercalate_cons_of_ne_nil htail, List.intercalate_singleton,
        List.append_assoc, List.singleton_append]
    · have hne : next :: parts ++ tail ≠ [] := List.cons_ne_nil _ _
      rw [List.cons_append, List.intercalate_cons_of_ne_nil hne, ih (List.cons_ne_nil _ _),
        List.intercalate_cons_cons, List.append_assoc _ _ ('.' :: _)]

/-- A release is read whole when what follows does not extend it. -/
theorem spanRelease_intercalate {parts : List (List Char)} (hne : parts ≠ [])
    (hparts : ∀ part ∈ parts, isDigits part) {suffix : List Char} (hsuffix : endsRelease suffix)
    (b : Bool) : spanRelease b (['.'].intercalate parts ++ suffix) =
      (['.'].intercalate parts, suffix) := by
  induction parts generalizing b with
  | nil => exact absurd rfl hne
  | cons part parts ih =>
    obtain ⟨hpart, hparts⟩ := List.forall_mem_cons.1 hparts
    rcases parts with _ | ⟨next, parts⟩
    · rw [List.intercalate_singleton, spanRelease_isDigits hpart,
        spanRelease_of_endsRelease hsuffix, List.append_nil]
    · have hnext := (List.forall_mem_cons.1 hparts).1
      have hdigit : (['.'].intercalate (next :: parts) ++ suffix).head?.any Char.isDigit := by
        obtain ⟨hne, hdigits⟩ := isDigits_iff.1 hnext
        obtain ⟨c, cs, rfl⟩ := List.exists_cons_of_ne_nil hne
        cases parts <;> simpa [List.intercalate_cons_cons] using hdigits c List.mem_cons_self
      rw [List.intercalate_cons_cons, List.append_assoc, List.append_assoc,
        spanRelease_isDigits hpart, List.singleton_append, spanRelease_dot hdigit,
        ih (List.cons_ne_nil _ _) hparts, List.append_assoc, List.singleton_append]

/-- Every text that starts with a digit is a release and what follows it. -/
theorem exists_release {s : List Char} (h : s.head?.any Char.isDigit) :
    ∃ parts suffix, s = ['.'].intercalate parts ++ suffix ∧ parts ≠ [] ∧
      (∀ part ∈ parts, isDigits part) ∧ endsRelease suffix := by
  -- induction on the length: what follows the dot after the first component is shorter
  induction hn : s.length using Nat.strong_induction_on generalizing s with
  | _ n ih =>
    subst hn
    rcases hspan : s.span Char.isDigit with ⟨part, rest⟩
    obtain ⟨rfl, hdigits, hrest⟩ := PythonText.eq_append_of_span hspan
    have hpart : isDigits part := by
      refine isDigits_iff.2 ⟨?_, hdigits⟩
      rintro rfl
      rw [List.nil_append, hrest] at h
      cases h
    rcases endsRelease_or_dot hrest with hends | ⟨tail, rfl, htail⟩
    · exact ⟨[part], rest, by rw [List.intercalate_singleton], List.cons_ne_nil _ _,
        by simpa using hpart, hends⟩
    · -- the dot is followed by a digit, so another component begins
      obtain ⟨parts, suffix, rfl, hne, hparts, hsuffix⟩ :=
        ih tail.length (by simp; omega) htail rfl
      refine ⟨part :: parts, suffix, ?_, List.cons_ne_nil _ _,
        List.forall_mem_cons.2 ⟨hpart, hparts⟩, hsuffix⟩
      rw [List.intercalate_cons_of_ne_nil hne]
      simp

/-- **What `matchRelease` reads**: the components of a release, and a line that does not extend
it. -/
theorem matchRelease_eq_some_iff {version : String} {parts : List (List Char)}
    {suffix : List Char} : matchRelease version = some (parts, suffix) ↔
      version.toList = ['.'].intercalate parts ++ suffix ∧ parts ≠ [] ∧
        (∀ part ∈ parts, isDigits part) ∧ endsRelease suffix ∧ '\n' ∉ suffix := by
  constructor
  · intro h
    have hdigit : version.toList.head?.any Char.isDigit := by
      by_contra hnot
      rw [matchRelease] at h
      cases hversion : version.toList with
      | nil => simp [hversion, spanRelease] at h
      | cons c cs =>
        have hc : ¬ c.isDigit := by simpa [hversion] using hnot
        rw [hversion, spanRelease, if_neg hc, if_neg (fun hdot ↦ by simpa using hdot.2.1)] at h
        cases h
    obtain ⟨parts', suffix', hversion, hne, hparts, hsuffix⟩ := exists_release hdigit
    rw [matchRelease, hversion, spanRelease_intercalate hne hparts hsuffix] at h
    dsimp only at h
    split at h
    · cases h
    next hline =>
      obtain ⟨rfl, rfl⟩ := Prod.mk.inj (Option.some.inj h)
      rw [List.splitOn_intercalate '.' (fun part hpart ↦ dot_not_mem (hparts part hpart)) hne]
      exact ⟨hversion, hne, hparts, hsuffix, fun hmem ↦ hline (Or.inr hmem)⟩
  · rintro ⟨hversion, hne, hparts, hsuffix, hline⟩
    have hrelease : ['.'].intercalate parts ≠ [] := by
      obtain ⟨part, parts, rfl⟩ := List.exists_cons_of_ne_nil hne
      have hpart := (isDigits_iff.1 (List.forall_mem_cons.1 hparts).1).1
      cases parts <;> simp [List.intercalate_cons_cons, hpart]
    rw [matchRelease, hversion, spanRelease_intercalate hne hparts hsuffix]
    dsimp only
    rw [if_neg (not_or_intro hrelease hline),
      List.splitOn_intercalate '.' (fun part hpart ↦ dot_not_mem (hparts part hpart)) hne]

end TheRock
