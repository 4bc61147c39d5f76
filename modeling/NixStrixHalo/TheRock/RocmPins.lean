import Mathlib.Data.List.Dedup
import NixStrixHalo.TheRock.PythonWheels

/-!
# Series of ROCm tarball pins

The tarball updater picks a version of an index within a series, and three places derive that series
from the version pinned last: `refresh` splits it at its dots, and `update-rocm.py` and
`update-rocm-source.py` each match a regular expression. They agree, and the pin can move on to
every version of the same `major.minor`, exactly for the versions with two numeric components
followed by a dot (`neverStuck_iff`).

## The index

`findall` reads the names of tarballs from the text of an index, as `re.findall` does: matches do
not overlap, and a version is the longest one before `.tar.gz`. What it finds is a set for the
updater, in an order of Python's.

## Two readings of a series

`find_version` compares the text of a series, up to a character that is no digit, and
`in_rocm_series` compares numbers. For a series of numbers and a version that the pattern finds, the
two are the same (`seriesMatches_iff_inRocmSeries`).
-/

namespace TheRock

/-! ### The tarball index -/

/-- The class `[0-9A-Za-z.+~_-]`. -/
def isVersionChar (c : Char) : Bool := c.isAlphanum || c ∈ ['.', '+', '~', '_', '-']

/-- The longest nonempty prefix of a run of version characters that `.tar.gz` follows. -/
def longestVersion : List Char → Option (List Char)
  | [] => none
  | c :: cs =>
    match longestVersion cs with
    | some version => some (c :: version)
    | none => if ".tar.gz".toList.isPrefixOf cs then some [c] else none

/-- `TARGET_SLUGS`. -/
def targetSlugs : List (String × String) :=
  [("gfx1010", "gfx101X-dgpu"), ("gfx1030", "gfx103X-all"), ("gfx1036", "gfx103X-all"),
    ("gfx1103", "gfx110X-all"), ("gfx110X", "gfx110X-dgpu"), ("gfx120X", "gfx120X-all")]

/-- `target_slug`. -/
def targetSlug (target : String) : String := (targetSlugs.lookup target).getD target

/-- The version in a match of `therock-dist-linux-{slug}-([0-9][0-9A-Za-z.+~_-]*)\.tar\.gz` at the
start of a text. -/
def matchTarball (slug : String) (text : List Char) : Option (List Char) := do
  let rest ← text.dropPrefix? ("therock-dist-linux-" ++ slug ++ "-").toList
  guard (rest.head?.any Char.isDigit)
  longestVersion (rest.takeWhile isVersionChar)

/-- `pattern.findall(index)`: the versions of the matches from left to right, which do not overlap;
the first `skip` characters belong to the match found last. -/
def findall (slug : String) : ℕ → List Char → List String
  | _, [] => []
  | skip + 1, _ :: cs => findall slug skip cs
  | 0, c :: cs =>
    match matchTarball slug (c :: cs) with
    | none => findall slug 0 cs
    | some version =>
      let length :=
        ("therock-dist-linux-" ++ slug ++ "-").length + version.length + ".tar.gz".length
      String.ofList version :: findall slug (length - 1) cs

/-- Whether `^{series}(?!\d)` matches. -/
def seriesMatches (series version : String) : Bool :=
  match version.toList.dropPrefix? series.toList with
  | none => false
  | some rest => !rest.head?.any Char.isDigit

/-- `versions` of `find_version`: those of the index, in order, that the series admits. -/
def admittedVersions (order : SetOrder) (index target : String) (series : Option String) :
    List String :=
  ((order.toList (findall (targetSlug target) 0 index.toList).dedup).insertionSort
    fun v w ↦ versionKey v ≤ versionKey w).filter fun version ↦
      series.all (seriesMatches · version)

/-- `find_version`. -/
def findVersion (order : SetOrder) (index target : String) (series : Option String) :
    Except Failure String :=
  match (admittedVersions order index target series).getLast? with
  | some version => .ok version
  | none =>
    let suffix := (truthy series).elim "" fun series ↦ s!" in series {series}"
    .error (.systemExit s!"no TheRock tarball found for {target}{suffix}")

/-! ### The derived series -/

/-- The series that `refresh("rocm")` passes. -/
def refreshSeries (version : String) : String :=
  String.ofList (['.'].intercalate ((version.toList.splitOn '.').take 2))

/-- `pinned_series` of `update-rocm.py`, on the versions of the file's targets. -/
def rocmPinnedSeries (versions : List (String × String)) : Option String :=
  versions.findSome? fun (_, version) ↦ matchSeriesDot version

/-- `pinned_series` of `update-rocm-source.py`, on the versions of the file's targets. -/
def rocmSourcePinnedSeries (versions : List (String × String)) (target : String) : Option String :=
  matchSeries ((OrderedDict.get? versions target).getD "")

/-! ### Agreement -/

/-- The version starts with two numeric components, each followed by a dot. -/
def HasTwoComponents (version : String) : Prop :=
  ∃ major minor rest, version.toList = major ++ '.' :: (minor ++ '.' :: rest) ∧
    isDigits major ∧ isDigits minor

/-- The three derivations give the same series, a `major.minor` that the version starts with, and
selecting with it admits the version and every later one of the same `major.minor`. -/
def NeverStuck (target version : String) : Prop :=
  ∃ series, refreshSeries version = series ∧
    rocmPinnedSeries [(target, version)] = some series ∧
    rocmSourcePinnedSeries [(target, version)] target = some series ∧
    seriesMatches series version ∧
    ∀ later, matchSeries later = matchSeries version → versionKey version ≤ versionKey later →
      seriesMatches series later

/-- A series that a version starts with, up to a character that is no digit, admits it. -/
theorem seriesMatches_of_matchSeries {version series : String}
    (h : matchSeries version = some series) : seriesMatches series version := by
  obtain ⟨⟨series, suffix⟩, hmatch, rfl⟩ := Option.map_eq_some_iff.1 h
  obtain ⟨hversion, hsuffix, -⟩ := matchMajorMinor_eq_some_iff.1 hmatch
  have hdrop : version.toList.dropPrefix? (String.ofList series).toList = some suffix := by
    rw [List.dropPrefix?_eq_some_iff, String.toList_ofList, hversion]
    exact ⟨series, rfl, beq_self_eq_true series⟩
  rw [seriesMatches, hdrop]
  simp [hsuffix]

theorem matchSeriesDot_eq_some_iff {version series : String} :
    matchSeriesDot version = some series ↔
      ∃ major minor rest, version.toList = major ++ '.' :: (minor ++ '.' :: rest) ∧
        isDigits major ∧ isDigits minor ∧ series = String.ofList (major ++ '.' :: minor) := by
  constructor
  · intro h
    rw [matchSeriesDot] at h
    split at h
    next s rest hmatch =>
      obtain ⟨hversion, -, major, minor, rfl, hmajor, hminor⟩ :=
        matchMajorMinor_eq_some_iff.1 hmatch
      refine ⟨major, minor, rest, ?_, hmajor, hminor, (Option.some.inj h).symm⟩
      rw [hversion, List.append_assoc, List.cons_append]
    · cases h
  · rintro ⟨major, minor, rest, hversion, hmajor, hminor, rfl⟩
    have hmatch : matchMajorMinor version.toList = some (major ++ '.' :: minor, '.' :: rest) := by
      refine matchMajorMinor_eq_some_iff.2 ⟨?_, rfl, major, minor, rfl, hmajor, hminor⟩
      rw [hversion, List.append_assoc, List.cons_append]
    rw [matchSeriesDot, hmatch]
    rfl

theorem splitOn_append_dot {part : List Char} (h : isDigits part) (rest : List Char) :
    (part ++ '.' :: rest).splitOn '.' = part :: rest.splitOn '.' :=
  List.splitOn_append_cons_self_of_not_mem (dot_not_mem h) rest

/-- **When a pin cannot get stuck**: exactly when its version has two numeric components, each
followed by a dot. -/
theorem neverStuck_iff (target version : String) :
    NeverStuck target version ↔ HasTwoComponents version := by
  constructor
  · rintro ⟨series, -, hrocm, -⟩
    have hdot : matchSeriesDot version = some series := by
      simpa [rocmPinnedSeries] using hrocm
    obtain ⟨major, minor, rest, hversion, hmajor, hminor, -⟩ := matchSeriesDot_eq_some_iff.1 hdot
    exact ⟨major, minor, rest, hversion, hmajor, hminor⟩
  · rintro ⟨major, minor, rest, hversion, hmajor, hminor⟩
    have hdot : matchSeriesDot version = some (String.ofList (major ++ '.' :: minor)) :=
      matchSeriesDot_eq_some_iff.2 ⟨major, minor, rest, hversion, hmajor, hminor, rfl⟩
    have hseries : matchSeries version = some (String.ofList (major ++ '.' :: minor)) := by
      have hmatch : matchMajorMinor version.toList = some (major ++ '.' :: minor, '.' :: rest) := by
        refine matchMajorMinor_eq_some_iff.2 ⟨?_, rfl, major, minor, rfl, hmajor, hminor⟩
        rw [hversion, List.append_assoc, List.cons_append]
      rw [matchSeries, hmatch]
      rfl
    -- the three ways to the series, of which two match and one splits at the dots
    refine ⟨String.ofList (major ++ '.' :: minor), ?_, ?_, ?_,
      seriesMatches_of_matchSeries hseries, fun later hlater _ ↦
        seriesMatches_of_matchSeries (hlater.trans hseries)⟩
    · rw [refreshSeries, hversion, splitOn_append_dot hmajor, splitOn_append_dot hminor]
      simp [List.intercalate]
    · simp [rocmPinnedSeries, hdot]
    · rw [rocmSourcePinnedSeries, ← hseries]
      simp [OrderedDict.get?]

/-- A prerelease of a series head is returned and then stuck: the series that `refresh` derives from
it does not admit the release, and `update-rocm.py` derives none. -/
theorem not_neverStuck_prerelease :
    findVersion .asBuilt "therock-dist-linux-gfx1151-10.1rc2.tar.gz" "gfx1151" (some "10.1") =
        .ok "10.1rc2" ∧
      findVersion .asBuilt ("therock-dist-linux-gfx1151-10.1rc2.tar.gz " ++
        "therock-dist-linux-gfx1151-10.1.0.tar.gz") "gfx1151" (some (refreshSeries "10.1rc2")) =
        .ok "10.1rc2" ∧
      ¬ NeverStuck "gfx1151" "10.1rc2" := by
  refine ⟨by decide, by decide, fun ⟨series, _, hrocm, _⟩ ↦ ?_⟩
  have hnone : rocmPinnedSeries [("gfx1151", "10.1rc2")] = none := by decide
  rw [hnone] at hrocm
  cases hrocm

/-! ### Moving on -/

theorem mem_admittedVersions {order : SetOrder} {index target version : String}
    {series : Option String} : version ∈ admittedVersions order index target series ↔
      version ∈ findall (targetSlug target) 0 index.toList ∧
        series.all (seriesMatches · version) := by
  rw [admittedVersions, List.mem_filter, List.mem_insertionSort, (order.perm _).mem_iff,
    List.mem_dedup]

/-- What `find_version` returns is the greatest admitted version of the index. -/
theorem findVersion_eq_ok {order : SetOrder} {index target version : String}
    {series : Option String} (h : findVersion order index target series = .ok version) :
    version ∈ admittedVersions order index target series ∧
      ∀ w ∈ admittedVersions order index target series, versionKey w ≤ versionKey version := by
  rw [findVersion] at h
  rcases hlast : (admittedVersions order index target series).getLast? with _ | v
  · rw [hlast] at h
    cases h
  · rw [hlast] at h
    obtain rfl : v = version := Except.ok.inj h
    exact ⟨List.mem_of_getLast? hlast, fun w hw ↦
      LastMax.le_getLast? ((List.pairwise_insertionSort _ _).filter _) hlast hw⟩

theorem exists_findVersion {order : SetOrder} {index target version : String}
    {series : Option String} (h : version ∈ admittedVersions order index target series) :
    ∃ v, findVersion order index target series = .ok v := by
  rcases hlast : (admittedVersions order index target series).getLast? with _ | v
  · rw [List.getLast?_eq_none_iff.1 hlast] at h
    exact absurd h List.not_mem_nil
  · exact ⟨v, by rw [findVersion, hlast]⟩

/-- **A pin that is not stuck moves on**: once the index has a later version of the same
`major.minor`, a refresh selects it or one beyond it. -/
theorem exists_findVersion_of_neverStuck {order : SetOrder} {index target version later : String}
    (h : NeverStuck target version) (hlater : later ∈ findall (targetSlug target) 0 index.toList)
    (hsame : matchSeries later = matchSeries version)
    (hle : versionKey version ≤ versionKey later) :
    ∃ next, findVersion order index target (some (refreshSeries version)) = .ok next ∧
      versionKey later ≤ versionKey next := by
  obtain ⟨series, hseries, -, -, -, hadmits⟩ := h
  have hmem : later ∈ admittedVersions order index target (some (refreshSeries version)) := by
    rw [mem_admittedVersions, Option.all_some, hseries]
    exact ⟨hlater, hadmits later hsame hle⟩
  obtain ⟨next, hnext⟩ := exists_findVersion hmem
  exact ⟨next, hnext, (findVersion_eq_ok hnext).2 later hmem⟩

/-! ### The two series filters -/

theorem longestVersion_isPrefix {text version : List Char}
    (h : longestVersion text = some version) : version <+: text ∧ version ≠ [] := by
  induction text generalizing version with
  | nil => cases h
  | cons c cs ih =>
    rw [longestVersion] at h
    rcases hcs : longestVersion cs with _ | rest
    · rw [hcs] at h
      obtain ⟨-, hsome⟩ := Option.ite_none_right_eq_some.1 h
      obtain rfl : [c] = version := Option.some.inj hsome
      exact ⟨⟨cs, rfl⟩, List.cons_ne_nil _ _⟩
    · rw [hcs] at h
      obtain rfl : c :: rest = version := Option.some.inj h
      exact ⟨List.cons_prefix_cons.2 ⟨rfl, (ih hcs).1⟩, List.cons_ne_nil _ _⟩

/-- A version in a match starts with a digit and has the characters of the class only. -/
theorem matchTarball_spec {slug : String} {text version : List Char}
    (h : matchTarball slug text = some version) :
    version.head?.any Char.isDigit ∧ ∀ c ∈ version, isVersionChar c := by
  obtain ⟨rest, -, h⟩ := Option.bind_eq_some_iff.1 h
  obtain ⟨⟨⟩, hguard, h⟩ := Option.bind_eq_some_iff.1 h
  have hrest : rest.head?.any Char.isDigit := by
    by_contra hnot
    simp [guard, hnot] at hguard
  obtain ⟨hpre, hne⟩ := longestVersion_isPrefix h
  constructor
  · obtain ⟨c, cs, rfl⟩ := List.exists_cons_of_ne_nil hne
    obtain ⟨tail, htail⟩ := hpre.trans (List.takeWhile_prefix isVersionChar)
    rw [← htail] at hrest
    exact hrest
  · exact fun c hc ↦ List.mem_takeWhile_imp (hpre.subset hc)

/-- Every version of an index is in a match of the pattern. -/
theorem exists_matchTarball {slug : String} {text : List Char} {skip : ℕ} {version : String}
    (h : version ∈ findall slug skip text) :
    ∃ rest, matchTarball slug rest = some version.toList := by
  induction text generalizing skip with
  | nil => cases skip <;> cases h
  | cons c cs ih =>
    cases skip with
    | succ skip => exact ih h
    | zero =>
      rw [findall] at h
      split at h
      · exact ih h
      next found hfound =>
        rcases List.mem_cons.1 h with rfl | h
        · exact ⟨c :: cs, by rw [hfound, String.toList_ofList]⟩
        · exact ih h

/-- A version of an index is one line. -/
theorem newline_not_mem {slug : String} {text : List Char} {skip : ℕ} {version : String}
    (h : version ∈ findall slug skip text) : '\n' ∉ version.toList := by
  obtain ⟨rest, hrest⟩ := exists_matchTarball h
  exact fun hmem ↦ absurd ((matchTarball_spec hrest).2 _ hmem) (by decide)

theorem seriesMatches_iff {series version : String} : seriesMatches series version ↔
    ∃ rest, version.toList = series.toList ++ rest ∧ rest.head?.any Char.isDigit = false := by
  rw [seriesMatches]
  rcases hdrop : version.toList.dropPrefix? series.toList with _ | rest
  · refine iff_of_false Bool.false_ne_true fun ⟨rest, hversion, _⟩ ↦ ?_
    rw [hversion, List.dropPrefix?_append_of_beq _ (beq_self_eq_true _)] at hdrop
    cases hdrop
  · obtain ⟨_, hversion, heq⟩ := List.dropPrefix?_eq_some_iff.1 hdrop
    obtain rfl := eq_of_beq heq
    simp [hversion]

theorem inRocmSeries_iff {version series : String}
    (hseries : (series.toList.splitOn '.').all isDigits) : inRocmSeries version series ↔
      ∃ parts suffix, matchRelease version = some (parts, suffix) ∧
        series.toList.splitOn '.' <+: parts := by
  rw [inRocmSeries, hseries, Bool.not_true, if_neg Bool.false_ne_true]
  rcases hmatch : matchRelease version with _ | ⟨parts, suffix⟩
  · simp
  · simp only [Bool.and_eq_true, decide_eq_true_eq, beq_iff_eq, Option.some.injEq, Prod.mk.injEq]
    constructor
    · rintro ⟨-, htake⟩
      exact ⟨parts, suffix, ⟨rfl, rfl⟩, List.prefix_iff_eq_take.2 htake.symm⟩
    · rintro ⟨_, _, ⟨rfl, rfl⟩, hpre⟩
      exact ⟨hpre.length_le, (List.prefix_iff_eq_take.1 hpre).symm⟩

/-- **The two series filters agree** on the versions of an index. -/
theorem seriesMatches_iff_inRocmSeries {slug series version : String} {text : List Char}
    (hseries : (series.toList.splitOn '.').all isDigits)
    (hversion : version ∈ findall slug 0 text) :
    seriesMatches series version ↔ inRocmSeries version series := by
  have hseriesParts : ∀ part ∈ series.toList.splitOn '.', isDigits part :=
    List.all_eq_true.1 hseries
  have hseriesNe := List.splitOn_ne_nil '.' series.toList
  rw [seriesMatches_iff, inRocmSeries_iff hseries]
  constructor
  · rintro ⟨rest, hrest, hdigit⟩
    -- behind the series the release ends, or a dot and further numbers follow
    rcases endsRelease_or_dot hdigit with hends | ⟨tail, rfl, htail⟩
    · refine ⟨_, rest, matchRelease_eq_some_iff.2 ⟨?_, hseriesNe, hseriesParts, hends, ?_⟩,
        List.prefix_rfl⟩
      · rw [hrest, List.intercalate_splitOn]
      · exact fun hmem ↦ newline_not_mem hversion (hrest ▸ List.mem_append_right _ hmem)
    · obtain ⟨parts, suffix, rfl, hne, hparts, hsuffix⟩ := exists_release htail
      have htext : version.toList =
          ['.'].intercalate (series.toList.splitOn '.' ++ parts) ++ suffix := by
        rw [hrest, intercalate_append hseriesNe hne, List.intercalate_splitOn, List.append_assoc,
          List.cons_append]
      refine ⟨_, suffix, matchRelease_eq_some_iff.2
        ⟨htext, by simp [hseriesNe], ?_, hsuffix, ?_⟩, List.prefix_append _ _⟩
      · exact fun part hpart ↦ (List.mem_append.1 hpart).elim (hseriesParts part) (hparts part)
      · exact fun hmem ↦ newline_not_mem hversion (htext ▸ List.mem_append_right _ hmem)
  · rintro ⟨_, suffix, hsome, tail, rfl⟩
    obtain ⟨htext, -, -, hsuffix, -⟩ := matchRelease_eq_some_iff.1 hsome
    rcases eq_or_ne tail [] with rfl | htail
    · refine ⟨suffix, ?_, head?_of_endsRelease hsuffix⟩
      rw [htext, List.append_nil, List.intercalate_splitOn]
    · refine ⟨'.' :: (['.'].intercalate tail ++ suffix), ?_, rfl⟩
      rw [htext, intercalate_append hseriesNe htail, List.intercalate_splitOn, List.append_assoc,
        List.cons_append]

theorem seriesMatches_iff_inRocmSeries_prerelease :
    seriesMatches "10.1" "10.1.0rc2" ↔ inRocmSeries "10.1.0rc2" "10.1" := by
  have hmem : "10.1.0rc2" ∈
      findall "gfx1151" 0 "therock-dist-linux-gfx1151-10.1.0rc2.tar.gz".toList := by decide
  exact seriesMatches_iff_inRocmSeries (by decide) hmem

end TheRock
