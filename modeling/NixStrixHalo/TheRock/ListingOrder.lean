import Mathlib.Data.Multiset.Defs
import NixStrixHalo.TheRock.CoherentWheels
import NixStrixHalo.TheRock.RocmPins

/-!
# Listing order

Three selections sort what an index lists and take the last entry: `find_version`,
`choose_rocm_version` and `choose_distribution`. Their keys are not injective, and what ties falls
back to the order of the listing, or to the order in which Python enumerates a set. So a selection
is the same for all orders exactly when one entry only has the greatest key (`listingOrder_iff`).

## Two orders

The versions of tarballs and the common versions go through a set, whose order is not the program's
to choose: any of the entries with the greatest key is selected by some order (`SetOrder.putLast`).
Distributions are sorted as they are listed, and moving one of them to the end selects it
(`lastMax_candidates_erase`).

Ties are real: `10.0.0rc1` and `10.0.0-rc1` have one key, and so do two builds of one public version
of which only one is for ROCm.
-/

namespace TheRock

open LastMax

/-! ### Versions of tarballs -/

section

variable {index target : String} {series : Option String}

/-- The versions of the index that the series admits, as listed. -/
def admittedListing (index target : String) (series : Option String) : List String :=
  (findall (targetSlug target) 0 index.toList).filter fun version ↦
    series.all (seriesMatches · version)

/-- `find_version` selects the same version in every order of the index. -/
def FindVersionStable (index target : String) (series : Option String) : Prop :=
  ∀ order order' index', (findall (targetSlug target) 0 index.toList).Perm
    (findall (targetSlug target) 0 index'.toList) →
      findVersion order index target series = findVersion order' index' target series

/-- Which version is selected is decided by the admitted versions in the order of the set. -/
theorem getLast?_admittedVersions (order : SetOrder) :
    (admittedVersions order index target series).getLast? =
      lastMax versionKey ((order.toList (findall (targetSlug target) 0 index.toList).dedup).filter
        fun version ↦ series.all (seriesMatches · version)) := by
  rw [admittedVersions, filter_insertionSort, lastMax]

/-- A version with the greatest key is selected when the set is enumerated with it last. -/
theorem findVersion_putLast {v : String}
    (h : IsMax versionKey (admittedListing index target series) v) :
    findVersion (.putLast v) index target series = .ok v := by
  obtain ⟨hmem, hadmitted⟩ := List.mem_filter.1 h.1
  have hlast : (admittedVersions (.putLast v) index target series).getLast? = some v := by
    rw [getLast?_admittedVersions, SetOrder.toList_putLast (List.mem_dedup.2 hmem),
      List.filter_append, List.filter_singleton, hadmitted]
    refine lastMax_concat fun w hw ↦ h.2 w ?_
    obtain ⟨hw, hadmits⟩ := List.mem_filter.1 hw
    exact List.mem_filter.2 ⟨List.mem_dedup.1 (List.mem_of_mem_erase hw), hadmits⟩
  rw [findVersion, hlast]

theorem findVersionStable_iff : FindVersionStable index target series ↔
    ∀ v w, IsMax versionKey (admittedListing index target series) v →
      IsMax versionKey (admittedListing index target series) w → v = w := by
  constructor
  · intro h v w hv hw
    have heq := h (.putLast v) (.putLast w) index (List.Perm.refl _)
    rw [findVersion_putLast hv, findVersion_putLast hw] at heq
    exact Except.ok.inj heq
  · intro hunique order order' index' hperm
    -- the admitted versions are the same ones, and only one of them has the greatest key
    have hlist : ((order.toList (findall (targetSlug target) 0 index.toList).dedup).filter
        fun version ↦ series.all (seriesMatches · version)).Perm
          ((order'.toList (findall (targetSlug target) 0 index'.toList).dedup).filter
            fun version ↦ series.all (seriesMatches · version)) :=
      ((order.perm _).trans (hperm.dedup.trans (order'.perm _).symm)).filter _
    have hmem : ∀ v, v ∈ (order.toList (findall (targetSlug target) 0 index.toList).dedup).filter
        (fun version ↦ series.all (seriesMatches · version)) ↔
          v ∈ admittedListing index target series := fun v ↦ by
      rw [admittedListing, List.mem_filter, List.mem_filter, (order.perm _).mem_iff, List.mem_dedup]
    rw [findVersion, findVersion, getLast?_admittedVersions, getLast?_admittedVersions,
      lastMax_perm hlist fun v w hv hw ↦ hunique v w (hv.congr hmem) (hw.congr hmem)]

end

/-! ### Common versions -/

section

variable {series pythonTag : String} {packageVersions : String → Option String}
  {d d' : List (String × List Distribution)}

/-- The same projects with the same entries, listed in some order. -/
def SameEntries (d d' : List (String × List Distribution)) : Prop :=
  (d.map fun p ↦ (p.1, (p.2 : Multiset Distribution))).Perm
    (d'.map fun p ↦ (p.1, (p.2 : Multiset Distribution)))

/-- `choose_rocm_version` selects the same version in every order of the listings. -/
def ChooseRocmVersionStable (d : List (String × List Distribution)) (series pythonTag : String)
    (packageVersions : String → Option String) : Prop :=
  ∀ order order' d', SameEntries d d' →
    (chooseRocmVersion order d series pythonTag packageVersions).toOption =
      (chooseRocmVersion order' d' series pythonTag packageVersions).toOption

theorem SameEntries.exists_perm (h : SameEntries d d') {p : String × List Distribution}
    (hp : p ∈ d) : ∃ q ∈ d', q.1 = p.1 ∧ p.2.Perm q.2 := by
  obtain ⟨q, hq, heq⟩ := List.mem_map.1 (h.mem_iff.1 (List.mem_map_of_mem hp))
  obtain ⟨hname, hentries⟩ := Prod.mk.inj heq
  exact ⟨q, hq, hname, Multiset.coe_eq_coe.1 hentries.symm⟩

theorem isTagged_perm {l l' : List Distribution} (h : l.Perm l') : IsTagged l ↔ IsTagged l' := by
  simp only [IsTagged, h.mem_iff]

theorem IsCommon.sameEntries (h : SameEntries d d') {v : String}
    (hv : IsCommon series pythonTag packageVersions d v) :
    IsCommon series pythonTag packageVersions d' v := by
  obtain ⟨⟨p, hp, htag⟩, hall⟩ := hv
  constructor
  · obtain ⟨q, hq, -, hperm⟩ := h.exists_perm hp
    exact ⟨q, hq, (isTagged_perm hperm).1 htag⟩
  · intro q hq htag
    obtain ⟨p, hp, hname, hperm⟩ := SameEntries.exists_perm h.symm hq
    have hmem := hall p hp ((isTagged_perm hperm).1 htag)
    rw [mem_projectVersions] at hmem ⊢
    rw [← hname]
    simpa only [hperm.mem_iff] using hmem

theorem isNewestCommon_sameEntries (h : SameEntries d d') {v : String} :
    IsNewestCommon series pythonTag packageVersions d v ↔
      IsNewestCommon series pythonTag packageVersions d' v := by
  have hiff : ∀ w, IsCommon series pythonTag packageVersions d w ↔
      IsCommon series pythonTag packageVersions d' w :=
    fun w ↦ ⟨fun hw ↦ hw.sameEntries h, fun hw ↦ hw.sameEntries h.symm⟩
  simp only [IsNewestCommon, hiff]

/-- A version is selected whenever there is a common one. -/
theorem exists_chooseRocmVersion (order : SetOrder) {v : String}
    (h : IsCommon series pythonTag packageVersions d v) :
    ∃ w, chooseRocmVersion order d series pythonTag packageVersions = .ok w := by
  obtain ⟨c, hc⟩ : ∃ c, commonVersions series pythonTag packageVersions none d = .ok c :=
    exists_commonVersions fun p hp htag hnil ↦ by simpa [hnil] using h.2 p hp htag
  have hmem : v ∈ order.toList (c.getD []).dedup :=
    (order.perm _).mem_iff.2 (List.mem_dedup.2 ((mem_getD_iff_isCommon hc).2 h))
  obtain ⟨w, hw⟩ := exists_lastMax versionKey (List.ne_nil_of_mem hmem)
  exact ⟨w, by simp [chooseRocmVersion, hc, bind, Except.bind, hw]⟩

theorem toOption_chooseRocmVersion_eq_some_iff {order : SetOrder} {v : String} :
    (chooseRocmVersion order d series pythonTag packageVersions).toOption = some v ↔
      chooseRocmVersion order d series pythonTag packageVersions = .ok v := by
  rcases chooseRocmVersion order d series pythonTag packageVersions with e | w
  · simp [Except.toOption]
  · simp [Except.toOption]

theorem chooseRocmVersionStable_iff :
    ChooseRocmVersionStable d series pythonTag packageVersions ↔
      ∀ v w, IsNewestCommon series pythonTag packageVersions d v →
        IsNewestCommon series pythonTag packageVersions d w → v = w := by
  constructor
  · intro h v w hv hw
    have heq := h (.putLast v) (.putLast w) d (List.Perm.refl _)
    rw [chooseRocmVersion_putLast hv, chooseRocmVersion_putLast hw] at heq
    exact Option.some.inj heq
  · intro hunique order order' d' hentries
    refine Option.ext fun v ↦ ?_
    simp only [toOption_chooseRocmVersion_eq_some_iff]
    -- what is selected in one order is a newest common version in the other
    constructor
    · intro hv
      have hnewest := isNewestCommon_of_chooseRocmVersion hv
      obtain ⟨w, hw⟩ := exists_chooseRocmVersion order' (hnewest.1.sameEntries hentries)
      have hnewest' := (isNewestCommon_sameEntries hentries).2
        (isNewestCommon_of_chooseRocmVersion hw)
      rw [hw, hunique v w hnewest hnewest']
    · intro hv
      have hnewest := (isNewestCommon_sameEntries hentries).2
        (isNewestCommon_of_chooseRocmVersion hv)
      obtain ⟨w, hw⟩ := exists_chooseRocmVersion order hnewest.1
      rw [hw, hunique v w hnewest (isNewestCommon_of_chooseRocmVersion hw)]

end

/-! ### Distributions -/

section

variable {rocmVersion pythonTag : String} {packageVersion : Option String}
  {distributions : List Distribution}

/-- `choose_distribution` selects the same distribution in every order of the listing. -/
def ChooseDistributionStable (rocmVersion pythonTag : String) (packageVersion : Option String)
    (distributions : List Distribution) : Prop :=
  ∀ distributions', distributions.Perm distributions' →
    (chooseDistribution rocmVersion pythonTag packageVersion distributions).toOption =
      (chooseDistribution rocmVersion pythonTag packageVersion distributions').toOption

theorem toOption_chooseDistribution (distributions : List Distribution) :
    (chooseDistribution rocmVersion pythonTag packageVersion distributions).toOption =
      lastMax distKey (candidates rocmVersion pythonTag packageVersion distributions) := by
  refine Option.ext fun dist ↦ ?_
  rw [← chooseDistribution_eq_ok_iff]
  rcases chooseDistribution rocmVersion pythonTag packageVersion distributions with e | x
  · simp [Except.toOption]
  · simp [Except.toOption]

/-- A candidate with the greatest key is selected when it is listed last. -/
theorem lastMax_candidates_erase {dist : Distribution}
    (h : IsMax distKey (candidates rocmVersion pythonTag packageVersion distributions) dist) :
    lastMax distKey (candidates rocmVersion pythonTag packageVersion
      (distributions.erase dist ++ [dist])) = some dist := by
  obtain ⟨hmem, hmatch⟩ := List.mem_filter.1 h.1
  rw [candidates, List.filter_append, List.filter_singleton, hmatch]
  refine lastMax_concat fun other hother ↦ h.2 other ?_
  obtain ⟨hother, hmatches⟩ := List.mem_filter.1 hother
  exact List.mem_filter.2 ⟨List.mem_of_mem_erase hother, hmatches⟩

theorem chooseDistributionStable_iff :
    ChooseDistributionStable rocmVersion pythonTag packageVersion distributions ↔
      ∀ x y, IsMax distKey (candidates rocmVersion pythonTag packageVersion distributions) x →
        IsMax distKey (candidates rocmVersion pythonTag packageVersion distributions) y →
          x = y := by
  simp only [ChooseDistributionStable, toOption_chooseDistribution]
  constructor
  · intro h x y hx hy
    have hlast : ∀ dist, IsMax distKey
        (candidates rocmVersion pythonTag packageVersion distributions) dist →
          lastMax distKey (candidates rocmVersion pythonTag packageVersion distributions) =
            some dist := by
      intro dist hdist
      have hmem := (List.mem_filter.1 hdist.1).1
      have hperm : distributions.Perm (distributions.erase dist ++ [dist]) :=
        (List.perm_cons_erase hmem).trans (List.perm_append_singleton _ _).symm
      rw [h _ hperm, lastMax_candidates_erase hdist]
    exact Option.some.inj ((hlast x hx).symm.trans (hlast y hy))
  · intro hunique distributions' hperm
    exact lastMax_perm (hperm.filter _) hunique

end

/-! ### When a selection is stable -/

/-- **When the order of a listing does not matter**: for each selection, exactly when the greatest
key among what it selects from belongs to one entry only. -/
theorem listingOrder_iff (index target : String) (series : Option String)
    (d : List (String × List Distribution)) (rocmSeries pythonTag : String)
    (packageVersions : String → Option String) (rocmVersion : String)
    (packageVersion : Option String) (distributions : List Distribution) :
    (FindVersionStable index target series ↔
      ∀ v w, IsMax versionKey (admittedListing index target series) v →
        IsMax versionKey (admittedListing index target series) w → v = w) ∧
    (ChooseRocmVersionStable d rocmSeries pythonTag packageVersions ↔
      ∀ v w, IsNewestCommon rocmSeries pythonTag packageVersions d v →
        IsNewestCommon rocmSeries pythonTag packageVersions d w → v = w) ∧
    (ChooseDistributionStable rocmVersion pythonTag packageVersion distributions ↔
      ∀ x y, IsMax distKey (candidates rocmVersion pythonTag packageVersion distributions) x →
        IsMax distKey (candidates rocmVersion pythonTag packageVersion distributions) y →
          x = y) :=
  ⟨findVersionStable_iff, chooseRocmVersionStable_iff, chooseDistributionStable_iff⟩

/-- Two spellings of a prerelease. -/
def spelledTwice : String :=
  "therock-dist-linux-gfx1151-10.0.0rc1.tar.gz therock-dist-linux-gfx1151-10.0.0-rc1.tar.gz"

/-- Two builds of one public version, only one of them for ROCm. -/
def builtTwice : List Distribution :=
  ["torch-2.13.0+rocm10.0.0-cp313-cp313-linux_x86_64.whl",
    "torch-2.13.0-cp313-cp313-linux_x86_64.whl"].filterMap fun filename ↦
      parseDistribution "torch" filename (baseUrl ++ "/torch/" ++ filename)

/-- Which spelling is selected depends on the order of the set, and which build on the order of the
listing. -/
theorem not_listingOrder :
    ¬ FindVersionStable spelledTwice "gfx1151" (some "10.0") ∧
      ¬ ChooseDistributionStable "10.0.0" "cp313" none builtTwice := by
  rw [findVersionStable_iff]
  constructor
  · intro h
    have hlisting : admittedListing spelledTwice "gfx1151" (some "10.0") =
        ["10.0.0rc1", "10.0.0-rc1"] := by decide
    have hkey : ∀ v ∈ ["10.0.0rc1", "10.0.0-rc1"],
        versionKey v = versionKey "10.0.0rc1" := by decide
    have hmax : ∀ v ∈ ["10.0.0rc1", "10.0.0-rc1"],
        IsMax versionKey (admittedListing spelledTwice "gfx1151" (some "10.0")) v := by
      intro v hv
      rw [hlisting]
      exact ⟨hv, fun w hw ↦ ((hkey w hw).trans (hkey v hv).symm).le⟩
    have heq := h "10.0.0rc1" "10.0.0-rc1" (hmax _ (by decide)) (hmax _ (by decide))
    exact absurd heq (by decide)
  · intro h
    exact absurd (h builtTwice.reverse (List.reverse_perm _).symm) (by decide)

end TheRock
