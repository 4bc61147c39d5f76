import Mathlib.Data.List.SplitBy
import Mathlib.Order.Nat
import NixStrixHalo.Library.PaddedLex
import NixStrixHalo.TheRock.RocmPins

/-!
# The order of versions

What `version_key` makes of the versions with a dotted numeric release and an optional prerelease
suffix, against the order that they are meant to have: releases are compared component by component
with missing ones read as zero, and within a release the prereleases come first, those with the same
letters by their number.

## Where the two part

A key compares the lengths of the releases before it looks at the suffix, so `10.1` comes before
`10.1.0rc1`. The keys are in the intended order exactly when that comparison does not matter
(`versionKey_ordered_iff`): where one release is spelled with fewer components than another, the
suffixes have to decide the same way (`LengthIrrelevant`).

## The intended order

`Older` and `Same` are the specification, on versions as they are written: a `ReleaseVersion` has
its components, and letters and a number where it is a prerelease. Prereleases of one release with
different letters are in no intended order, so nothing is asked of their keys.
-/

namespace TheRock

/-! ### Versions with a prerelease suffix -/

/-- A dotted numeric release, and the letters and the number of a prerelease. -/
structure ReleaseVersion where
  release : List (List Char)
  pre : Option (List Char × List Char)
  release_ne_nil : release ≠ []
  isDigits_of_mem : ∀ part ∈ release, isDigits part
  pre_spec : ∀ letters number, pre = some (letters, number) →
    (letters ≠ [] ∧ ∀ c ∈ letters, c.isAlpha) ∧ isDigits number

namespace ReleaseVersion

variable {v w : ReleaseVersion}

/-- The text after the release. -/
def suffix (v : ReleaseVersion) : List Char :=
  v.pre.elim [] fun (letters, number) ↦ letters ++ number

def render (v : ReleaseVersion) : String := String.ofList (['.'].intercalate v.release ++ v.suffix)

/-- The components of the release, zero where there are none, in lexicographic order. -/
def components (v : ReleaseVersion) : Lex (ℕ → ℕ) :=
  toLex (PaddedLex.padded (v.release.map toNat))

/-- Within a release: a prerelease comes before the final version, and before those with the same
letters and a greater number. -/
def PreOlder : Option (List Char × List Char) → Option (List Char × List Char) → Prop
  | some _, none => True
  | some (letters, number), some (letters', number') =>
    letters = letters' ∧ toNat number < toNat number'
  | none, _ => False

/-- Within a release: two final versions, or prereleases with the same letters and number. -/
def PreSame : Option (List Char × List Char) → Option (List Char × List Char) → Prop
  | none, none => True
  | some (letters, number), some (letters', number') =>
    letters = letters' ∧ toNat number = toNat number'
  | _, _ => False

/-- The order that versions are meant to have. Prereleases of one release with different letters are
in no order. -/
def Older (v w : ReleaseVersion) : Prop :=
  v.components < w.components ∨ v.components = w.components ∧ PreOlder v.pre w.pre

/-- Two spellings of one version. -/
def Same (v w : ReleaseVersion) : Prop :=
  v.components = w.components ∧ PreSame v.pre w.pre

/-- The keys of two versions are in the order of the versions. -/
structure KeysOrdered (v w : ReleaseVersion) : Prop where
  lt : Older v w → versionKey v.render < versionKey w.render
  eq : Same v w → versionKey v.render = versionKey w.render

/-- When the same release is spelled with fewer components in `v` than in `w`, then `v` is a
prerelease, and `w` is final, or has other letters, or has a greater number. -/
def LengthIrrelevant (v w : ReleaseVersion) : Prop :=
  v.components = w.components → v.release.length < w.release.length →
    ∃ letters number, v.pre = some (letters, number) ∧
      ∀ number', w.pre = some (letters, number') → toNat number < toNat number'

/-! ### The key of a version -/

theorem isDigit_eq_false_of_isAlpha {c : Char} (h : c.isAlpha) : c.isDigit = false := by
  rw [Bool.eq_false_iff]
  intro hdigit
  rw [Char.isDigit_iff_toNat] at hdigit
  have hletter := PythonText.toNat_of_isAlpha h
  have hzero : '0'.toNat = 48 := rfl
  have hnine : '9'.toNat = 57 := rfl
  omega

theorem endsRelease_suffix (v : ReleaseVersion) : endsRelease v.suffix := by
  rcases hpre : v.pre with _ | ⟨letters, number⟩
  · simp [suffix, hpre, endsRelease]
  · obtain ⟨⟨hne, hletters⟩, -⟩ := v.pre_spec _ _ hpre
    obtain ⟨c, cs, rfl⟩ := List.exists_cons_of_ne_nil hne
    have hc := hletters c List.mem_cons_self
    have hdot : c ≠ '.' := by
      rintro rfl
      exact absurd hc (by decide)
    simp [suffix, hpre, endsRelease, isDigit_eq_false_of_isAlpha hc, hdot]

theorem newline_not_mem_suffix (v : ReleaseVersion) : '\n' ∉ v.suffix := by
  rcases hpre : v.pre with _ | ⟨letters, number⟩
  · simp [suffix, hpre]
  · obtain ⟨⟨-, hletters⟩, hnumber⟩ := v.pre_spec _ _ hpre
    intro hmem
    rw [suffix, hpre, Option.elim_some] at hmem
    rcases List.mem_append.1 hmem with hmem | hmem
    · exact absurd (hletters _ hmem) (by decide)
    · exact absurd ((isDigits_iff.1 hnumber).2 _ hmem) (by decide)

theorem matchRelease_render (v : ReleaseVersion) :
    matchRelease v.render = some (v.release, v.suffix) :=
  matchRelease_eq_some_iff.2 ⟨String.toList_ofList, v.release_ne_nil, v.isDigits_of_mem,
    v.endsRelease_suffix, v.newline_not_mem_suffix⟩

/-- The letters and the number are the parts of a suffix. -/
theorem suffixParts_append {letters number : List Char} (hne : letters ≠ [])
    (hletters : ∀ c ∈ letters, c.isAlpha) (hnumber : isDigits number) :
    suffixParts (letters ++ number) = [letters, number] := by
  obtain ⟨hnumberNe, hdigits⟩ := isDigits_iff.1 hnumber
  have hsplit : (letters ++ number).splitBy
      (fun c d ↦ c.isDigit && d.isDigit || c.isAlpha && d.isAlpha) = [letters, number] := by
    rw [List.splitBy_eq_iff]
    refine ⟨by simp, by simp [hne.symm, hnumberNe.symm], ?_, ?_⟩
    · simp only [List.forall_mem_cons, List.not_mem_nil, false_implies, implies_true, and_true]
      constructor
      · refine (List.pairwise_of_forall_mem_list fun c hc d hd ↦ ?_).isChain
        simp [hletters c hc, hletters d hd]
      · refine (List.pairwise_of_forall_mem_list fun c hc d hd ↦ ?_).isChain
        simp [hdigits c hc, hdigits d hd]
    · -- a letter is no digit, so the run of letters ends where the number starts
      refine List.isChain_pair.2 ⟨hne, hnumberNe, ?_⟩
      have hlast := hletters _ (List.getLast_mem hne)
      have hhead := hdigits _ (List.head_mem hnumberNe)
      have halpha : (number.head hnumberNe).isAlpha = false := by
        rw [Bool.eq_false_iff]
        exact fun h ↦ by simp [isDigit_eq_false_of_isAlpha h] at hhead
      simp [isDigit_eq_false_of_isAlpha hlast, halpha]
  rw [suffixParts, hsplit, List.filter_eq_self]
  simp only [List.forall_mem_cons, List.not_mem_nil, false_implies, implies_true, and_true]
  constructor
  · exact List.all_eq_true.2 fun c hc ↦ by simp [Char.isAlphanum, hletters c hc]
  · exact List.all_eq_true.2 fun c hc ↦ by simp [Char.isAlphanum, hdigits c hc]

/-- The part of the key after the release. -/
def suffixKey (v : ReleaseVersion) : Bool ×ₗ List SuffixToken :=
  toLex (v.pre.isNone, v.pre.elim [] fun (letters, number) ↦
    [toLex (.inl (letters.map Char.toLower)), toLex (.inr (toNat number))])

theorem versionKey_render (v : ReleaseVersion) :
    versionKey v.render = toLex (v.release.map toNat, v.suffixKey) := by
  rw [versionKey, matchRelease_render, suffixKey, suffix]
  rcases hpre : v.pre with _ | ⟨letters, number⟩
  · rfl
  · obtain ⟨⟨hne, hletters⟩, hnumber⟩ := v.pre_spec _ _ hpre
    have hnot : isDigits letters = false := by
      rw [Bool.eq_false_iff]
      intro hdigits
      have hhead := (isDigits_iff.1 hdigits).2 _ (List.head_mem hne)
      simp [isDigit_eq_false_of_isAlpha (hletters _ (List.head_mem hne))] at hhead
    simp [suffixParts_append hne hletters hnumber, suffixToken, hnot, hnumber, hne]

/-- **How keys are compared**: by the components, then by their number, then by the suffix. -/
theorem versionKey_lt_iff : versionKey v.render < versionKey w.render ↔
    v.components < w.components ∨ v.components = w.components ∧
      (v.release.length < w.release.length ∨
        v.release.length = w.release.length ∧ v.suffixKey < w.suffixKey) := by
  rw [versionKey_render, versionKey_render, Prod.Lex.toLex_lt_toLex, PaddedLex.lt_iff,
    List.length_map, List.length_map]
  constructor
  · rintro ((hlt | ⟨heq, hlen⟩) | ⟨heq, hlt⟩)
    · exact Or.inl hlt
    · exact Or.inr ⟨heq, Or.inl hlen⟩
    · exact Or.inr ⟨congrArg (fun l ↦ toLex (PaddedLex.padded l)) heq,
        Or.inr ⟨by simpa using congrArg List.length heq, hlt⟩⟩
  · rintro (hlt | ⟨heq, hlen | ⟨hlen, hlt⟩⟩)
    · exact Or.inl (Or.inl hlt)
    · exact Or.inl (Or.inr ⟨heq, hlen⟩)
    · exact Or.inr ⟨PaddedLex.eq_of_padded_eq heq (by simpa using hlen), hlt⟩

theorem suffixKey_lt (h : PreOlder v.pre w.pre) : v.suffixKey < w.suffixKey := by
  rw [suffixKey, suffixKey, Prod.Lex.toLex_lt_toLex]
  rcases hv : v.pre with _ | ⟨letters, number⟩ <;> rcases hw : w.pre with _ | ⟨letters', number'⟩
  · simp [PreOlder, hv] at h
  · simp [PreOlder, hv] at h
  · exact Or.inl Bool.false_lt_true
  · rw [hv, hw] at h
    obtain ⟨rfl, hlt⟩ := h
    refine Or.inr ⟨rfl, List.cons_lt_cons_iff.2 (Or.inr ⟨rfl, List.cons_lt_cons_iff.2 (Or.inl ?_)⟩)⟩
    exact Sum.Lex.inr_lt_inr_iff.2 hlt

theorem suffixKey_eq (h : PreSame v.pre w.pre) : v.suffixKey = w.suffixKey := by
  rw [suffixKey, suffixKey]
  rcases hv : v.pre with _ | ⟨letters, number⟩ <;> rcases hw : w.pre with _ | ⟨letters', number'⟩
  · rfl
  · simp [PreSame, hv, hw] at h
  · simp [PreSame, hv, hw] at h
  · rw [hv, hw] at h
    obtain ⟨rfl, heq⟩ := h
    simp [heq]

/-! ### When the keys are in the order of the versions -/

theorem PreSame.symm {p q : Option (List Char × List Char)} (h : PreSame p q) : PreSame q p := by
  rcases p with _ | ⟨letters, number⟩ <;> rcases q with _ | ⟨letters', number'⟩
  · exact h
  · exact h
  · exact h
  · exact ⟨h.1.symm, h.2.symm⟩

/-- Where the lengths are irrelevant, versions of different lengths are not the same. -/
theorem LengthIrrelevant.not_preSame (h : LengthIrrelevant v w)
    (heq : v.components = w.components) (hlen : v.release.length < w.release.length) :
    ¬ PreSame v.pre w.pre := by
  intro hsame
  obtain ⟨letters, number, hv, hnumber⟩ := h heq hlen
  rcases hw : w.pre with _ | ⟨letters', number'⟩
  · simp [PreSame, hv, hw] at hsame
  · rw [hv, hw] at hsame
    obtain ⟨rfl, hnumberEq⟩ := hsame
    exact absurd hnumberEq (hnumber number' hw).ne

theorem keysOrdered_of_lengthIrrelevant (hvw : LengthIrrelevant v w) (hwv : LengthIrrelevant w v) :
    KeysOrdered v w := by
  constructor
  · rintro (hlt | ⟨heq, hpre⟩)
    · exact versionKey_lt_iff.2 (Or.inl hlt)
    · refine versionKey_lt_iff.2 (Or.inr ⟨heq, ?_⟩)
      rcases lt_trichotomy v.release.length w.release.length with hlen | hlen | hlen
      · exact Or.inl hlen
      · exact Or.inr ⟨hlen, suffixKey_lt hpre⟩
      · -- the later version is the shorter one, so it would have the greater number
        obtain ⟨letters, number, hw, hnumber⟩ := hwv heq.symm hlen
        rcases hv : v.pre with _ | ⟨letters', number'⟩
        · simp [PreOlder, hv] at hpre
        · rw [hv, hw] at hpre
          obtain ⟨rfl, hlt⟩ := hpre
          exact absurd (hnumber number' hv) hlt.asymm
  · rintro ⟨heq, hpre⟩
    -- releases of different lengths have different suffixes
    have hlen : v.release.length = w.release.length := by
      rcases lt_trichotomy v.release.length w.release.length with hlen | hlen | hlen
      · exact absurd hpre (hvw.not_preSame heq hlen)
      · exact hlen
      · exact absurd hpre.symm (hwv.not_preSame heq.symm hlen)
    rw [versionKey_render, versionKey_render, suffixKey_eq hpre,
      PaddedLex.eq_of_padded_eq heq (by simpa using hlen)]

/-- A version that is spelled with fewer components has the smaller key. -/
theorem lengthIrrelevant_of_keysOrdered (hvw : KeysOrdered v w) (hwv : KeysOrdered w v) :
    LengthIrrelevant v w := by
  intro heq hlen
  have hlt : versionKey v.render < versionKey w.render :=
    versionKey_lt_iff.2 (Or.inr ⟨heq, Or.inl hlen⟩)
  have hsame : ¬ PreSame v.pre w.pre := fun h ↦ hlt.ne (hvw.eq ⟨heq, h⟩)
  have holder : ¬ PreOlder w.pre v.pre := fun h ↦ hlt.asymm (hwv.lt (Or.inr ⟨heq.symm, h⟩))
  rcases hv : v.pre with _ | ⟨letters, number⟩
  · rcases hw : w.pre with _ | ⟨letters', number'⟩
    · exact absurd (by rw [hv, hw]; trivial) hsame
    · exact absurd (by rw [hv, hw]; trivial) holder
  · refine ⟨letters, number, rfl, fun number' hw ↦ ?_⟩
    rw [hv, hw] at hsame holder
    rcases lt_trichotomy (toNat number) (toNat number') with hlt | heq | hgt
    · exact hlt
    · exact absurd ⟨rfl, heq⟩ hsame
    · exact absurd ⟨rfl, hgt⟩ holder

/-- **When the keys are in the order of the versions**, and the last version of the sorted list is
one that nothing in the list is newer than: exactly when no two of them are told apart by the number
of their components alone. -/
theorem versionKey_ordered_iff (versions : List ReleaseVersion) :
    ((∀ v ∈ versions, ∀ w ∈ versions, KeysOrdered v w) ∧
      ∀ v, LastMax.lastMax (fun v ↦ versionKey v.render) versions = some v →
        ∀ w ∈ versions, ¬ Older v w) ↔
      ∀ v ∈ versions, ∀ w ∈ versions, LengthIrrelevant v w := by
  constructor
  · rintro ⟨hordered, -⟩ v hv w hw
    exact lengthIrrelevant_of_keysOrdered (hordered v hv w hw) (hordered w hw v hv)
  · intro hlength
    have hordered : ∀ v ∈ versions, ∀ w ∈ versions, KeysOrdered v w := fun v hv w hw ↦
      keysOrdered_of_lengthIrrelevant (hlength v hv w hw) (hlength w hw v hv)
    refine ⟨hordered, fun v hlast w hw holder ↦ ?_⟩
    exact ((hordered v (LastMax.mem_of_lastMax hlast) w hw).lt holder).not_ge
      (LastMax.le_of_lastMax hlast hw)

/-- The final version `10.1`. -/
def final : ReleaseVersion where
  release := [['1', '0'], ['1']]
  pre := none
  release_ne_nil := by decide
  isDigits_of_mem := by decide
  pre_spec := nofun

/-- Its prerelease `10.1.0rc1`. -/
def candidate : ReleaseVersion where
  release := [['1', '0'], ['1'], ['0']]
  pre := some (['r', 'c'], ['1'])
  release_ne_nil := by decide
  isDigits_of_mem := by decide
  pre_spec := by
    rintro letters number h
    obtain ⟨rfl, rfl⟩ := Prod.mk.inj (Option.some.inj h)
    decide

/-- A release spelled without its zero comes before its own prereleases, and one of them is
selected. -/
theorem not_versionKey_ordered : Older candidate final ∧
    ¬ versionKey candidate.render < versionKey final.render ∧
    findVersion .asBuilt ("therock-dist-linux-gfx1151-10.1.tar.gz " ++
      "therock-dist-linux-gfx1151-10.1.0rc1.tar.gz") "gfx1151" (some "10.1") =
        .ok candidate.render := by
  refine ⟨Or.inr ⟨congrArg toLex (funext fun i ↦ ?_), trivial⟩, by decide, by decide⟩
  match i with
  | 0 | 1 | 2 => rfl
  | i + 3 => rfl

/-- **What the tarball updater selects** among such versions: nothing that it could have selected is
newer. -/
theorem not_older_of_findVersion {order : SetOrder} {index target : String}
    {series : Option String} (h : findVersion order index target series = .ok v.render)
    (hw : w.render ∈ admittedVersions order index target series) (hvw : LengthIrrelevant v w)
    (hwv : LengthIrrelevant w v) : ¬ Older v w :=
  fun holder ↦ ((keysOrdered_of_lengthIrrelevant hvw hwv).lt holder).not_ge
    ((findVersion_eq_ok h).2 _ hw)

end ReleaseVersion

end TheRock
