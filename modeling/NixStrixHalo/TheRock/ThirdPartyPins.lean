import NixStrixHalo.Library.Transition
import NixStrixHalo.TheRock.RemoteRefs
import NixStrixHalo.TheRock.ThirdParty

/-!
# The third-party pin file over its runs

`update-rocm-third-party.py` rewrites `rocm-third-party.json` from a staged source tree. The hashes
of the ESMI library and of the SPIR-V headers are taken from the file that is there if it has the
same source at the same revision, and prefetched otherwise. Over any runs a hash is that of the very
revision it stands beside, and a run on the tree that the file was made from needs no network
(`sound_of_reach`).

## Which hashes

`Sound` is about the two sources that the script prefetches. The hashes of the archives are copied
from the build files of the tree, and `ThirdParty` says when they stand beside their own URLs.

## Who is trusted

What the network gives is within two relations, between sources and hashes, and a hash on the
command line is that of the source that the tree names (`Honest`). The runs start where there is no
file; a file that is there has been written by an earlier run.
-/

namespace TheRock.ThirdParty

open PythonText Pattern

/-! ### What the staged tree says -/

/-- What a run reads of the staged tree: the `CMakeLists.txt` files below `third-party` in the order
of their paths, the one of `amdsmi`, and `spirv-headers-tag.conf`. -/
structure Staged where
  cmakeLists : List (List Char)
  amdsmi : List Char
  spirvHeadersTag : List Char

/-- The class `[0-9a-f]`. -/
def isLowerHex (c : Char) : Bool := c.isDigit || ('a' ≤ c && c ≤ 'f')

/-- `set\(ESMI_GIT_HASH\s+"([0-9a-f]{40})"\)`. -/
def esmiHashPattern (_before : Option Char) (text : List Char) : Option (List Char × ℕ) := do
  let rest ← literal "set(ESMI_GIT_HASH".toList text
  let (_, rest) ← many1 isSpace rest
  let rest ← literal ['"'] rest
  let hash := rest.take 40
  let rest ← literal ['"', ')'] (rest.drop 40)
  if hash.length = 40 ∧ hash.all isLowerHex then some (hash, text.length - rest.length) else none

/-- `set\(current_esmi_tag\s+"([^"]+)"\)`. -/
def esmiTagPattern (_before : Option Char) (text : List Char) : Option (List Char × ℕ) := do
  let rest ← literal "set(current_esmi_tag".toList text
  let (_, rest) ← many1 isSpace rest
  let rest ← literal ['"'] rest
  let (tag, rest) ← many1 (· != '"') rest
  let rest ← literal ['"', ')'] rest
  some (tag, text.length - rest.length)

/-- How a run ends early. -/
inductive PinError
  | calledProcessError
  | ref (error : RefError)
  | scan (error : ScanError)
  | noEsmiPin
  deriving DecidableEq

/-- What a run gets from outside: what `git ls-remote` prints for a tag of the ESMI library, and the
hashes of a revision of a repository and of an archive. -/
structure PinWorld where
  lsRemote : List Char → Option (List Char)
  prefetchGit : List Char → List Char → Option (List Char)
  prefetchFile : List Char → Option (List Char)

/-- `parse_esmi_pin`: the ref and the revision. -/
def parseEsmiPin (w : PinWorld) (cmake : List Char) :
    Except PinError (List Char × List Char) :=
  match (found esmiHashPattern cmake).head? with
  | some rev => .ok (rev, rev)
  | none =>
    match (found esmiTagPattern cmake).head? with
    | some tag =>
      match w.lsRemote tag with
      | some stdout =>
        match lsRemotePeeledTag stdout tag with
        | .ok rev => .ok (tagRef tag, rev)
        | .error error => .error (.ref error)
      | none => .error .calledProcessError
    | none => .error .noEsmiPin

/-- `ESMI_IB_LIBRARY_URL`. -/
def esmiIbLibraryUrl : List Char := "https://github.com/amd/esmi_ib_library.git".toList

/-- `url` of `spirv`. -/
def spirvHeadersUrl (tag : List Char) : List Char :=
  "https://github.com/KhronosGroup/SPIRV-Headers/archive/".toList ++ tag ++ ".tar.gz".toList

/-! ### The file -/

/-- A source with its hash. -/
structure HashedSource where
  url : List Char
  rev : List Char
  hash : List Char
  deriving DecidableEq

/-- `rocm-third-party.json`. -/
structure ThirdPartyPins where
  archives : List (List Char × Archive)
  esmiRef : List Char
  esmiIbLibrary : HashedSource
  spirvHeaders : HashedSource
  deriving DecidableEq

/-- The command line. -/
structure PinArgs where
  spirvHeadersHash : List Char := []
  esmiIbLibraryHash : List Char := []

/-- `source_hash`; `prefetched` is what is printed for the source. -/
def sourceHash (prefetched : Option (List Char)) (url rev : List Char)
    (previous : Option HashedSource) : Except PinError (List Char) :=
  match previous.filter fun p ↦ url = p.url ∧ rev = p.rev ∧ p.hash ≠ [] with
  | some p => .ok p.hash
  | none => prefetched.elim (.error .calledProcessError) .ok

/-- `args.hash or source_hash(...)`. -/
def chosenHash (given : List Char) (prefetched : Option (List Char)) (url rev : List Char)
    (previous : Option HashedSource) : Except PinError (List Char) :=
  if given ≠ [] then .ok given else sourceHash prefetched url rev previous

variable (c : WordClass)

/-- `main` of `update-rocm-third-party.py`: the file it writes. -/
def main (w : PinWorld) (args : PinArgs) (staged : Staged) (previous : Option ThirdPartyPins) :
    Except PinError ThirdPartyPins := do
  let tag := PythonText.strip staged.spirvHeadersTag
  let (ref, rev) ← parseEsmiPin w staged.amdsmi
  let esmiHash ← chosenHash args.esmiIbLibraryHash (w.prefetchGit esmiIbLibraryUrl rev)
    esmiIbLibraryUrl rev (previous.map ThirdPartyPins.esmiIbLibrary)
  let spirvHash ← chosenHash args.spirvHeadersHash (w.prefetchFile (spirvHeadersUrl tag))
    (spirvHeadersUrl tag) tag (previous.map ThirdPartyPins.spirvHeaders)
  let archives ← (scanArchives c staged.cmakeLists).mapError .scan
  return { archives, esmiRef := ref
           esmiIbLibrary := ⟨esmiIbLibraryUrl, rev, esmiHash⟩
           spirvHeaders := ⟨spirvHeadersUrl tag, tag, spirvHash⟩ }

/-! ### One run -/

variable {c} {w : PinWorld} {args : PinArgs} {staged : Staged} {previous : Option ThirdPartyPins}
  {out : ThirdPartyPins}

/-- **What a run writes.** -/
theorem main_eq_ok_iff : main c w args staged previous = .ok out ↔
    ∃ ref rev esmiHash spirvHash archives,
      parseEsmiPin w staged.amdsmi = .ok (ref, rev) ∧
      chosenHash args.esmiIbLibraryHash (w.prefetchGit esmiIbLibraryUrl rev) esmiIbLibraryUrl rev
        (previous.map ThirdPartyPins.esmiIbLibrary) = .ok esmiHash ∧
      chosenHash args.spirvHeadersHash
        (w.prefetchFile (spirvHeadersUrl (PythonText.strip staged.spirvHeadersTag)))
        (spirvHeadersUrl (PythonText.strip staged.spirvHeadersTag))
        (PythonText.strip staged.spirvHeadersTag)
        (previous.map ThirdPartyPins.spirvHeaders) = .ok spirvHash ∧
      scanArchives c staged.cmakeLists = .ok archives ∧
      out = { archives, esmiRef := ref
              esmiIbLibrary := ⟨esmiIbLibraryUrl, rev, esmiHash⟩
              spirvHeaders := ⟨spirvHeadersUrl (PythonText.strip staged.spirvHeadersTag),
                PythonText.strip staged.spirvHeadersTag, spirvHash⟩ } := by
  rw [main]
  constructor
  · intro h
    obtain ⟨⟨ref, rev⟩, hpin, h⟩ := Result.bind_eq_ok_iff.1 h
    obtain ⟨esmiHash, hesmi, h⟩ := Result.bind_eq_ok_iff.1 h
    obtain ⟨spirvHash, hspirv, h⟩ := Result.bind_eq_ok_iff.1 h
    obtain ⟨archives, harchives, h⟩ := Result.bind_eq_ok_iff.1 h
    rcases hscan : scanArchives c staged.cmakeLists with error | archives'
    · rw [hscan] at harchives
      cases harchives
    · rw [hscan] at harchives
      obtain rfl : archives' = archives := Except.ok.inj harchives
      exact ⟨ref, rev, esmiHash, spirvHash, archives', hpin, hesmi, hspirv, rfl,
        (Except.ok.inj h).symm⟩
  · rintro ⟨ref, rev, esmiHash, spirvHash, archives, hpin, hesmi, hspirv, harchives, rfl⟩
    refine Result.bind_eq_ok_iff.2 ⟨(ref, rev), hpin, Result.bind_eq_ok_iff.2 ⟨esmiHash, hesmi,
      Result.bind_eq_ok_iff.2 ⟨spirvHash, hspirv, Result.bind_eq_ok_iff.2 ⟨archives, ?_, rfl⟩⟩⟩⟩
    rw [harchives]
    rfl

/-- A hash is given, was prefetched, or is that of the previous file for the same source. -/
theorem chosenHash_eq_ok {given url rev hash : List Char} {prefetched : Option (List Char)}
    {previous : Option HashedSource} (h : chosenHash given prefetched url rev previous = .ok hash) :
    given ≠ [] ∧ hash = given ∨ prefetched = some hash ∨
      previous = some ⟨url, rev, hash⟩ ∧ hash ≠ [] := by
  rw [chosenHash] at h
  split at h
  next hgiven => exact Or.inl ⟨hgiven, (Except.ok.inj h).symm⟩
  · refine Or.inr ?_
    rw [sourceHash] at h
    split at h
    next p hfilter =>
      obtain ⟨rfl, hsame⟩ := Option.filter_eq_some_iff.1 hfilter
      obtain ⟨rfl, rfl, hne⟩ := of_decide_eq_true hsame
      obtain rfl : p.hash = hash := Except.ok.inj h
      exact Or.inr ⟨rfl, hne⟩
    · rcases prefetched with _ | prefetched
      · cases h
      · exact Or.inl (congrArg some (Except.ok.inj h))

/-- The hash of the previous file is taken again. -/
theorem chosenHash_again {url rev hash : List Char} (prefetched : Option (List Char))
    (h : hash ≠ []) : chosenHash [] prefetched url rev (some ⟨url, rev, hash⟩) = .ok hash := by
  rw [chosenHash, if_neg (not_not.2 rfl), sourceHash, Option.filter_some_pos (by simp [h])]

/-! ### Runs -/

section

variable (FetchedGit : List Char → List Char → List Char → Prop)
  (FetchedFile : List Char → List Char → Prop)

/-- What is prefetched in a run is in the relations between sources and hashes. -/
structure PinWorld.Within (w : PinWorld) : Prop where
  git : ∀ url rev hash, w.prefetchGit url rev = some hash → FetchedGit url rev hash
  file : ∀ url hash, w.prefetchFile url = some hash → FetchedFile url hash

/-- A hash on the command line is that of the source that the staged tree names. -/
structure Honest (w : PinWorld) (args : PinArgs) (staged : Staged) : Prop where
  esmi : args.esmiIbLibraryHash ≠ [] → ∀ ref rev, parseEsmiPin w staged.amdsmi = .ok (ref, rev) →
    FetchedGit esmiIbLibraryUrl rev args.esmiIbLibraryHash
  spirv : args.spirvHeadersHash ≠ [] →
    FetchedFile (spirvHeadersUrl (PythonText.strip staged.spirvHeadersTag)) args.spirvHeadersHash

/-- The hashes of the two sources that the script prefetches are those of what they stand beside.
Nothing is said of the hashes of `archives`, which are copied from the build files. -/
structure Sound (pins : ThirdPartyPins) : Prop where
  esmi : FetchedGit pins.esmiIbLibrary.url pins.esmiIbLibrary.rev pins.esmiIbLibrary.hash
  spirv : FetchedFile pins.spirvHeaders.url pins.spirvHeaders.hash

variable {FetchedGit FetchedFile}

/-- A run writes sound hashes over a sound file. -/
theorem Sound.main (hw : w.Within FetchedGit FetchedFile)
    (hargs : Honest FetchedGit FetchedFile w args staged)
    (hprevious : ∀ pins ∈ previous, Sound FetchedGit FetchedFile pins)
    (h : main c w args staged previous = .ok out) : Sound FetchedGit FetchedFile out := by
  obtain ⟨ref, rev, esmiHash, spirvHash, archives, hpin, hesmi, hspirv, -, rfl⟩ :=
    main_eq_ok_iff.1 h
  constructor
  · rcases chosenHash_eq_ok hesmi with ⟨hgiven, rfl⟩ | hfetched | ⟨hsame, -⟩
    · exact hargs.esmi hgiven ref rev hpin
    · exact hw.git _ _ _ hfetched
    · obtain ⟨pins, hpins, heq⟩ := Option.map_eq_some_iff.1 hsame
      have hsound := (hprevious pins hpins).esmi
      rwa [heq] at hsound
  · rcases chosenHash_eq_ok hspirv with ⟨hgiven, rfl⟩ | hfetched | ⟨hsame, -⟩
    · exact hargs.spirv hgiven
    · exact hw.file _ _ hfetched
    · obtain ⟨pins, hpins, heq⟩ := Option.map_eq_some_iff.1 hsame
      have hsound := (hprevious pins hpins).spirv
      rwa [heq] at hsound

/-- A run on the tree that the file was made from finds every hash in the file. -/
theorem main_again (h : main c w args staged previous = .ok out)
    (hesmi : out.esmiIbLibrary.hash ≠ []) (hspirv : out.spirvHeaders.hash ≠ [])
    {w' : PinWorld} (hw' : w'.lsRemote = w.lsRemote) :
    main c w' {} staged (some out) = .ok out := by
  obtain ⟨ref, rev, esmiHash, spirvHash, archives, hpin, -, -, harchives, rfl⟩ :=
    main_eq_ok_iff.1 h
  refine main_eq_ok_iff.2 ⟨ref, rev, esmiHash, spirvHash, archives, ?_,
    chosenHash_again _ hesmi, chosenHash_again _ hspirv, harchives, rfl⟩
  rw [← hpin, parseEsmiPin, parseEsmiPin, hw']

/-- A run. -/
structure PinRun where
  world : PinWorld
  args : PinArgs
  staged : Staged

/-- The runs that write. -/
def pinStep (c : WordClass) (file : Option ThirdPartyPins) (run : PinRun) :
    Option (Option ThirdPartyPins) :=
  (main c run.world run.args run.staged file).toOption.map some

/-- The network and the command line of the run are in the relations. -/
def PinRun.Genuine (FetchedGit : List Char → List Char → List Char → Prop)
    (FetchedFile : List Char → List Char → Prop) (run : PinRun) : Prop :=
  run.world.Within FetchedGit FetchedFile ∧
    Honest FetchedGit FetchedFile run.world run.args run.staged

/-- **The third-party pin file over runs**: no run leaves a hash beside a source that it is not of,
and repeating a run on the same tree changes nothing and prefetches nothing. -/
theorem sound_of_reach {file : Option ThirdPartyPins}
    (hgit : ∀ url rev, ¬FetchedGit url rev []) (hfile : ∀ url, ¬FetchedFile url [])
    (h : Transition.Reach (pinStep c) (fun _ run ↦ run.Genuine FetchedGit FetchedFile) none file) :
    (∀ pins ∈ file, Sound FetchedGit FetchedFile pins) ∧
      ∀ run : PinRun, run.Genuine FetchedGit FetchedFile →
        ∀ out, main c run.world run.args run.staged file = .ok out →
          ∀ w', w'.lsRemote = run.world.lsRemote →
            main c w' {} run.staged (some out) = .ok out := by
  have hsound : ∀ pins ∈ file, Sound FetchedGit FetchedFile pins := by
    refine h.invariant (I := fun file ↦ ∀ pins ∈ file, Sound FetchedGit FetchedFile pins) nofun ?_
    rintro file run file' - hprevious ⟨hw, hargs⟩ hstep
    obtain ⟨out, hout, rfl⟩ := Option.map_eq_some_iff.1 hstep
    rcases hmain : main c run.world run.args run.staged file with error | out'
    · rw [hmain] at hout
      cases hout
    · rw [hmain] at hout
      obtain rfl : out' = out := Option.some.inj hout
      rintro pins ⟨⟩
      exact Sound.main hw hargs hprevious hmain
  -- no hash that was fetched is empty, so the second run takes both over
  refine ⟨hsound, fun run hrun out hout w' hw' ↦ ?_⟩
  have hnew := Sound.main hrun.1 hrun.2 hsound hout
  refine main_again hout (fun hempty ↦ ?_) (fun hempty ↦ ?_) hw'
  · exact hgit _ _ (hempty ▸ hnew.esmi)
  · exact hfile _ (hempty ▸ hnew.spirv)

end

/-- A network on which the hash of a source is its name. -/
def namingWorld : PinWorld where
  lsRemote _ := none
  prefetchGit _ rev := some ("sha256-".toList ++ rev)
  prefetchFile url := some ("sha256-".toList ++ url)

def stagedTree : Staged where
  cmakeLists := []
  amdsmi := "set(ESMI_GIT_HASH \"0123456789012345678901234567890123456789\")".toList
  spirvHeadersTag := "v1\n".toList

def stagedPins : ThirdPartyPins where
  archives := []
  esmiRef := "0123456789012345678901234567890123456789".toList
  esmiIbLibrary := ⟨esmiIbLibraryUrl, "0123456789012345678901234567890123456789".toList,
    "sha256-0123456789012345678901234567890123456789".toList⟩
  spirvHeaders := ⟨spirvHeadersUrl "v1".toList, "v1".toList,
    "sha256-".toList ++ spirvHeadersUrl "v1".toList⟩

theorem main_stagedTree : main .ascii namingWorld {} stagedTree none = .ok stagedPins := by rfl

/-- The hash of a source is its name. -/
abbrev NamedGit (_url rev hash : List Char) : Prop := hash = "sha256-".toList ++ rev

abbrev NamedFile (url hash : List Char) : Prop := hash = "sha256-".toList ++ url

theorem sound_of_reach_stagedTree : Sound NamedGit NamedFile stagedPins ∧
    ∀ w', w'.lsRemote = namingWorld.lsRemote →
      main .ascii w' {} stagedTree (some stagedPins) = .ok stagedPins := by
  let run : PinRun := ⟨namingWorld, {}, stagedTree⟩
  have hrun : run.Genuine NamedGit NamedFile :=
    ⟨⟨fun _ _ _ h ↦ (Option.some.inj h).symm, fun _ _ h ↦ (Option.some.inj h).symm⟩,
      ⟨fun h ↦ absurd rfl h, fun h ↦ absurd rfl h⟩⟩
  have hstep : pinStep .ascii none run = some (some stagedPins) :=
    congrArg (fun result ↦ result.toOption.map some) main_stagedTree
  have hreach : Transition.Reach (pinStep .ascii) (fun _ run ↦ run.Genuine NamedGit NamedFile) none
      (some stagedPins) := Transition.Reach.refl.tail hrun hstep
  obtain ⟨hsound, hagain⟩ := sound_of_reach (fun _ _ h ↦ by simp [NamedGit] at h)
    (fun _ h ↦ by simp [NamedFile] at h) hreach
  exact ⟨hsound _ rfl, hagain run hrun stagedPins (main_again main_stagedTree (by decide)
    (by decide) rfl)⟩

end TheRock.ThirdParty
