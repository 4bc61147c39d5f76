import NixStrixHalo.Library.Base64
import NixStrixHalo.Library.OrderedDict
import NixStrixHalo.Library.Pairing
import NixStrixHalo.Library.Pattern
import NixStrixHalo.Library.Result
import NixStrixHalo.TheRock.WheelLinks
import Mathlib.Order.Monotone.Basic

/-!
# The archives of the third-party builds

`scan_archives` reads the `CMakeLists.txt` files of the third-party libraries line by line. A `URL`
line leaves its URL pending, a `URL_HASH` line records the pending URL under the last component of
its path. Nothing but a hash ends the wait, and nothing keeps two URLs with one file name apart, so
the scan is lossless exactly when hashes only follow URLs of their own declaration and file names
are unique (`lossless_iff`).

## Lines and pairs

What a line is for the scan is decided by itself and by the variables of its file (`readLine`), so a
file is a list of events, and pairing them is the general `Pairing`: a URL is paired with the next
hash if no other URL is between. The regular expressions are those of the source, and what `\w`
matches outside ASCII is left open (`WordClass`).

## What should be recorded

`CMakeFile` says of each line in which declaration it stands. `Lossless` is what the scan should be
like: every URL with its own hash is an entry, no entry has the hash of another declaration, and no
two different archives have the same name. `Separable` is the condition on the files.
-/

namespace TheRock.ThirdParty

open PythonText Pattern Pairing

/-! ### Patterns -/

/-- What `\w` matches, as far as ASCII decides it. -/
structure WordClass where
  isWord : Char → Bool
  isWord_ascii : ∀ c, c.toNat < 128 → isWord c = (c.isAlphanum || c == '_')
  isSpace_of_isWord : ∀ c, isWord c → isSpace c = false

/-- `\w` with `re.ASCII`. -/
def WordClass.ascii : WordClass where
  isWord c := c.isAlphanum || c == '_'
  isWord_ascii _ _ := rfl
  isSpace_of_isWord c h := by
    obtain halphanum | hunderscore : c.isAlphanum ∨ c = '_' := by simpa using h
    · have hcode := toNat_of_isAlphanum halphanum
      exact isSpace_of_toNat (by omega)
    · exact hunderscore ▸ rfl

variable (w : WordClass)

/-- `^\s*set\((\w+)\s+"([^"]+)"\)` with `re.MULTILINE`. -/
def setPattern (before : Option Char) (text : List Char) :
    Option ((List Char × List Char) × ℕ) := do
  let rest ← literal "set(".toList (text.dropWhile isSpace)
  let (name, rest) ← many1 w.isWord rest
  let (_, rest) ← many1 isSpace rest
  let rest ← literal ['"'] rest
  let (value, rest) ← many1 (· != '"') rest
  let rest ← literal ['"', ')'] rest
  if before.all (· == '\n') then some ((name, value), text.length - rest.length) else none

/-- `cmake_vars`. -/
def cmakeVars (text : List Char) : List (List Char × List Char) :=
  OrderedDict.ofPairs (found (setPattern w) text)

/-- `\$\{(\w+)\}`. -/
def refPattern (_before : Option Char) (text : List Char) : Option (List Char × ℕ) := do
  let rest ← literal ['$', '{'] text
  let (name, rest) ← many1 w.isWord rest
  let rest ← literal ['}'] rest
  some (name, text.length - rest.length)

/-- `value.strip('"')`. -/
def stripQuotes (value : List Char) : List Char :=
  ((value.dropWhile (· == '"')).reverse.dropWhile (· == '"')).reverse

/-- `expand`. -/
def expand (value : List Char) (vars : List (List Char × List Char)) : List Char :=
  let value := stripQuotes (PythonText.strip value)
  let value :=
    if ['$', '{'] <+: value ∧ ['}'] <:+ value then
      (OrderedDict.get? vars (value.drop 2).dropLast).getD value
    else value
  replace (refPattern w)
    (fun name ↦ (OrderedDict.get? vars name).getD ('$' :: '{' :: (name ++ ['}']))) value

/-! ### Lines -/

inductive ShaAlgo
  | sha256
  | sha512
  deriving DecidableEq

/-- `algo.lower()`. -/
def ShaAlgo.lower : ShaAlgo → List Char
  | .sha256 => "sha256".toList
  | .sha512 => "sha512".toList

/-- `sri`. `bytes.fromhex` raises a `ValueError` on an odd number of digits. -/
def sri (algo : ShaAlgo) (hexDigest : List Char) : Option (List Char) :=
  (Base64.fromhex hexDigest).map fun bytes ↦ algo.lower ++ '-' :: Base64.encode bytes

/-- `URL\s+(.+)$`, on a stripped line: something follows the spaces, and a line has no newline. -/
def urlMatch (line : List Char) : Option (List Char) := do
  let rest ← literal "URL".toList line
  let (_, value) ← many1 isSpace rest
  if value = [] then none else some value

/-- `URL_HASH\s+"?(SHA(256|512))=([0-9A-Fa-f]+)"?`. -/
def hashMatch (line : List Char) : Option (ShaAlgo × List Char) := do
  let rest ← literal "URL_HASH".toList line
  let (_, rest) ← many1 isSpace rest
  let rest := (literal ['"'] rest).getD rest
  let (algo, rest) ←
    ((literal "SHA256=".toList rest).map (ShaAlgo.sha256, ·)).or
      ((literal "SHA512=".toList rest).map (ShaAlgo.sha512, ·))
  let (digest, _) ← many1 (fun c ↦ (Base64.hexValue c).isSome) rest
  some (algo, digest)

/-- What a line is for the scan. -/
inductive Line
  | url (value : List Char)
  | hash (algo : ShaAlgo) (digest : List Char)
  | other
  deriving DecidableEq

def readLine (rawLine : List Char) : Line :=
  let line := PythonText.strip rawLine
  if line = [] ∨ ['#'] <+: line then .other
  else
    match urlMatch line with
    | some value => .url value
    | none =>
      match hashMatch line with
      | some (algo, digest) => .hash algo digest
      | none => .other

/-! ### The scan -/

/-- An entry of the result. -/
structure Archive where
  url : List Char
  hash : List Char
  deriving DecidableEq

inductive ScanError
  | valueError
  deriving DecidableEq

/-- `archives` and `pending_url`. -/
structure Scan where
  archives : List (List Char × Archive)
  pendingUrl : Option (List Char)

/-- `url.startswith("https://")`. -/
def isHttps (url : List Char) : Bool := "https://".toList.isPrefixOf url

def scanLine (vars : List (List Char × List Char)) (s : Scan) (rawLine : List Char) :
    Except ScanError Scan :=
  match readLine rawLine, s.pendingUrl with
  | .url value, _ => .ok { s with pendingUrl := some (expand w value vars) }
  | .hash algo digest, some url =>
    if isHttps url then
      match sri algo digest with
      | none => .error .valueError
      | some hash => .ok ⟨OrderedDict.insert (pathName url) ⟨url, hash⟩ s.archives, none⟩
    else .ok s
  | .hash _ _, none => .ok s
  | .other, _ => .ok s

def scanFile (archives : List (List Char × Archive)) (text : List Char) :
    Except ScanError (List (List Char × Archive)) :=
  ((splitlines text).foldlM (scanLine w (cmakeVars w text)) ⟨archives, none⟩).map Scan.archives

/-- `scan_archives`, on the texts of the files in the order of their paths. -/
def scanArchives (texts : List (List Char)) : Except ScanError (List (List Char × Archive)) :=
  texts.foldlM (scanFile w) []

/-! ### What the scan pairs -/

/-- A line as the pairing sees it. -/
def event (vars : List (List Char × List Char)) (rawLine : List Char) :
    Event (List Char) (ShaAlgo × List Char) :=
  match readLine rawLine with
  | .url value =>
    if isHttps (expand w value vars) then .start (expand w value vars) else .reset
  | .hash algo digest => .finish (algo, digest)
  | .other => .other

/-- The lines of a text. -/
def events (text : List Char) : List (Event (List Char) (ShaAlgo × List Char)) :=
  (splitlines text).map (event w (cmakeVars w text))

/-- The pairs of URL and hash that the scan records, with the numbers of their lines. -/
def attachments (text : List Char) : List (Pair (List Char) (ShaAlgo × List Char)) :=
  pairs 0 none (events w text)

/-- The entry for a pair, under its key. -/
def entry (p : Pair (List Char) (ShaAlgo × List Char)) : Option (List Char × Archive) :=
  (sri p.finished.1 p.finished.2).map fun hash ↦ (pathName p.started, ⟨p.started, hash⟩)

/-- Recording a pair. -/
def attach (archives : List (List Char × Archive))
    (p : Pair (List Char) (ShaAlgo × List Char)) :
    Except ScanError (List (List Char × Archive)) :=
  match entry p with
  | some (name, archive) => .ok (OrderedDict.insert name archive archives)
  | none => .error .valueError

variable {w}

theorem event_of_url {vars : List (List Char × List Char)} {rawLine value : List Char}
    (h : readLine rawLine = .url value) :
    event w vars rawLine =
      if isHttps (expand w value vars) then .start (expand w value vars) else .reset := by
  rw [event, h]

theorem event_of_hash {vars : List (List Char × List Char)} {rawLine digest : List Char}
    {algo : ShaAlgo} (h : readLine rawLine = .hash algo digest) :
    event w vars rawLine = .finish (algo, digest) := by
  rw [event, h]

theorem event_of_other {vars : List (List Char × List Char)} {rawLine : List Char}
    (h : readLine rawLine = .other) : event w vars rawLine = .other := by
  rw [event, h]

/-- A hash behind an `https` URL is recorded. -/
theorem scanLine_of_hash {vars : List (List Char × List Char)} {s : Scan}
    {rawLine url digest : List Char} {algo : ShaAlgo} (h : readLine rawLine = .hash algo digest)
    (hurl : s.pendingUrl = some url) (hhttps : isHttps url) (i j : ℕ) :
    scanLine w vars s rawLine =
      (attach s.archives ⟨i, url, j, algo, digest⟩).map fun archives ↦ ⟨archives, none⟩ := by
  rw [scanLine, h, hurl, attach, entry]
  simp only [hhttps, if_true]
  rcases sri algo digest with _ | hash
  · rfl
  · rfl

/-- A run over lines records the pairs of their events. -/
theorem foldlM_scanLine (vars : List (List Char × List Char)) (lines : List (List Char)) (n : ℕ)
    (s : Scan) {pending : Option (ℕ × List Char)}
    (hpending : pending.map Prod.snd = s.pendingUrl.filter isHttps) :
    (lines.foldlM (scanLine w vars) s).map Scan.archives =
      (pairs n pending (lines.map (event w vars))).foldlM attach s.archives := by
  induction lines generalizing n s pending with
  | nil => rfl
  | cons line lines ih =>
    rw [List.foldlM_cons, List.map_cons]
    rcases hline : readLine line with value | ⟨algo, digest⟩ | _
    · -- a URL replaces what is pending, and one that is not `https` is as good as none
      have hstep : scanLine w vars s line = .ok ⟨s.archives, some (expand w value vars)⟩ := by
        rw [scanLine, hline]
      rw [hstep, Result.ok_bind, event_of_url hline]
      by_cases hhttps : isHttps (expand w value vars)
      · rw [if_pos hhttps, pairs]
        exact ih (n + 1) _ (Option.filter_some_pos hhttps).symm
      · rw [if_neg hhttps, pairs]
        exact ih (n + 1) _ (Option.filter_some_neg (Bool.eq_false_iff.2 hhttps)).symm
    · rw [event_of_hash hline]
      rcases hfilter : s.pendingUrl.filter isHttps with _ | url
      · -- the hash is skipped
        have hstep : scanLine w vars s line = .ok s := by
          rcases hurl : s.pendingUrl with _ | url
          · rw [scanLine, hline, hurl]
          · rw [hurl, Option.filter_some_eq_none] at hfilter
            rw [scanLine, hline, hurl]
            exact if_neg hfilter
        obtain rfl : pending = none := by simpa [hfilter] using hpending
        rw [hstep, Result.ok_bind, pairs, ih (n + 1) s]
        exact hfilter.symm
      · obtain ⟨hurl, hhttps⟩ := Option.filter_eq_some_iff.1 hfilter
        rw [hfilter] at hpending
        obtain ⟨⟨i, url'⟩, rfl, rfl⟩ := Option.map_eq_some_iff.1 hpending
        rw [scanLine_of_hash hline hurl hhttps i n, pairs, List.foldlM_cons]
        rcases attach s.archives ⟨i, url', n, algo, digest⟩ with e | archives
        · rfl
        · exact ih (n + 1) ⟨archives, none⟩ rfl
    · have hstep : scanLine w vars s line = .ok s := by rw [scanLine, hline]
      rw [hstep, Result.ok_bind, event_of_other hline, pairs, ih (n + 1) s hpending]

theorem scanFile_eq (archives : List (List Char × Archive)) (text : List Char) :
    scanFile w archives text = (attachments w text).foldlM attach archives :=
  foldlM_scanLine _ _ 0 ⟨archives, none⟩ rfl

/-- **The scan records the pairs of all files**, one after the other. -/
theorem scanArchives_eq (texts : List (List Char)) :
    scanArchives w texts = (texts.flatMap (attachments w)).foldlM attach [] := by
  suffices h : ∀ archives, texts.foldlM (scanFile w) archives =
      (texts.flatMap (attachments w)).foldlM attach archives from h []
  induction texts with
  | nil => exact fun _ ↦ rfl
  | cons text texts ih =>
    intro archives
    rw [List.foldlM_cons, List.flatMap_cons, List.foldlM_append, scanFile_eq]
    simp only [ih]

/-! ### Hashes -/

theorem ShaAlgo.length_lower (algo : ShaAlgo) : algo.lower.length = 6 := by
  rcases algo with _ | _ <;> decide

theorem isSome_sri {algo : ShaAlgo} {digest : List Char} :
    (sri algo digest).isSome = (Base64.fromhex digest).isSome :=
  Option.isSome_map

/-- A hash tells its algorithm and its bytes. -/
theorem sri_injective {algo algo' : ShaAlgo} {digest digest' hash : List Char}
    (h : sri algo digest = some hash) (h' : sri algo' digest' = some hash) :
    algo = algo' ∧ Base64.fromhex digest = Base64.fromhex digest' := by
  obtain ⟨bytes, hbytes, rfl⟩ := Option.map_eq_some_iff.1 h
  obtain ⟨bytes', hbytes', heq⟩ := Option.map_eq_some_iff.1 h'
  obtain ⟨hlower, hletters⟩ :=
    List.append_inj heq (by rw [ShaAlgo.length_lower, ShaAlgo.length_lower])
  refine ⟨?_, ?_⟩
  · rcases algo with _ | _ <;> rcases algo' with _ | _
    · rfl
    · exact absurd hlower (by decide)
    · exact absurd hlower (by decide)
    · rfl
  · rw [hbytes, hbytes', Base64.encode_injective (Base64.lt_of_mem_fromhex hbytes)
      (Base64.lt_of_mem_fromhex hbytes') (List.cons.inj hletters).2.symm]

/-- The digest of a line has only hexadecimal digits. -/
theorem isSome_hexValue_of_readLine {rawLine digest : List Char} {algo : ShaAlgo}
    (h : readLine rawLine = .hash algo digest) : ∀ c ∈ digest, (Base64.hexValue c).isSome := by
  have hmatch : hashMatch (PythonText.strip rawLine) = some (algo, digest) := by
    rw [readLine] at h
    split at h
    · cases h
    · split at h
      · cases h
      · split at h
        next heq =>
          obtain ⟨rfl, rfl⟩ := Line.hash.inj h
          exact heq
        · cases h
  simp only [hashMatch, Option.bind_eq_bind, Option.bind_eq_some_iff, Option.some.injEq] at hmatch
  obtain ⟨_, -, _, -, _, -, ⟨digits, _⟩, hdigits, heq⟩ := hmatch
  obtain ⟨-, rfl⟩ := Prod.mk.inj heq
  exact (of_many1 hdigits).2.2

/-! ### Recording pairs -/

theorem entry_eq_some {p : Pair (List Char) (ShaAlgo × List Char)} {hash : List Char}
    (h : sri p.finished.1 p.finished.2 = some hash) :
    entry p = some (pathName p.started, ⟨p.started, hash⟩) := by
  rw [entry, h]
  rfl

/-- The key of an entry. -/
theorem pathName_of_entry {p : Pair (List Char) (ShaAlgo × List Char)} {name : List Char}
    {archive : Archive} (h : entry p = some (name, archive)) : pathName p.started = name := by
  obtain ⟨_, -, heq⟩ := Option.map_eq_some_iff.1 h
  exact (Prod.mk.inj heq).1

theorem isSome_of_foldlM_attach {ps : List (Pair (List Char) (ShaAlgo × List Char))}
    {archives archives' : List (List Char × Archive)}
    (h : ps.foldlM attach archives = .ok archives') : ∀ p ∈ ps, (entry p).isSome := by
  induction ps generalizing archives with
  | nil => exact fun _ hp ↦ absurd hp List.not_mem_nil
  | cons p ps ih =>
    rw [List.foldlM_cons] at h
    obtain ⟨next, hnext, h⟩ := Result.bind_eq_ok_iff.1 h
    refine List.forall_mem_cons.2 ⟨?_, ih h⟩
    rw [attach] at hnext
    split at hnext
    next heq => rw [heq, Option.isSome_some]
    · cases hnext

/-- Pairs that all have an entry are recorded in order. -/
theorem foldlM_attach {ps : List (Pair (List Char) (ShaAlgo × List Char))}
    (h : ∀ p ∈ ps, (entry p).isSome) :
    ps.foldlM attach [] = .ok (OrderedDict.ofPairs (ps.filterMap entry)) := by
  suffices hall : ∀ archives, ps.foldlM attach archives =
      .ok ((ps.filterMap entry).foldl (fun d p ↦ OrderedDict.insert p.1 p.2 d) archives) from
    hall []
  induction ps with
  | nil => exact fun _ ↦ rfl
  | cons p ps ih =>
    intro archives
    obtain ⟨hp, hps⟩ := List.forall_mem_cons.1 h
    obtain ⟨⟨name, archive⟩, hentry⟩ := Option.isSome_iff_exists.1 hp
    have hstep : attach archives p = .ok (OrderedDict.insert name archive archives) := by
      rw [attach, hentry]
    rw [List.foldlM_cons, hstep, Result.ok_bind, ih hps, List.filterMap_cons, hentry]
    rfl

/-! ### Declarations -/

/-- A `CMakeLists.txt` with the number of the declaration that each line stands in. -/
structure CMakeFile where
  text : List Char
  declaration : ℕ → ℕ
  declaration_mono : Monotone declaration

/-- A declaration of the file has an `https` URL, directly followed by its hash: no line between
the two is another URL or hash. -/
def OwnHash (w : WordClass) (f : CMakeFile) (url : List Char) (algo : ShaAlgo)
    (digest : List Char) : Prop :=
  ∃ i j, Adjacent (events w f.text) i url j (algo, digest) ∧ f.declaration i = f.declaration j

/-- What the scan of the files should be like. -/
structure Lossless (w : WordClass) (files : List CMakeFile)
    (archives : List (List Char × Archive)) : Prop where
  /-- Every own pair of URL and hash is an entry. -/
  recorded : ∀ f ∈ files, ∀ url algo digest, OwnHash w f url algo digest →
    ∃ name hash, sri algo digest = some hash ∧ (name, ⟨url, hash⟩) ∈ archives
  /-- A recorded hash belongs to the declaration of its URL. -/
  own : ∀ f ∈ files, ∀ p ∈ attachments w f.text, f.declaration p.startAt = f.declaration p.finishAt
  /-- What is recorded under one name is the same entry. -/
  kept : ∀ f ∈ files, ∀ p ∈ attachments w f.text, ∀ g ∈ files, ∀ q ∈ attachments w g.text,
    pathName p.started = pathName q.started → entry p = entry q

/-- Files whose declarations the scan keeps apart. -/
structure Separable (w : WordClass) (files : List CMakeFile) : Prop where
  /-- Digests consist of bytes. -/
  even : ∀ f ∈ files, ∀ url algo digest, OwnHash w f url algo digest → 2 ∣ digest.length
  /-- Only one archive has a given file name. -/
  unique : ∀ f ∈ files, ∀ g ∈ files, ∀ url algo digest url' algo' digest',
    OwnHash w f url algo digest → OwnHash w g url' algo' digest' → pathName url = pathName url' →
      url = url' ∧ algo = algo' ∧ Base64.fromhex digest = Base64.fromhex digest'
  /-- After an `https` URL, no hash of another declaration comes before the next URL or hash. -/
  own : ∀ f ∈ files, ∀ i j url b, Adjacent (events w f.text) i url j b →
    f.declaration i = f.declaration j

section

variable {files : List CMakeFile} {archives : List (List Char × Archive)}

theorem readLine_of_adjacent {text url digest : List Char} {i j : ℕ} {algo : ShaAlgo}
    (h : Adjacent (events w text) i url j (algo, digest)) :
    ∃ rawLine, readLine rawLine = .hash algo digest := by
  obtain ⟨rawLine, -, hevent⟩ : ∃ rawLine, (splitlines text)[j]? = some rawLine ∧
      event w (cmakeVars w text) rawLine = .finish (algo, digest) := by
    simpa [events] using h.finish
  refine ⟨rawLine, ?_⟩
  rw [event] at hevent
  split at hevent
  · split at hevent
    · cases hevent
    · cases hevent
  next heq =>
    obtain ⟨rfl, rfl⟩ := Prod.mk.inj (Event.finish.inj hevent)
    exact heq
  · cases hevent

/-- A digest of a line has a hash when its digits come in pairs. -/
theorem isSome_sri_iff_of_adjacent {text url digest : List Char} {i j : ℕ} {algo : ShaAlgo}
    (h : Adjacent (events w text) i url j (algo, digest)) :
    (sri algo digest).isSome ↔ 2 ∣ digest.length := by
  obtain ⟨rawLine, hline⟩ := readLine_of_adjacent h
  rw [isSome_sri, Base64.isSome_fromhex_iff (isSome_hexValue_of_readLine hline)]

theorem mem_attachments_of_adjacent {text url : List Char} {i j : ℕ} {b : ShaAlgo × List Char}
    (h : Adjacent (events w text) i url j b) : ⟨i, url, j, b⟩ ∈ attachments w text :=
  mem_pairs_iff.2 h

theorem Separable.ownHash (h : Separable w files) {f : CMakeFile} (hf : f ∈ files)
    {p : Pair (List Char) (ShaAlgo × List Char)} (hp : p ∈ attachments w f.text) :
    OwnHash w f p.started p.finished.1 p.finished.2 := by
  have hadj := mem_pairs_iff.1 hp
  exact ⟨p.startAt, p.finishAt, hadj, h.own f hf _ _ _ _ hadj⟩

theorem Separable.exists_sri (h : Separable w files) {f : CMakeFile} (hf : f ∈ files)
    {p : Pair (List Char) (ShaAlgo × List Char)} (hp : p ∈ attachments w f.text) :
    ∃ hash, sri p.finished.1 p.finished.2 = some hash := by
  have heven := h.even f hf _ _ _ (h.ownHash hf hp)
  exact Option.isSome_iff_exists.1 ((isSome_sri_iff_of_adjacent (mem_pairs_iff.1 hp)).2 heven)

/-- Pairs under one name have one entry. -/
theorem Separable.entry_eq (h : Separable w files) {f g : CMakeFile} (hf : f ∈ files)
    (hg : g ∈ files) {p q : Pair (List Char) (ShaAlgo × List Char)}
    (hp : p ∈ attachments w f.text) (hq : q ∈ attachments w g.text)
    (hname : pathName p.started = pathName q.started) : entry p = entry q := by
  obtain ⟨hurl, halgo, hbytes⟩ := h.unique f hf g hg _ _ _ _ _ _ (h.ownHash hf hp)
    (h.ownHash hg hq) hname
  rw [entry, entry, sri, sri, hurl, halgo, hbytes]

theorem Separable.lossless (h : Separable w files) :
    ∃ archives, scanArchives w (files.map CMakeFile.text) = .ok archives ∧
      Lossless w files archives := by
  have hmem : ∀ p, p ∈ (files.map CMakeFile.text).flatMap (attachments w) ↔
      ∃ f ∈ files, p ∈ attachments w f.text := by simp
  have hentry : ∀ p ∈ (files.map CMakeFile.text).flatMap (attachments w), (entry p).isSome := by
    intro p hp
    obtain ⟨f, hf, hp⟩ := (hmem p).1 hp
    obtain ⟨hash, hhash⟩ := h.exists_sri hf hp
    rw [entry_eq_some hhash, Option.isSome_some]
  refine ⟨_, (scanArchives_eq _).trans (foldlM_attach hentry), ?_, ?_, ?_⟩
  · rintro f hf url algo digest ⟨i, j, hadj, -⟩
    have hp := mem_attachments_of_adjacent hadj
    obtain ⟨hash, hhash⟩ := h.exists_sri hf hp
    refine ⟨pathName url, hash, hhash, OrderedDict.mem_of_get? (OrderedDict.get?_ofPairs ?_ ?_)⟩
    · -- whatever is assigned to the name is this entry
      intro archive harchive
      obtain ⟨q, hq, hqentry⟩ := List.mem_filterMap.1 harchive
      obtain ⟨g, hg, hq⟩ := (hmem q).1 hq
      have hsame := h.entry_eq hg hf hq hp (pathName_of_entry hqentry)
      rw [hqentry, entry_eq_some hhash] at hsame
      exact (Prod.mk.inj (Option.some.inj hsame)).2
    · exact List.mem_filterMap.2 ⟨_, (hmem _).2 ⟨f, hf, hp⟩, entry_eq_some hhash⟩
  · exact fun f hf p hp ↦ h.own f hf _ _ _ _ (mem_pairs_iff.1 hp)
  · exact fun f hf p hp g hg q hq hname ↦ h.entry_eq hf hg hp hq hname

theorem Lossless.separable (hscan : scanArchives w (files.map CMakeFile.text) = .ok archives)
    (h : Lossless w files archives) : Separable w files := by
  rw [scanArchives_eq] at hscan
  -- the scan did not fail, so every digest had an even number of digits
  have hsri : ∀ f ∈ files, ∀ p ∈ attachments w f.text,
      ∃ hash, sri p.finished.1 p.finished.2 = some hash := by
    intro f hf p hp
    have hmem : p ∈ (files.map CMakeFile.text).flatMap (attachments w) :=
      List.mem_flatMap.2 ⟨f.text, List.mem_map_of_mem hf, hp⟩
    have hentry := isSome_of_foldlM_attach hscan p hmem
    rw [entry, Option.isSome_map] at hentry
    exact Option.isSome_iff_exists.1 hentry
  refine ⟨?_, ?_, fun f hf i j url b hadj ↦ h.own f hf _ (mem_attachments_of_adjacent hadj)⟩
  · rintro f hf url algo digest ⟨i, j, hadj, -⟩
    obtain ⟨hash, hhash⟩ := hsri f hf _ (mem_attachments_of_adjacent hadj)
    exact (isSome_sri_iff_of_adjacent hadj).1 (Option.isSome_iff_exists.2 ⟨hash, hhash⟩)
  · rintro f hf g hg url algo digest url' algo' digest' ⟨i, j, hadj, -⟩ ⟨i', j', hadj', -⟩ hname
    have hp := mem_attachments_of_adjacent hadj
    have hq := mem_attachments_of_adjacent hadj'
    obtain ⟨hash, hhash⟩ := hsri f hf _ hp
    obtain ⟨hash', hhash'⟩ := hsri g hg _ hq
    have hsame := h.kept f hf _ hp g hg _ hq hname
    rw [entry_eq_some hhash, entry_eq_some hhash'] at hsame
    obtain ⟨hurl, hhashes⟩ := Archive.mk.inj (Prod.mk.inj (Option.some.inj hsame)).2
    exact ⟨hurl, sri_injective hhash (hhashes ▸ hhash')⟩

end

/-- **The scan of the third-party files loses nothing** exactly when an `https` URL is never
followed by the hash of another declaration, no two archives have one file name, and the digests
consist of bytes. -/
theorem lossless_iff (w : WordClass) (files : List CMakeFile) :
    (∃ archives, scanArchives w (files.map CMakeFile.text) = .ok archives ∧
      Lossless w files archives) ↔ Separable w files :=
  ⟨fun ⟨_, hscan, h⟩ ↦ h.separable hscan, Separable.lossless⟩

/-- A file with the declaration of one archive. -/
def archiveFile (url digest : List Char) : CMakeFile where
  text := unlines ["foo(".toList, "  URL ".toList ++ url, "  URL_HASH SHA256=".toList ++ digest,
    [')']]
  declaration _ := 0
  declaration_mono := monotone_const

/-- Of two archives with one file name, the scan keeps the one that it reads last. -/
theorem not_lossless :
    ¬∃ archives, scanArchives .ascii
        ([archiveFile "https://h.org/v1/src.tgz".toList (List.replicate 64 '0'),
          archiveFile "https://h.org/v2/src.tgz".toList (List.replicate 64 '1')].map
            CMakeFile.text) = .ok archives ∧
      Lossless .ascii
        [archiveFile "https://h.org/v1/src.tgz".toList (List.replicate 64 '0'),
          archiveFile "https://h.org/v2/src.tgz".toList (List.replicate 64 '1')] archives := by
  rintro ⟨archives, hscan, h⟩
  have hresult : (scanArchives .ascii
      ([archiveFile "https://h.org/v1/src.tgz".toList (List.replicate 64 '0'),
        archiveFile "https://h.org/v2/src.tgz".toList (List.replicate 64 '1')].map
          CMakeFile.text)).toOption.map (List.map fun p ↦ p.2.url) =
      some ["https://h.org/v2/src.tgz".toList] := by decide +kernel
  have hpairs : attachments .ascii
      (archiveFile "https://h.org/v1/src.tgz".toList (List.replicate 64 '0')).text =
        [⟨1, "https://h.org/v1/src.tgz".toList, 2, .sha256, List.replicate 64 '0'⟩] := by
    decide +kernel
  rw [hscan] at hresult
  have hurls : archives.map (fun p ↦ p.2.url) = ["https://h.org/v2/src.tgz".toList] :=
    Option.some.inj hresult
  have hadj := mem_pairs_iff.1 (hpairs ▸ List.mem_singleton_self _)
  -- the first address would be in the result, which has the second one only
  obtain ⟨name, hash, -, hmem⟩ := h.recorded _ List.mem_cons_self _ _ _ ⟨1, 2, hadj, rfl⟩
  have hurl := List.mem_map_of_mem (f := fun p ↦ p.2.url) hmem
  rw [hurls] at hurl
  have hne : "https://h.org/v1/src.tgz".toList ≠ "https://h.org/v2/src.tgz".toList := by decide
  exact hne (List.mem_singleton.1 hurl)

end TheRock.ThirdParty
