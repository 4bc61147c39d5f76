import Mathlib.Data.List.Basic
import Mathlib.Data.List.TakeDrop
import Mathlib.Data.List.TakeWhile
import NixStrixHalo.Library.PythonText

/-!
# URLs as Python reads them

`urllib.parse`: URLs are split by the first delimiter that stands in them, relative ones are joined
to a base, and percent-escapes are read as UTF-8.

## Links to a file

Two results are about links to a file: splitting one leaves the name of the file at the end of the
path (`urlsplit_directory`), and unquoting the path leaves what the name was encoded from behind the
last slash (`unquote_encodes`, `unquote_append_slash`). A `Directory` is what may stand before the
name: nothing, or a text that ends with a slash and has no query or fragment in it.

## Escapes

Unquoting reads bytes, whether an escape or an ASCII character stands for one, and replaces what is
no UTF-8. A slash ends whatever character had begun, because no part of a longer sequence is ASCII,
so the last segment can be read on its own (`decode_append_byte`).

## The authority

The authority of a URL is looked up in tables that are not modelled: whether a bracketed address is
one, and what characters outside ASCII are normalized to. `check` stands for both.
-/

namespace Url

/-! ### Splitting -/

/-- The characters of a scheme. -/
def isSchemeChar (c : Char) : Bool := c.isAlphanum || c == '+' || c == '-' || c == '.'

/-- A letter, followed by characters of a scheme. -/
def isScheme (s : List Char) : Bool := s.head?.any Char.isAlpha && s.all isSchemeChar

/-- Control characters and spaces go at the start, tabs and line ends everywhere. -/
def clean (url : List Char) : List Char :=
  (url.dropWhile (· ≤ ' ')).filter fun c ↦ c ≠ '\t' ∧ c ≠ '\r' ∧ c ≠ '\n'

/-- The scheme and what follows it. -/
def splitScheme (default url : List Char) : List Char × List Char :=
  match url.span (· ≠ ':') with
  | (scheme, ':' :: rest) =>
    if isScheme scheme then (scheme.map Char.toLower, rest) else (default, url)
  | _ => (default, url)

/-- The characters that end an authority. -/
def isDelimiter (c : Char) : Bool := c == '/' || c == '?' || c == '#'

/-- The authority and what follows it. -/
def splitNetloc : List Char → List Char × List Char
  | '/' :: '/' :: rest => rest.span (!isDelimiter ·)
  | url => ([], url)

/-- The authority raises no `ValueError`. -/
def netlocValid (check : List Char → Bool) (netloc : List Char) : Bool :=
  decide ('[' ∈ netloc ↔ ']' ∈ netloc) &&
    (netloc.all (fun c ↦ c.toNat < 128 && c != '[') || check netloc)

/-- A text up to a separator, and what follows the separator. -/
def partition (c : Char) (text : List Char) : List Char × List Char :=
  (text.takeWhile (· ≠ c), (text.dropWhile (· ≠ c)).tail)

/-- `SplitResult`. -/
structure SplitResult where
  scheme : List Char
  netloc : List Char
  path : List Char
  query : List Char
  fragment : List Char
  deriving DecidableEq

/-- `urlsplit`; `none` is a `ValueError`. -/
def urlsplit (check : List Char → Bool) (default url : List Char) : Option SplitResult :=
  let (scheme, rest) := splitScheme default (clean url)
  let (netloc, rest) := splitNetloc rest
  if netlocValid check netloc then
    let (rest, fragment) := partition '#' rest
    let (path, query) := partition '?' rest
    some { scheme, netloc, path, query, fragment }
  else none

/-- `ParseResult`. -/
structure ParseResult extends SplitResult where
  params : List Char
  deriving DecidableEq

/-- `uses_params`. -/
def usesParams : List (List Char) :=
  ["", "ftp", "hdl", "prospero", "http", "imap", "https", "shttp", "rtsp", "rtsps", "rtspu", "sip",
    "sips", "mms", "sftp", "tel"].map String.toList

/-- `_splitparams`: the parameters follow the first semicolon of the last segment. -/
def splitParams (path : List Char) : List Char × List Char :=
  let last := (path.reverse.takeWhile (· ≠ '/')).reverse
  let (segment, params) := partition ';' last
  (path.take (path.length - last.length) ++ segment, params)

/-- `urlparse`. -/
def urlparse (check : List Char → Bool) (default url : List Char) : Option ParseResult :=
  (urlsplit check default url).map fun s ↦
    if s.scheme ∈ usesParams then
      { s with path := (splitParams s.path).1, params := (splitParams s.path).2 }
    else { s with params := [] }

/-! ### Joining -/

/-- `uses_relative`. -/
def usesRelative : List (List Char) :=
  ["", "ftp", "http", "gopher", "nntp", "imap", "wais", "file", "https", "shttp", "mms", "prospero",
    "rtsp", "rtsps", "rtspu", "sftp", "svn", "svn+ssh", "ws", "wss"].map String.toList

/-- `uses_netloc`. -/
def usesNetloc : List (List Char) :=
  ["", "ftp", "http", "gopher", "nntp", "telnet", "imap", "wais", "file", "mms", "https", "shttp",
    "snews", "prospero", "rtsp", "rtsps", "rtspu", "rsync", "svn", "svn+ssh", "sftp", "nfs", "git",
    "git+ssh", "ws", "wss"].map String.toList

/-- A part with its separator, unless the part is empty. -/
def optional (separator : Char) (part : List Char) : List Char :=
  if part = [] then [] else separator :: part

/-- `urlunparse`. -/
def urlunparse (p : ParseResult) : List Char :=
  let path := p.path ++ optional ';' p.params
  let path :=
    if p.netloc ≠ [] ∨ (p.scheme ≠ [] ∧ p.scheme ∈ usesNetloc) ∨ ['/', '/'].isPrefixOf path then
      let path := if path ≠ [] ∧ path.head? ≠ some '/' then '/' :: path else path
      '/' :: '/' :: (p.netloc ++ path)
    else path
  (if p.scheme = [] then path else p.scheme ++ ':' :: path) ++ optional '?' p.query ++
    optional '#' p.fragment

/-- The dots of a path: one stays, two go up. -/
def resolveDots (segments : List (List Char)) : List (List Char) :=
  let resolved := segments.foldl
    (fun resolved segment ↦
      if segment = ['.', '.'] then resolved.dropLast
      else if segment = ['.'] then resolved
      else resolved ++ [segment]) []
  if segments.getLast? = some ['.'] ∨ segments.getLast? = some ['.', '.'] then resolved ++ [[]]
  else resolved

/-- `segments[1:-1] = filter(None, segments[1:-1])`. -/
def filterInner (segments : List (List Char)) : List (List Char) :=
  segments.take 1 ++ (segments.drop 1).dropLast.filter (· ≠ []) ++ (segments.drop 1).getLast?.toList

/-- The path that a relative path means at a base. -/
def joinPath (base path : List Char) : List Char :=
  let baseParts := base.splitOn '/'
  let baseParts := if baseParts.getLast? = some [] then baseParts else baseParts.dropLast
  let segments :=
    if path.head? = some '/' then path.splitOn '/'
    else filterInner (baseParts ++ path.splitOn '/')
  let joined := ['/'].intercalate (resolveDots segments)
  if joined = [] then ['/'] else joined

/-- `urljoin`. -/
def urljoin (check : List Char → Bool) (base url : List Char) : Option (List Char) :=
  if base = [] then some url
  else if url = [] then some base
  else do
    let b ← urlparse check [] base
    let p ← urlparse check b.scheme url
    if p.scheme ≠ b.scheme ∨ p.scheme ∉ usesRelative then some url
    else if p.scheme ∈ usesNetloc ∧ p.netloc ≠ [] then some (urlunparse p)
    else
      let netloc := if p.scheme ∈ usesNetloc then b.netloc else p.netloc
      if p.path = [] ∧ p.params = [] then
        let query := if p.query = [] then b.query else p.query
        some (urlunparse { p with netloc, path := b.path, params := b.params, query })
      else some (urlunparse { p with netloc, path := joinPath b.path p.path })

/-- A link is joined to a base if both can be split. -/
theorem isSome_urljoin {check : List Char → Bool} {base url : List Char}
    (hbase : (urlsplit check [] base).isSome)
    (hurl : ∀ default, (urlsplit check default url).isSome) : (urljoin check base url).isSome := by
  rw [urljoin]
  split
  · rfl
  split
  · rfl
  obtain ⟨b, hb⟩ := Option.isSome_iff_exists.1 hbase
  obtain ⟨b', hb'⟩ : ∃ b', urlparse check [] base = some b' := ⟨_, by rw [urlparse, hb]; rfl⟩
  obtain ⟨p, hp⟩ := Option.isSome_iff_exists.1 (hurl b'.scheme)
  obtain ⟨p', hp'⟩ : ∃ p', urlparse check b'.scheme url = some p' :=
    ⟨_, by rw [urlparse, hp]; rfl⟩
  rw [hb', Option.bind_eq_bind, Option.bind_some, hp', Option.bind_some]
  -- past the two splits, every branch returns a URL
  split
  · rfl
  split
  · rfl
  dsimp only
  split
  · rfl
  · rfl

/-! ### Unquoting -/

/-- A byte that an escape or an ASCII character stands for, or another character. -/
inductive Token
  | byte (b : ℕ)
  | char (c : Char)

/-- The value of a hexadecimal digit. -/
def hexValue (c : Char) : Option ℕ :=
  if c.isDigit then some (c.toNat - 48)
  else if 'a' ≤ c ∧ c ≤ 'f' then some (c.toNat - 87)
  else if 'A' ≤ c ∧ c ≤ 'F' then some (c.toNat - 55)
  else none

/-- What a character that is no escape stands for. -/
def Token.ofChar (c : Char) : Token := if c.toNat < 128 then .byte c.toNat else .char c

/-- A percent sign and two digits are a byte; any other percent sign is itself. -/
def tokens : List Char → List Token
  | [] => []
  | '%' :: a :: b :: rest =>
    match hexValue a, hexValue b with
    | some h, some l => .byte (16 * h + l) :: tokens rest
    | _, _ => Token.ofChar '%' :: tokens (a :: b :: rest)
  | c :: rest => Token.ofChar c :: tokens rest

/-- The replacement character. -/
def replacement : Char := '\ufffd'

/-- A character that has begun: the bytes that it still needs, the range of the next one, which no
ASCII character is in, and the bits so far. -/
structure Pending where
  need : ℕ
  lower : ℕ
  upper : ℕ
  bits : ℕ
  lower_ge : 0x80 ≤ lower

/-- The first byte of a character. -/
def start (b : ℕ) : List Char × Option Pending :=
  if b < 0x80 then ([Char.ofNat b], none)
  else if 0xc2 ≤ b ∧ b ≤ 0xdf then ([], some ⟨1, 0x80, 0xbf, b % 32, le_rfl⟩)
  else if 0xe0 ≤ b ∧ b ≤ 0xef then
    ([], some ⟨2, if b = 0xe0 then 0xa0 else 0x80, if b = 0xed then 0x9f else 0xbf, b % 16,
      by split <;> decide⟩)
  else if 0xf0 ≤ b ∧ b ≤ 0xf4 then
    ([], some ⟨3, if b = 0xf0 then 0x90 else 0x80, if b = 0xf4 then 0x8f else 0xbf, b % 8,
      by split <;> decide⟩)
  else ([replacement], none)

/-- UTF-8 with replacement: a sequence that breaks off is replaced as a whole, and reading goes on
at the byte that does not belong to it. -/
def decode : Option Pending → List Token → List Char
  | none, [] => []
  | some _, [] => [replacement]
  | none, .char c :: rest => c :: decode none rest
  | some _, .char c :: rest => replacement :: c :: decode none rest
  | none, .byte b :: rest => (start b).1 ++ decode (start b).2 rest
  | some p, .byte b :: rest =>
    if p.lower ≤ b ∧ b ≤ p.upper then
      let bits := p.bits * 64 + b % 64
      if p.need ≤ 1 then Char.ofNat bits :: decode none rest
      else decode (some ⟨p.need - 1, 0x80, 0xbf, bits, le_rfl⟩) rest
    else replacement :: ((start b).1 ++ decode (start b).2 rest)

/-- `unquote`. -/
def unquote (text : List Char) : List Char := decode none (tokens text)

example : unquote "a%2Fb%e2%82%acc%e2%82%zz%".toList = "a/b€c\ufffd%zz%".toList := by
  decide +kernel

/-! ### The path of a link -/

/-- The text is nothing, or ends with a slash. -/
def EndsSlash (text : List Char) : Prop := ∀ c ∈ text.getLast?, c = '/'

instance (text : List Char) : Decidable (EndsSlash text) :=
  inferInstanceAs (Decidable (∀ c ∈ text.getLast?, c = '/'))

/-- The directory that a link names: nothing, or a text that ends with a slash and in which no
query or fragment starts. Two slashes at its start, or behind its scheme, open an authority, which
another slash must close. -/
structure Directory (check : List Char → Bool) where
  text : List Char
  plain : ∀ c ∈ text, c ≠ '?' ∧ c ≠ '#'
  endsSlash : EndsSlash text
  authority : ∀ before rest, clean text = before ++ '/' :: '/' :: rest →
    (before = [] ∨ ∃ scheme, isScheme scheme ∧ before = scheme ++ [':']) →
      '/' ∈ rest ∧ netlocValid check (rest.takeWhile (· ≠ '/'))

/-- The characters of a segment that is no scheme. -/
def isSegmentChar (c : Char) : Bool := !(c ≤ ' ') && c ≠ '/' && c ≠ '?' && c ≠ '#' && c ≠ ':'

/-- Nothing, or a query or a fragment. -/
def IsSuffix (text : List Char) : Prop := ∀ c ∈ text.head?, c = '?' ∨ c = '#'

instance (text : List Char) : Decidable (IsSuffix text) :=
  inferInstanceAs (Decidable (∀ c ∈ text.head?, c = '?' ∨ c = '#'))

/-- A text ends with a slash if the one that it ends does. -/
theorem EndsSlash.of_append {a b : List Char} (h : EndsSlash (a ++ b)) : EndsSlash b := by
  intro c hc
  refine h c ?_
  rw [List.getLast?_append, Option.mem_def.1 hc]
  rfl

variable {check : List Char → Bool}

/-- The characters of a segment are those that mean nothing to the parser. -/
theorem isSegmentChar_iff {c : Char} :
    isSegmentChar c ↔ ¬c ≤ ' ' ∧ c ≠ '/' ∧ c ≠ '?' ∧ c ≠ '#' ∧ c ≠ ':' := by
  simp [isSegmentChar, and_assoc]

/-- No space behind a slash is dropped at the front. -/
theorem dropWhile_append_slash (s t : List Char) :
    (s ++ '/' :: t).dropWhile (· ≤ ' ') = s.dropWhile (· ≤ ' ') ++ '/' :: t := by
  rw [List.dropWhile_append]
  split
  next hempty =>
    rw [List.isEmpty_iff.1 hempty, List.dropWhile_cons_of_neg (by decide), List.nil_append]
  next => rfl

/-- Cleaning leaves the last slash of a directory. -/
theorem clean_append_slash (s t : List Char) :
    clean (s ++ '/' :: t) =
      clean (s ++ ['/']) ++ t.filter fun c ↦ c ≠ '\t' ∧ c ≠ '\r' ∧ c ≠ '\n' := by
  rw [clean, clean, dropWhile_append_slash, dropWhile_append_slash, List.append_cons,
    List.filter_append]

/-- Without spaces in front, cleaning only takes tabs and line breaks out. -/
theorem clean_of_head {text : List Char} (h : ∀ c ∈ text.head?, ¬c ≤ ' ') :
    clean text = text.filter fun c ↦ c ≠ '\t' ∧ c ≠ '\r' ∧ c ≠ '\n' := by
  rcases text with _ | ⟨c, cs⟩
  · rfl
  · rw [clean, List.dropWhile_cons_of_neg (by simpa using h c rfl)]

/-- There are no tabs and line breaks in a segment. -/
theorem filter_segment {segment : List Char} (hsegment : ∀ c ∈ segment, isSegmentChar c) :
    (segment.filter fun c ↦ c ≠ '\t' ∧ c ≠ '\r' ∧ c ≠ '\n') = segment := by
  refine List.filter_eq_self.2 fun c hc ↦ decide_eq_true ?_
  have hspace := (isSegmentChar_iff.1 (hsegment c hc)).1
  refine ⟨?_, ?_, ?_⟩
  · rintro rfl
    exact hspace (by decide)
  · rintro rfl
    exact hspace (by decide)
  · rintro rfl
    exact hspace (by decide)

/-- A directory has neither a query nor a fragment. -/
theorem Directory.plain_clean (d : Directory check) :
    ∀ c ∈ clean d.text, c ≠ '?' ∧ c ≠ '#' :=
  fun c hc ↦ d.plain c ((List.dropWhile_suffix _).subset (List.mem_of_mem_filter hc))

/-- A directory ends with a slash. -/
theorem Directory.endsSlash_clean (d : Directory check) : EndsSlash (clean d.text) := by
  rcases List.eq_nil_or_concat d.text with htext | ⟨s, c, htext⟩
  · rw [htext]
    exact fun c hc ↦ absurd hc (by simp [clean])
  · obtain rfl : c = '/' := d.endsSlash c (by rw [htext]; simp)
    rw [htext, List.concat_eq_append, clean, dropWhile_append_slash, List.filter_append]
    exact fun c hc ↦ by simpa using hc.symm

/-- Cleaning keeps the directory, the segment and a suffix apart. -/
theorem clean_link (d : Directory check) {segment suffix : List Char} (hne : segment ≠ [])
    (hsegment : ∀ c ∈ segment, isSegmentChar c) (hsuffix : IsSuffix suffix) :
    ∃ suffix', IsSuffix suffix' ∧
      clean (d.text ++ (segment ++ suffix)) = clean d.text ++ (segment ++ suffix') := by
  refine ⟨suffix.filter fun c ↦ c ≠ '\t' ∧ c ≠ '\r' ∧ c ≠ '\n', ?_, ?_⟩
  · rcases suffix with _ | ⟨c, cs⟩
    · exact fun c hc ↦ absurd hc (by simp)
    · rcases hsuffix c rfl with rfl | rfl
      · exact fun c hc ↦ Or.inl (by simpa using hc.symm)
      · exact fun c hc ↦ Or.inr (by simpa using hc.symm)
  · -- what ends the leading spaces is the slash of the directory, or else the segment
    rcases List.eq_nil_or_concat d.text with htext | ⟨s, c, htext⟩
    · have hhead : ∀ c ∈ (segment ++ suffix).head?, ¬c ≤ ' ' := by
        obtain ⟨y, ys, rfl⟩ := List.exists_cons_of_ne_nil hne
        intro c hc
        obtain rfl : y = c := Option.some.inj hc
        exact (isSegmentChar_iff.1 (hsegment y List.mem_cons_self)).1
      rw [htext, List.nil_append, clean_of_head hhead, List.filter_append,
        filter_segment hsegment]
      rfl
    · obtain rfl : c = '/' := d.endsSlash c (by rw [htext]; simp)
      rw [htext, List.concat_eq_append, List.append_assoc, List.singleton_append,
        clean_append_slash, List.filter_append, filter_segment hsegment]

/-- The scheme is what stands before the first colon, if it can be one. -/
theorem splitScheme_append {s : List Char} (hs : ':' ∉ s) (default rest : List Char) :
    splitScheme default (s ++ ':' :: rest) =
      if isScheme s then (s.map Char.toLower, rest) else (default, s ++ ':' :: rest) := by
  have hall : ∀ c ∈ s, decide (c ≠ ':') = true :=
    fun c hc ↦ decide_eq_true fun h ↦ hs (h ▸ hc)
  rw [splitScheme, PythonText.span_append hall rfl]
  rfl

/-- A URL without a colon has no scheme. -/
theorem splitScheme_of_not_mem {url : List Char} (h : ':' ∉ url) (default : List Char) :
    splitScheme default url = (default, url) := by
  have hall : ∀ c ∈ url, decide (c ≠ ':') = true :=
    fun c hc ↦ decide_eq_true fun heq ↦ h (heq ▸ hc)
  rw [splitScheme, PythonText.span_of_forall hall]

/-- A scheme is taken from the directory only. -/
theorem splitScheme_link (d : Directory check) {segment suffix : List Char}
    (hsegment : ∀ c ∈ segment, isSegmentChar c) (hsuffix : IsSuffix suffix) (default : List Char) :
    ∃ scheme before folder, splitScheme default (clean d.text ++ (segment ++ suffix)) =
        (scheme, folder ++ (segment ++ suffix)) ∧ clean d.text = before ++ folder ∧
      (before = [] ∨ ∃ s, isScheme s ∧ before = s ++ [':']) := by
  -- the first colon decides; it can only be one of the directory or of the suffix
  by_cases hcolon : ':' ∈ clean d.text
  · obtain ⟨s, folder, htext, hs⟩ := List.eq_append_cons_of_mem hcolon
    have hsplit := splitScheme_append hs default (folder ++ (segment ++ suffix))
    rw [htext, List.append_assoc, List.cons_append]
    by_cases hscheme : isScheme s
    · rw [if_pos hscheme] at hsplit
      exact ⟨_, s ++ [':'], folder, hsplit, by simp, Or.inr ⟨s, hscheme, rfl⟩⟩
    · rw [if_neg hscheme] at hsplit
      exact ⟨default, [], s ++ ':' :: folder, by simpa using hsplit, rfl, Or.inl rfl⟩
  · refine ⟨default, [], clean d.text, ?_, rfl, Or.inl rfl⟩
    have hnot : ':' ∉ clean d.text ++ segment := fun h ↦
      (List.mem_append.1 h).elim hcolon fun h ↦
        (isSegmentChar_iff.1 (hsegment ':' h)).2.2.2.2 rfl
    rw [← List.append_assoc]
    by_cases hsuf : ':' ∈ suffix
    · -- what is before the colon has the mark that begins the suffix
      obtain ⟨s, rest, rfl, hs⟩ := List.eq_append_cons_of_mem hsuf
      have hmark : ∃ c ∈ s, isSchemeChar c = false := by
        rcases s with _ | ⟨c, s⟩
        · rcases hsuffix ':' rfl with h | h
          · exact absurd h (by decide)
          · exact absurd h (by decide)
        · rcases hsuffix c rfl with rfl | rfl
          · exact ⟨'?', List.mem_cons_self, by decide⟩
          · exact ⟨'#', List.mem_cons_self, by decide⟩
      have hscheme : ¬isScheme (clean d.text ++ segment ++ s) := by
        intro h
        obtain ⟨c, hc, hfalse⟩ := hmark
        have hall := List.all_eq_true.1 (Bool.and_eq_true_iff.1 h).2 c
          (List.mem_append_right _ hc)
        exact absurd (hfalse ▸ hall) Bool.false_ne_true
      have hnot' : ':' ∉ clean d.text ++ segment ++ s :=
        fun h ↦ (List.mem_append.1 h).elim hnot hs
      rw [← List.append_assoc, splitScheme_append hnot', if_neg hscheme]
    · exact splitScheme_of_not_mem (fun h ↦ (List.mem_append.1 h).elim hnot hsuf) default

/-- The authority ends inside the directory. -/
theorem splitNetloc_link {d : Directory check} {before folder : List Char}
    (htext : clean d.text = before ++ folder)
    (hbefore : before = [] ∨ ∃ s, isScheme s ∧ before = s ++ [':']) {segment : List Char}
    (hne : segment ≠ []) (hsegment : ∀ c ∈ segment, isSegmentChar c) (suffix : List Char) :
    ∃ netloc folder', splitNetloc (folder ++ (segment ++ suffix)) =
        (netloc, folder' ++ (segment ++ suffix)) ∧ netlocValid check netloc ∧
      folder' <:+ folder := by
  have hnone : (∀ rest, folder ++ (segment ++ suffix) ≠ '/' :: '/' :: rest) →
      ∃ netloc folder', splitNetloc (folder ++ (segment ++ suffix)) =
        (netloc, folder' ++ (segment ++ suffix)) ∧ netlocValid check netloc ∧
      folder' <:+ folder := by
    intro h
    refine ⟨[], folder, ?_, by simp [netlocValid], List.suffix_rfl⟩
    rw [splitNetloc]
    exact h
  obtain ⟨x, xs, rfl⟩ := List.exists_cons_of_ne_nil hne
  have hx : x ≠ '/' := (isSegmentChar_iff.1 (hsegment x List.mem_cons_self)).2.1
  rcases folder with _ | ⟨a, _ | ⟨b, rest⟩⟩
  · exact hnone fun rest h ↦ hx (List.cons.inj h).1
  · -- one slash and the segment, which does not begin with another one
    exact hnone fun rest h ↦ hx (List.cons.inj (List.cons.inj h).2).1
  · by_cases hslash : a = '/' ∧ b = '/'
    · obtain ⟨rfl, rfl⟩ := hslash
      obtain ⟨hmem, hvalid⟩ := d.authority before rest htext hbefore
      -- the authority ends at the next slash, which is still in the directory
      obtain ⟨host, folder', rfl, hhost⟩ := List.eq_append_cons_of_mem hmem
      have hall : ∀ c ∈ host, (!isDelimiter c) = true := by
        intro c hc
        have hplain := d.plain_clean c (htext ▸ by simp [hc])
        have hne : c ≠ '/' := fun h ↦ hhost (h ▸ hc)
        simp [isDelimiter, hne, hplain]
      have htake : (host ++ '/' :: folder').takeWhile (· ≠ '/') = host := by
        have hall : ∀ c ∈ host, decide (c ≠ '/') = true :=
          fun c hc ↦ decide_eq_true fun h ↦ hhost (h ▸ hc)
        rw [List.takeWhile_append_of_pos hall, List.takeWhile_cons_of_neg (by decide),
          List.append_nil]
      rw [htake] at hvalid
      refine ⟨host, '/' :: folder', ?_, hvalid, ?_⟩
      · rw [List.cons_append, List.cons_append, splitNetloc, List.append_assoc]
        exact PythonText.span_append hall rfl
      · exact ⟨'/' :: '/' :: host, by simp⟩
    · exact hnone fun rest' h ↦
        hslash ⟨(List.cons.inj h).1, (List.cons.inj (List.cons.inj h).2).1⟩

/-- What does not have the separator is on its left. -/
theorem partition_of_not_mem {c : Char} {text : List Char} (h : c ∉ text) (rest : List Char) :
    (partition c (text ++ rest)).1 = text ++ (partition c rest).1 := by
  have hall : ∀ d ∈ text, decide (d ≠ c) = true :=
    fun d hd ↦ decide_eq_true fun heq ↦ h (heq ▸ hd)
  exact List.takeWhile_append_of_pos hall

/-- A suffix leaves nothing for the path. -/
theorem partition_suffix {suffix : List Char} (h : IsSuffix suffix) :
    (partition '?' (partition '#' suffix).1).1 = [] := by
  rcases suffix with _ | ⟨c, cs⟩
  · rfl
  · rcases h c rfl with rfl | rfl
    · rw [partition, partition]
      dsimp only
      rw [List.takeWhile_cons_of_pos (by decide), List.takeWhile_cons_of_neg (by decide)]
    · rw [partition, partition]
      dsimp only
      rw [List.takeWhile_cons_of_neg (by decide), List.takeWhile_nil]

/-- **The path of a link ends with its last segment**, behind a slash or nothing. -/
theorem urlsplit_directory (d : Directory check) {segment suffix : List Char} (hne : segment ≠ [])
    (hsegment : ∀ c ∈ segment, isSegmentChar c) (hsuffix : IsSuffix suffix)
    (default : List Char) :
    ∃ s folder, urlsplit check default (d.text ++ (segment ++ suffix)) = some s ∧
      s.path = folder ++ segment ∧ EndsSlash folder := by
  obtain ⟨suffix', hsuffix', hclean⟩ := clean_link d hne hsegment hsuffix
  obtain ⟨scheme, before, folder, hscheme, htext, hbefore⟩ :=
    splitScheme_link d hsegment hsuffix' default
  obtain ⟨netloc, folder', hnetloc, hvalid, hfolder⟩ :=
    splitNetloc_link htext hbefore hne hsegment suffix'
  obtain ⟨start, rfl⟩ := hfolder
  have hplain : ∀ c, c = '?' ∨ c = '#' → c ∉ folder' ++ segment := by
    intro c hc hmem
    rcases List.mem_append.1 hmem with hmem | hmem
    · have hplain := d.plain_clean c (htext ▸ by simp [hmem])
      exact hc.elim hplain.1 hplain.2
    · have hchar := isSegmentChar_iff.1 (hsegment c hmem)
      exact hc.elim hchar.2.2.1 hchar.2.2.2.1
  have hends : EndsSlash folder' := by
    have hslash := d.endsSlash_clean
    rw [htext] at hslash
    exact hslash.of_append.of_append
  rw [urlsplit, hclean, hscheme]
  dsimp only
  rw [hnetloc]
  dsimp only
  rw [if_pos hvalid]
  refine ⟨_, folder', rfl, ?_, hends⟩
  dsimp only
  rw [← List.append_assoc, partition_of_not_mem (hplain '#' (Or.inr rfl)),
    partition_of_not_mem (hplain '?' (Or.inl rfl)), partition_suffix hsuffix', List.append_nil]

/-! ### The name in a link -/

/-- An ASCII character ends whatever has begun before it. -/
theorem decode_append_byte {b : ℕ} (hb : b < 0x80) (p : Option Pending) (s t : List Token) :
    decode p (s ++ .byte b :: t) = decode p s ++ Char.ofNat b :: decode none t := by
  have hstart : start b = ([Char.ofNat b], none) := if_pos hb
  induction s generalizing p with
  | nil =>
    rcases p with _ | p
    · rw [List.nil_append, decode, decode, hstart]
      rfl
    · -- no ASCII character is in the range of a character that has begun
      have hrange : ¬(p.lower ≤ b ∧ b ≤ p.upper) :=
        fun h ↦ absurd (p.lower_ge.trans h.1) (Nat.not_le.2 hb)
      rw [List.nil_append, decode, decode, hstart]
      exact if_neg hrange
  | cons x s ih =>
    rw [List.cons_append]
    rcases p with _ | p
    · rcases x with x | c
      · rw [decode, decode, ih, List.append_assoc]
      · rw [decode, decode, ih, List.cons_append]
    · rcases x with x | c
      · rw [decode, decode]
        dsimp only
        -- the byte continues the character, completes it, or breaks it off
        rw [ih, ih, ih]
        split
        · split
          · rfl
          · rfl
        · rw [List.cons_append, List.append_assoc]
      · rw [decode, decode, ih, List.cons_append, List.cons_append]

/-- Anything but a percent sign stands for itself. -/
theorem tokens_cons_of_ne {c : Char} (h : c ≠ '%') (rest : List Char) :
    tokens (c :: rest) = Token.ofChar c :: tokens rest := by
  rw [tokens]
  exact fun _ _ _ heq ↦ absurd heq h

/-- A percent sign without two hexadecimal digits stands for itself. -/
theorem tokens_percent_of_none {a b : Char} (h : hexValue a = none ∨ hexValue b = none)
    (rest : List Char) :
    tokens ('%' :: a :: b :: rest) = Token.ofChar '%' :: tokens (a :: b :: rest) := by
  rw [tokens]
  rcases ha : hexValue a with _ | m
  · rfl
  · rcases hb : hexValue b with _ | n
    · rfl
    · rw [ha, hb] at h
      exact absurd h (by simp)

/-- A percent sign with two hexadecimal digits is a byte. -/
theorem tokens_percent_of_some {a b : Char} {m n : ℕ} (ha : hexValue a = some m)
    (hb : hexValue b = some n) (rest : List Char) :
    tokens ('%' :: a :: b :: rest) = .byte (16 * m + n) :: tokens rest := by
  rw [tokens, ha, hb]

/-- No escape reaches over a slash. -/
theorem tokens_append_slash (s t : List Char) :
    tokens (s ++ '/' :: t) = tokens s ++ .byte 47 :: tokens t := by
  have hslash : tokens ('/' :: t) = .byte 47 :: tokens t := tokens_cons_of_ne (by decide) t
  induction s using tokens.induct with
  | case1 => exact hslash
  | case2 a b rest m n hb ha ih =>
    rw [List.cons_append, List.cons_append, List.cons_append, tokens_percent_of_some ha hb,
      tokens_percent_of_some ha hb, ih, List.cons_append]
  | case3 a b rest hnone ih =>
    have hor : hexValue a = none ∨ hexValue b = none := by
      rcases ha : hexValue a with _ | m
      · exact Or.inl rfl
      · rcases hb : hexValue b with _ | n
        · exact Or.inr rfl
        · exact absurd hb (hnone m n ha)
    rw [List.cons_append, List.cons_append, List.cons_append, tokens_percent_of_none hor,
      tokens_percent_of_none hor, List.cons_append]
    exact congrArg (_ :: ·) ih
  | case4 c rest hnot ih =>
    by_cases hc : c = '%'
    · -- the percent sign stands at most one character before the slash
      subst hc
      have hnone : hexValue '/' = none := by decide
      rcases rest with _ | ⟨a, _ | ⟨b, rest⟩⟩
      · have hpercent : tokens ('%' :: '/' :: t) = Token.ofChar '%' :: tokens ('/' :: t) := by
          cases t with
          | nil => rfl
          | cons b t => exact tokens_percent_of_none (Or.inl hnone) t
        exact hpercent.trans (congrArg (_ :: ·) hslash)
      · exact (tokens_percent_of_none (Or.inr hnone) t).trans (congrArg (_ :: ·) ih)
      · exact absurd rfl (hnot a b rest rfl)
    · rw [List.cons_append, tokens_cons_of_ne hc, tokens_cons_of_ne hc, ih, List.cons_append]

/-- Slashes are not decoded, so that segments are decoded one by one. -/
theorem unquote_append_slash (s t : List Char) :
    unquote (s ++ '/' :: t) = unquote s ++ '/' :: unquote t := by
  rw [unquote, tokens_append_slash, decode_append_byte (by decide)]
  rfl

/-- A text behind a directory is unquoted on its own. -/
theorem exists_unquote_append {folder : List Char} (h : EndsSlash folder) (t : List Char) :
    ∃ folder', unquote (folder ++ t) = folder' ++ unquote t ∧ EndsSlash folder' := by
  rcases List.eq_nil_or_concat folder with rfl | ⟨s, c, rfl⟩
  · exact ⟨[], rfl, fun _ hc ↦ absurd hc (by simp)⟩
  · obtain rfl : c = '/' := h c (by simp)
    refine ⟨unquote s ++ ['/'], ?_, fun c hc ↦ by simpa using hc.symm⟩
    rw [List.concat_eq_append, List.append_assoc, List.singleton_append, unquote_append_slash,
      List.append_assoc, List.singleton_append]

/-- `Encodes e t`: the text `e` is `t` with any of its characters written as escapes. -/
inductive Encodes : List Char → List Char → Prop
  | nil : Encodes [] []
  | plain {c : Char} {e t : List Char} (h : c ≠ '%') : Encodes e t → Encodes (c :: e) (c :: t)
  | escape {a b c : Char} {m n : ℕ} {e t : List Char} (ha : hexValue a = some m)
      (hb : hexValue b = some n) (h : 16 * m + n = c.toNat) :
      Encodes e t → Encodes ('%' :: a :: b :: e) (c :: t)

/-- A byte of ASCII is a character. -/
theorem decode_byte {c : Char} (hc : c.toNat < 128) (rest : List Token) :
    decode none (.byte c.toNat :: rest) = c :: decode none rest := by
  rw [decode, start, if_pos hc]
  dsimp only
  rw [Char.ofNat_toNat, List.singleton_append]

/-- **Unquoting inverts every encoding** of an ASCII text. -/
theorem unquote_encodes {e t : List Char} (h : Encodes e t) (hascii : ∀ c ∈ t, c.toNat < 128) :
    unquote e = t := by
  induction h with
  | nil => rfl
  | @plain c e t hne _ ih =>
    obtain ⟨hc, ht⟩ := List.forall_mem_cons.1 hascii
    rw [unquote, tokens_cons_of_ne hne, Token.ofChar, if_pos hc, decode_byte hc]
    exact congrArg (c :: ·) (ih ht)
  | @escape a b c m n e t ha hb heq _ ih =>
    obtain ⟨hc, ht⟩ := List.forall_mem_cons.1 hascii
    rw [unquote, tokens_percent_of_some ha hb, heq, decode_byte hc]
    exact congrArg (c :: ·) (ih ht)

/-- A text without percent signs encodes itself. -/
theorem Encodes.refl {t : List Char} (h : ∀ c ∈ t, c ≠ '%') : Encodes t t := by
  induction t with
  | nil => exact .nil
  | cons c t ih =>
    obtain ⟨hc, ht⟩ := List.forall_mem_cons.1 h
    exact .plain hc (ih ht)

/-- Texts are encoded part after part. -/
theorem Encodes.append {e e' t t' : List Char} (h : Encodes e t) (h' : Encodes e' t') :
    Encodes (e ++ e') (t ++ t') := by
  induction h with
  | nil => exact h'
  | plain hne _ ih => exact .plain hne ih
  | escape ha hb heq _ ih => exact .escape ha hb heq ih

/-- Only the empty text has an empty encoding. -/
theorem Encodes.ne_nil {e t : List Char} (h : Encodes e t) (ht : t ≠ []) : e ≠ [] := by
  rcases h with _ | _ | _
  · exact ht
  · exact List.cons_ne_nil _ _
  · exact List.cons_ne_nil _ _

/-- Digits, letters and what is above them may be in a segment. -/
theorem isSegmentChar_of_range {c : Char} (h : 48 ≤ c.toNat ∧ c.toNat ≤ 57 ∨ 65 ≤ c.toNat) :
    isSegmentChar c := by
  have hne : ∀ d : Char, (d.toNat < 48 ∨ 57 < d.toNat ∧ d.toNat < 65) → c ≠ d := by
    rintro d hd rfl
    omega
  refine isSegmentChar_iff.2 ⟨fun hspace ↦ ?_, hne '/' (by decide), hne '?' (by decide),
    hne '#' (by decide), hne ':' (by decide)⟩
  have hle : c.toNat ≤ 32 := show c.toNat ≤ ' '.toNat from hspace
  omega

/-- Hexadecimal digits may be in a segment. -/
theorem isSegmentChar_of_hexValue {c : Char} {n : ℕ} (h : hexValue c = some n) :
    isSegmentChar c := by
  refine isSegmentChar_of_range ?_
  rw [hexValue] at h
  split at h
  next hdigit => exact Or.inl (Char.isDigit_iff_toNat.1 hdigit)
  split at h
  next hlower => exact Or.inr (le_trans (by decide) (show 'a'.toNat ≤ c.toNat from hlower.1))
  split at h
  next hupper => exact Or.inr (show 'A'.toNat ≤ c.toNat from hupper.1)
  cases h

/-- An encoded text is a segment if the text is. -/
theorem Encodes.isSegmentChar {e t : List Char} (h : Encodes e t)
    (ht : ∀ c ∈ t, Url.isSegmentChar c) : ∀ c ∈ e, Url.isSegmentChar c := by
  induction h with
  | nil => exact fun _ hc ↦ absurd hc List.not_mem_nil
  | plain _ _ ih =>
    obtain ⟨hc, ht⟩ := List.forall_mem_cons.1 ht
    exact List.forall_mem_cons.2 ⟨hc, ih ht⟩
  | escape ha hb _ _ ih =>
    obtain ⟨-, ht⟩ := List.forall_mem_cons.1 ht
    exact List.forall_mem_cons.2 ⟨by decide, List.forall_mem_cons.2 ⟨isSegmentChar_of_hexValue ha,
      List.forall_mem_cons.2 ⟨isSegmentChar_of_hexValue hb, ih ht⟩⟩⟩

end Url
