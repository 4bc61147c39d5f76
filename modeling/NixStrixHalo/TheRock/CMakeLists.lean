import NixStrixHalo.Library.CMake
import NixStrixHalo.TheRock.ThirdParty

/-!
# Lines of the third-party builds

A `CMakeLists.txt` as a list of lines (`Statement`): assignments, the `URL` and `URL_HASH` arguments
of declarations, and lines that say nothing of variables and URLs.

## Layout

The indentation, the space between the parts of a line, spaces at its end and a comment there are
arbitrary (`Layout`), and so are values, as far as they stay on their line and between their quotes
(`Value`): lone dollars, backslashes and semicolons may be in them. A comment ends with its line.

## What the script reads

`cmake_vars` knows of every name that consists of word characters the last value that is not empty,
as it is written (`get?_cmakeVars`). A URL is recorded if the next URL or hash behind it is a hash
and `expand` makes an `https` URL of it (`recorded_iff`). Spaces behind a URL do not matter, but a
comment behind it is part of what `expand` is given (`urlValue`).
-/

namespace TheRock.ThirdParty

open PythonText Pattern Pairing CMake

/-! ### Texts -/

/-- The characters between the parts of a line. -/
def isBlank (c : Char) : Bool := c == ' ' || c == '\t'

/-- The characters that need no quotes around them. -/
def isBareChar (c : Char) : Bool := !isSpace c && c != '(' && c != ')' && c != '#'

/-- What a line has besides its command. -/
structure Layout where
  indent : List Char
  gap : List Char
  trail : List Char
  comment : List Char
  isBlank_of_mem : ∀ c ∈ indent ++ (gap ++ trail), isBlank c
  gap_ne_nil : gap ≠ []
  isLineBreak_of_mem : ∀ c ∈ comment, isLineBreak c = false
  /-- A comment in brackets need not end with its line. -/
  comment_eq : comment = [] ∨ ['#'] <+: comment ∧ ¬['#', '['] <+: comment

/-- The text of an argument. A backslash at its end would take the closing quote away. -/
structure Value where
  text : List Char
  isLineBreak_of_mem : ∀ c ∈ text, isLineBreak c = false
  quote_not_mem : '"' ∉ text
  even : 2 ∣ (text.reverse.takeWhile (· == '\\')).length

/-- The argument of `URL`. -/
inductive UrlArg
  | quoted (value : Value)
  | unquoted (value : Value) (ne_nil : value.text ≠ [])
      (isBareChar_of_mem : ∀ c ∈ value.text, isBareChar c)

namespace UrlArg

/-- The argument without its quotes. -/
def raw : UrlArg → List Char
  | quoted value => value.text
  | unquoted value _ _ => value.text

def text : UrlArg → List Char
  | quoted value => '"' :: (value.text ++ ['"'])
  | unquoted value _ _ => value.text

end UrlArg

/-- The argument of `URL_HASH`. -/
structure Digest where
  quoted : Bool
  algo : ShaAlgo
  digits : List Char
  ne_nil : digits ≠ []
  isSome_hexValue_of_mem : ∀ c ∈ digits, (Base64.hexValue c).isSome
  even : 2 ∣ digits.length

namespace Digest

def quote (d : Digest) : List Char := if d.quoted then ['"'] else []

def algoText (d : Digest) : List Char :=
  match d.algo with
  | .sha256 => "SHA256=".toList
  | .sha512 => "SHA512=".toList

/-- `SHA256=...` or `SHA512=...`. -/
def text (d : Digest) : List Char := d.quote ++ (d.algoText ++ (d.digits ++ d.quote))

end Digest

/-- A line that is read as nothing: an empty one, a comment, another part of a declaration. It
neither changes a variable nor begins a comment in brackets. -/
structure OtherLine where
  text : List Char
  isLineBreak_of_mem : ∀ c ∈ text, isLineBreak c = false
  readLine_eq : readLine text = .other
  not_set : ¬"set(".toList <+: text.dropWhile isSpace
  not_bracket : ¬['#', '['] <:+: text

/-! ### Files -/

/-- What the lines of a file say. -/
inductive Statement
  | set (layout : Layout) (name : Name) (value : Value)
  | url (layout : Layout) (arg : UrlArg)
  | hash (layout : Layout) (digest : Digest)
  | other (line : OtherLine)

/-- The line of a command. -/
def Layout.line (l : Layout) (command : List Char) : List Char :=
  l.indent ++ (command ++ (l.trail ++ l.comment))

namespace Statement

def line : Statement → List Char
  | set l name value =>
    l.line ("set(".toList ++ (name.text ++ (l.gap ++ '"' :: (value.text ++ ['"', ')']))))
  | url l arg => l.line ("URL".toList ++ (l.gap ++ arg.text))
  | hash l digest => l.line ("URL_HASH".toList ++ (l.gap ++ digest.text))
  | other line => line.text

end Statement

/-- The text of a file. -/
def fileText (stmts : List Statement) : List Char := unlines (stmts.map Statement.line)

/-- The next URL or hash is a hash. -/
def hashFollows : List Statement → Bool
  | [] => false
  | .url _ _ :: _ => false
  | .hash _ _ :: _ => true
  | _ :: stmts => hashFollows stmts

/-! ### What the script knows -/

/-- The name is one for `\w+`. -/
def isWordName (name : List Char) : Bool := name.all fun c ↦ c.isAlphanum || c == '_'

/-- An assignment that `cmake_vars` reads. -/
def Statement.assignment : Statement → Option (List Char × List Char)
  | set _ name value =>
    if isWordName name.text ∧ value.text ≠ [] then some (name.text, value.text) else none
  | _ => none

/-- An assignment replaces what is known of its variable. -/
def Statement.write (key : List Char) (known : Option (List Char)) (stmt : Statement) :
    Option (List Char) :=
  match stmt.assignment with
  | some (name, value) => if name = key then some value else known
  | none => known

/-- The last value of a variable that is not empty, as it is written. -/
def lastValue (stmts : List Statement) (key : List Char) : Option (List Char) :=
  stmts.foldl (Statement.write key) none

/-- What `expand` is given of a URL. -/
def urlValue (l : Layout) (arg : UrlArg) : List Char := arg.text ++ rstrip (l.trail ++ l.comment)

/-- The scan records a URL for a line. -/
def Recorded (w : WordClass) (text : List Char) (line : ℕ) (url : List Char) : Prop :=
  ∃ p ∈ attachments w text, p.startAt = line ∧ p.started = url

/-! ### Characters -/

theorem toNat_of_isNameChar {c : Char} (h : isNameChar c) : 43 ≤ c.toNat ∧ c.toNat < 128 := by
  simp only [isNameChar, Bool.or_eq_true, beq_iff_eq] at h
  rcases h with ((((h | rfl) | rfl) | rfl) | rfl) | rfl
  · have hcode := toNat_of_isAlphanum h
    omega
  all_goals decide

theorem isSpace_of_isNameChar {c : Char} (h : isNameChar c) : isSpace c = false := by
  have hcode := toNat_of_isNameChar h
  exact isSpace_of_toNat (by omega)

theorem isLineBreak_of_isNameChar {c : Char} (h : isNameChar c) : isLineBreak c = false :=
  isLineBreak_of_not_isSpace (isSpace_of_isNameChar h)

theorem isSpace_of_isBlank {c : Char} (h : isBlank c) : isSpace c := by
  simp only [isBlank, Bool.or_eq_true, beq_iff_eq] at h
  rcases h with rfl | rfl
  · decide
  · decide

theorem isLineBreak_of_isBlank {c : Char} (h : isBlank c) : isLineBreak c = false := by
  simp only [isBlank, Bool.or_eq_true, beq_iff_eq] at h
  rcases h with rfl | rfl
  · decide
  · decide

theorem isSpace_of_isSome_hexValue {c : Char} (h : (Base64.hexValue c).isSome) :
    isSpace c = false := by
  have hcode := Base64.toNat_of_isSome_hexValue h
  exact isSpace_of_toNat (by omega)

theorem WordClass.isWord_of_isNameChar (w : WordClass) {c : Char} (h : isNameChar c) :
    w.isWord c = (c.isAlphanum || c == '_') :=
  w.isWord_ascii c (toNat_of_isNameChar h).2

/-- A name of word characters is one for `\w+`. -/
theorem isWordName_iff (w : WordClass) (name : Name) :
    isWordName name.text ↔ ∀ c ∈ name.text, w.isWord c := by
  rw [isWordName, List.all_eq_true]
  exact forall₂_congr fun c hc ↦ by rw [w.isWord_of_isNameChar (name.isNameChar_of_mem c hc)]

/-! ### Parts of lines -/

namespace Layout

variable (l : Layout)

theorem isSpace_of_mem_indent : ∀ c ∈ l.indent, isSpace c := fun c hc ↦
  isSpace_of_isBlank (l.isBlank_of_mem c (List.mem_append_left _ hc))

theorem isSpace_of_mem_gap : ∀ c ∈ l.gap, isSpace c := fun c hc ↦
  isSpace_of_isBlank (l.isBlank_of_mem c (List.mem_append_right _ (List.mem_append_left _ hc)))

theorem isSpace_of_mem_trail : ∀ c ∈ l.trail, isSpace c := fun c hc ↦
  isSpace_of_isBlank (l.isBlank_of_mem c (List.mem_append_right _ (List.mem_append_right _ hc)))

/-- What stands behind a command starts with a space or a number sign. -/
theorem head?_rest {p : Char → Bool} (hp : ∀ c, isBlank c → p c = false) (hsign : p '#' = false) :
    (l.trail ++ l.comment).head?.any p = false := by
  rcases htrail : l.trail with _ | ⟨c, trail⟩
  · rcases l.comment_eq with hcomment | ⟨⟨text, hcomment⟩, -⟩
    · rw [hcomment]
      rfl
    · rw [← hcomment]
      exact hsign
  · refine hp c (l.isBlank_of_mem c ?_)
    rw [htrail]
    exact List.mem_append_right _ (List.mem_append_right _ List.mem_cons_self)

/-- A line has no line break. -/
theorem isLineBreak_of_mem_line {command : List Char}
    (h : ∀ c ∈ command, isLineBreak c = false) : ∀ c ∈ l.line command, isLineBreak c = false := by
  have hblank := fun c hc ↦ isLineBreak_of_isBlank (l.isBlank_of_mem c hc)
  simp only [List.forall_mem_append] at hblank
  simp only [line, List.forall_mem_append]
  exact ⟨hblank.1, h, hblank.2.2, l.isLineBreak_of_mem⟩

theorem isLineBreak_of_mem_gap : ∀ c ∈ l.gap, isLineBreak c = false := fun c hc ↦
  isLineBreak_of_isBlank (l.isBlank_of_mem c (List.mem_append_right _ (List.mem_append_left _ hc)))

/-- The strip of a line keeps its command. -/
theorem strip_line {command : List Char} (hne : command ≠ [])
    (hhead : command.head?.any isSpace = false) (hlast : command.getLast?.any isSpace = false) :
    PythonText.strip (l.line command) = command ++ rstrip (l.trail ++ l.comment) :=
  strip_append_rstrip l.isSpace_of_mem_indent hne hhead hlast

end Layout

theorem UrlArg.text_ne_nil (arg : UrlArg) : arg.text ≠ [] := by
  rcases arg with value | ⟨value, hne, _⟩
  · exact List.cons_ne_nil _ _
  · exact hne

/-- A URL neither starts nor ends with a space. -/
theorem UrlArg.trimmed (arg : UrlArg) :
    arg.text.head?.any isSpace = false ∧ arg.text.getLast?.any isSpace = false := by
  rcases arg with value | ⟨value, hne, hbare⟩
  · refine ⟨rfl, ?_⟩
    rw [text, ← List.cons_append, List.getLast?_concat]
    rfl
  · have hspace : ∀ c ∈ value.text, isSpace c = false := by
      intro c hc
      have hbare := hbare c hc
      simp only [isBareChar, Bool.and_eq_true, Bool.not_eq_true'] at hbare
      exact hbare.1.1.1
    exact ⟨head?_any_of_forall hspace, getLast?_any_of_forall hspace⟩

theorem UrlArg.isLineBreak_of_mem_text (arg : UrlArg) : ∀ c ∈ arg.text, isLineBreak c = false := by
  rcases arg with value | ⟨value, _, _⟩
  · refine List.forall_mem_cons.2 ⟨by decide, List.forall_mem_append.2 ⟨?_, by decide⟩⟩
    exact value.isLineBreak_of_mem
  · exact value.isLineBreak_of_mem

namespace Digest

variable (d : Digest)

theorem isSpace_of_mem_text : ∀ c ∈ d.text, isSpace c = false := by
  have hquote : ∀ c ∈ d.quote, isSpace c = false := by
    rw [quote]
    split
    · decide
    · exact fun _ hc ↦ absurd hc List.not_mem_nil
  have halgo : ∀ c ∈ d.algoText, isSpace c = false := by
    rw [algoText]
    rcases d.algo with _ | _
    · decide
    · decide
  simp only [text, List.forall_mem_append]
  exact ⟨hquote, halgo, fun c hc ↦ isSpace_of_isSome_hexValue (d.isSome_hexValue_of_mem c hc),
    hquote⟩

theorem text_ne_nil : d.text ≠ [] := by
  simp [text, d.ne_nil]

/-- A digest is read up to its closing quote, or up to what follows it. -/
theorem hashMatch_text {gap rest : List Char} (hgap : ∀ c ∈ gap, isSpace c) (hne : gap ≠ [])
    (hrest : rest.head?.any (fun c ↦ (Base64.hexValue c).isSome) = false) :
    hashMatch ("URL_HASH".toList ++ (gap ++ d.text) ++ rest) = some (d.algo, d.digits) := by
  have heq : "URL_HASH".toList ++ (gap ++ d.text) ++ rest =
      "URL_HASH".toList ++ (gap ++ (d.text ++ rest)) := by
    simp only [List.append_assoc]
  have hspace : many1 isSpace (gap ++ (d.text ++ rest)) = some (gap, d.text ++ rest) := by
    refine many1_append hne hgap ?_
    rw [List.head?_append_of_ne_nil _ d.text_ne_nil]
    exact head?_any_of_forall d.isSpace_of_mem_text
  -- the optional quotation mark in front is dropped; what closes it stands behind the digits
  have hquote : (literal ['"'] (d.text ++ rest)).getD (d.text ++ rest) =
      d.algoText ++ (d.digits ++ (d.quote ++ rest)) := by
    rw [text, quote]
    rcases d.quoted with _ | _
    · simp only [Bool.false_eq_true, if_false, List.nil_append, List.append_assoc, algoText]
      rcases d.algo with _ | _
      · rfl
      · rfl
    · simp only [if_true, List.append_assoc, literal_append, Option.getD_some]
  have halgo : ∀ text, ((literal "SHA256=".toList (d.algoText ++ text)).map (ShaAlgo.sha256, ·)).or
      ((literal "SHA512=".toList (d.algoText ++ text)).map (ShaAlgo.sha512, ·)) =
        some (d.algo, text) := by
    intro text
    rw [algoText]
    rcases d.algo with _ | _
    · rw [literal_append]
      rfl
    · rw [literal_append]
      rfl
  have hdigits : many1 (fun c ↦ (Base64.hexValue c).isSome) (d.digits ++ (d.quote ++ rest)) =
      some (d.digits, d.quote ++ rest) := by
    refine many1_append d.ne_nil d.isSome_hexValue_of_mem ?_
    rw [quote]
    split
    · rfl
    · exact hrest
  simp only [heq, hashMatch, literal_append, Option.bind_eq_bind, Option.bind_some, hspace, hquote,
    halgo, hdigits]

end Digest

/-! ### What the lines are read as -/

theorem readLine_of_strip {rawLine line : List Char} (hstrip : PythonText.strip rawLine = line)
    (hne : line ≠ []) (hcomment : ¬['#'] <+: line) :
    readLine rawLine =
      match urlMatch line with
      | some value => .url value
      | none =>
        match hashMatch line with
        | some (algo, digest) => .hash algo digest
        | none => .other := by
  rw [readLine, hstrip]
  exact if_neg (not_or_intro hne hcomment)

/-- An assignment is neither a URL nor a hash. -/
theorem readLine_set (l : Layout) (name : Name) (value : Value) :
    readLine (Statement.set l name value).line = .other := by
  have hstrip : ∃ rest, PythonText.strip (Statement.set l name value).line =
      "set(".toList ++ rest := by
    rw [Statement.line, Layout.line, List.append_assoc "set(".toList]
    exact ⟨_, strip_append_rstrip l.isSpace_of_mem_indent (by decide) rfl rfl⟩
  obtain ⟨rest, hstrip⟩ := hstrip
  rw [readLine_of_strip hstrip (by simp) (by simp)]
  rfl

/-- A URL line is read with what stands behind the URL. -/
theorem readLine_url (l : Layout) (arg : UrlArg) :
    readLine (Statement.url l arg).line = .url (urlValue l arg) := by
  have hstrip : PythonText.strip (Statement.url l arg).line =
      "URL".toList ++ (l.gap ++ urlValue l arg) := by
    have hlast : ("URL".toList ++ (l.gap ++ arg.text)).getLast?.any isSpace = false := by
      rw [← List.append_assoc, List.getLast?_append_of_ne_nil _ arg.text_ne_nil]
      exact arg.trimmed.2
    rw [Statement.line, l.strip_line (by simp) rfl hlast, List.append_assoc, List.append_assoc]
    rfl
  have hmatch : urlMatch ("URL".toList ++ (l.gap ++ urlValue l arg)) = some (urlValue l arg) := by
    have hspace : many1 isSpace (l.gap ++ urlValue l arg) = some (l.gap, urlValue l arg) := by
      refine many1_append l.gap_ne_nil l.isSpace_of_mem_gap ?_
      rw [urlValue, List.head?_append_of_ne_nil _ arg.text_ne_nil]
      exact arg.trimmed.1
    have hne : urlValue l arg ≠ [] := fun h ↦ arg.text_ne_nil (List.append_eq_nil_iff.1 h).1
    simp only [urlMatch, literal_append, Option.bind_eq_bind, Option.bind_some, hspace, if_neg hne]
  rw [readLine_of_strip hstrip (by simp) (by simp), hmatch]

/-- A hash line is read with its digits, whatever stands behind them. -/
theorem readLine_hash (l : Layout) (d : Digest) :
    readLine (Statement.hash l d).line = .hash d.algo d.digits := by
  have hstrip : PythonText.strip (Statement.hash l d).line =
      "URL_HASH".toList ++ (l.gap ++ d.text) ++ rstrip (l.trail ++ l.comment) := by
    refine l.strip_line (by simp) rfl ?_
    rw [← List.append_assoc, List.getLast?_append_of_ne_nil _ d.text_ne_nil]
    exact getLast?_any_of_forall d.isSpace_of_mem_text
  have hrest : (rstrip (l.trail ++ l.comment)).head?.any
      (fun c ↦ (Base64.hexValue c).isSome) = false := by
    have hhead := l.head?_rest (p := fun c ↦ (Base64.hexValue c).isSome)
      (fun c hc ↦ Bool.eq_false_iff.2 fun hhex ↦
        Bool.eq_false_iff.1 (isSpace_of_isSome_hexValue hhex) (isSpace_of_isBlank hc)) rfl
    rcases hstart : rstrip (l.trail ++ l.comment) with _ | ⟨c, rest⟩
    · rfl
    · obtain ⟨rest', heq⟩ := rstrip_prefix (l.trail ++ l.comment)
      rw [hstart] at heq
      rwa [← heq] at hhead
  -- `URL` matches the start of `URL_HASH`, but no white space follows there
  have hnone : urlMatch ("URL_HASH".toList ++ (l.gap ++ d.text) ++
      rstrip (l.trail ++ l.comment)) = none := by
    have heq : "URL_HASH".toList ++ (l.gap ++ d.text) ++ rstrip (l.trail ++ l.comment) =
        "URL".toList ++ ("_HASH".toList ++ (l.gap ++ d.text ++ rstrip (l.trail ++ l.comment))) := by
      simp
    have hspace : many1 isSpace ("_HASH".toList ++
        (l.gap ++ d.text ++ rstrip (l.trail ++ l.comment))) = none := many1_eq_none rfl
    rw [heq, urlMatch, literal_append, Option.bind_eq_bind, Option.bind_some, hspace]
    rfl
  rw [readLine_of_strip hstrip (by simp) (by simp), hnone,
    d.hashMatch_text l.isSpace_of_mem_gap l.gap_ne_nil hrest]

/-- Every statement is one line. -/
theorem Statement.isLineBreak_of_mem_line (stmt : Statement) :
    ∀ c ∈ stmt.line, isLineBreak c = false := by
  rcases stmt with ⟨l, name, value⟩ | ⟨l, arg⟩ | ⟨l, d⟩ | other
  · refine l.isLineBreak_of_mem_line ?_
    simp only [List.forall_mem_append, List.forall_mem_cons]
    exact ⟨by decide, fun c hc ↦ isLineBreak_of_isNameChar (name.isNameChar_of_mem c hc),
      l.isLineBreak_of_mem_gap, by decide, value.isLineBreak_of_mem, by decide⟩
  · refine l.isLineBreak_of_mem_line ?_
    simp only [List.forall_mem_append]
    exact ⟨by decide, l.isLineBreak_of_mem_gap, arg.isLineBreak_of_mem_text⟩
  · refine l.isLineBreak_of_mem_line ?_
    simp only [List.forall_mem_append]
    exact ⟨by decide, l.isLineBreak_of_mem_gap,
      fun c hc ↦ isLineBreak_of_not_isSpace (d.isSpace_of_mem_text c hc)⟩
  · exact other.isLineBreak_of_mem

/-- The lines of a file are its statements. -/
theorem splitlines_fileText (stmts : List Statement) :
    splitlines (fileText stmts) = stmts.map Statement.line := by
  refine splitlines_unlines fun line hline ↦ ?_
  obtain ⟨stmt, -, rfl⟩ := List.mem_map.1 hline
  exact stmt.isLineBreak_of_mem_line

/-! ### Assignments -/

section

variable {w : WordClass} {before : Option Char} {rest line text : List Char}

/-- What `setPattern` reads behind spaces, and what follows it. -/
def setRest (w : WordClass) (text : List Char) :
    Option ((List Char × List Char) × List Char) := do
  let rest ← literal "set(".toList text
  let (name, rest) ← many1 w.isWord rest
  let (_, rest) ← many1 isSpace rest
  let rest ← literal ['"'] rest
  let (value, rest) ← many1 (· != '"') rest
  let rest ← literal ['"', ')'] rest
  some ((name, value), rest)

/-- The pattern skips spaces before it reads. -/
theorem setPattern_eq (before : Option Char) (text : List Char) :
    setPattern w before text = (setRest w (text.dropWhile isSpace)).bind fun read ↦
      if before.all (· == '\n') then some (read.1, text.length - read.2.length) else none := by
  simp only [setPattern, setRest, Option.bind_eq_bind, Option.bind_assoc, Option.bind_some]

/-- An assignment takes characters. -/
theorem length_of_setRest {text : List Char} {a : List Char × List Char}
    (h : setRest w text = some (a, rest)) : rest.length < text.length := by
  simp only [setRest, Option.bind_eq_bind, Option.bind_eq_some_iff, Option.some.injEq] at h
  obtain ⟨r₁, h₁, ⟨name, r₂⟩, h₂, ⟨spaces, r₃⟩, h₃, r₄, h₄, ⟨value, r₅⟩, h₅, r₆, h₆, heq⟩ := h
  obtain rfl := (Prod.mk.inj heq).2
  have hname : r₁ = name ++ r₂ := (of_many1 h₂).1
  have hspaces : r₂ = spaces ++ r₃ := (of_many1 h₃).1
  have hopen : r₃ = ['"'] ++ r₄ := eq_of_literal h₄
  have hvalue : r₄ = value ++ r₅ := (of_many1 h₅).1
  have hclose : r₅ = ['"', ')'] ++ r₆ := eq_of_literal h₆
  rw [eq_of_literal h₁, hname, hspaces, hopen, hvalue, hclose]
  simp only [List.length_append, List.length_cons, List.length_nil]
  omega

/-- A pattern with a circumflex matches at the start of a line only. -/
theorem setPattern_of_not_start {c : Char} (hc : c ≠ '\n') (text : List Char) :
    setPattern w (some c) text = none := by
  rw [setPattern_eq]
  refine Option.bind_eq_none_iff.2 fun read _ ↦ if_neg ?_
  simpa using hc

/-- Spaces before an assignment belong to it, also where they are lines of their own. -/
theorem setPattern_append {s : List Char} (hs : ∀ c ∈ s, isSpace c)
    (hbefore : before.all (· == '\n')) (text : List Char) :
    setPattern w before (s ++ text) =
      (setPattern w (some '\n') text).map fun read ↦ (read.1, read.2 + s.length) := by
  rw [setPattern_eq, setPattern_eq, List.dropWhile_append_of_pos hs]
  rcases hread : setRest w (text.dropWhile isSpace) with _ | ⟨a, rest⟩
  · rfl
  · have hlt := length_of_setRest hread
    have hle := (List.dropWhile_suffix (l := text) isSpace).length_le
    have hlength : (s ++ text).length - rest.length = text.length - rest.length + s.length := by
      rw [List.length_append]
      omega
    simp only [Option.bind_some, hbefore, if_true, hlength]
    rfl

/-- A match takes characters that are there. -/
theorem of_setPattern {text : List Char} {a : List Char × List Char} {n : ℕ}
    (h : setPattern w before text = some (a, n)) : 0 < n ∧ n ≤ text.length := by
  rw [setPattern_eq] at h
  obtain ⟨⟨a', rest⟩, hread, h⟩ := Option.bind_eq_some_iff.1 h
  split at h
  · obtain ⟨-, rfl⟩ := Prod.mk.inj (Option.some.inj h)
    have hlt := length_of_setRest hread
    have hle := (List.dropWhile_suffix (l := text) isSpace).length_le
    dsimp only
    omega
  · cases h

theorem setPattern_of_not_set (hset : ¬"set(".toList <+: text.dropWhile isSpace) :
    setPattern w before text = none := by
  rw [setPattern, literal, if_neg hset]
  rfl

/-- A run of word characters that ends where a name ends is the name. -/
theorem isWordName_of_many1 {name : Name} {q : Char → Bool}
    (hname : ∀ c, isNameChar c → q c = false) (hword : ∀ c, w.isWord c → q c = false)
    {run rest' : List Char} (h : many1 w.isWord (name.text ++ rest) = some (run, rest'))
    (hrest : rest.head?.any q) (hrest' : rest'.head?.any q) : isWordName name.text := by
  obtain ⟨heq, -, hrun⟩ := of_many1 h
  have hend : ∀ {l : List Char}, l.head?.any q → l.head?.any (!q ·) = false := by
    intro l hl
    rcases l with _ | ⟨c, l⟩
    · rfl
    · simpa using hl
  have hspan : (name.text ++ rest).span (!q ·) = (name.text, rest) :=
    span_append (fun c hc ↦ by simp [hname c (name.isNameChar_of_mem c hc)]) (hend hrest)
  have hspan' : (run ++ rest').span (!q ·) = (run, rest') :=
    span_append (fun c hc ↦ by simp [hword c (hrun c hc)]) (hend hrest')
  rw [heq, hspan'] at hspan
  obtain rfl := (Prod.mk.inj hspan).1
  exact (isWordName_iff w name).2 hrun

/-- The characters of an assignment behind its name. -/
theorem setRest_set (l : Layout) (name : Name) (value : Value) (rest : List Char) :
    setRest w ("set(".toList ++
        (name.text ++ (l.gap ++ '"' :: (value.text ++ '"' :: ')' :: rest)))) =
      (Statement.set l name value).assignment.map (·, rest) := by
  rw [setRest, literal_append, Option.bind_eq_bind, Option.bind_some, Statement.assignment]
  have hspaces : many1 isSpace (l.gap ++ '"' :: (value.text ++ '"' :: ')' :: rest)) =
      some (l.gap, '"' :: (value.text ++ '"' :: ')' :: rest)) :=
    many1_append l.gap_ne_nil l.isSpace_of_mem_gap rfl
  obtain ⟨space, gap, hgap⟩ := List.exists_cons_of_ne_nil l.gap_ne_nil
  have hspace : isSpace space := l.isSpace_of_mem_gap space (hgap ▸ List.mem_cons_self)
  by_cases hname : isWordName name.text
  · have hrun : many1 w.isWord (name.text ++ (l.gap ++ '"' :: (value.text ++ '"' :: ')' :: rest))) =
        some (name.text, l.gap ++ '"' :: (value.text ++ '"' :: ')' :: rest)) := by
      refine many1_append name.ne_nil ((isWordName_iff w name).1 hname) ?_
      rw [hgap]
      exact Bool.eq_false_iff.2 fun hword ↦
        Bool.eq_false_iff.1 (w.isSpace_of_isWord space hword) hspace
    have hclose : literal ['"', ')'] ('"' :: ')' :: rest) = some rest :=
      literal_append ['"', ')'] rest
    simp only [hrun, hspaces, Option.bind_eq_bind, Option.bind_some, literal_singleton]
    by_cases hvalue : value.text = []
    · have hnone : many1 (· != '"') ('"' :: ')' :: rest) = none := many1_eq_none rfl
      rw [hvalue, List.nil_append, hnone, if_neg (by simp)]
      rfl
    · have hread : many1 (· != '"') (value.text ++ '"' :: ')' :: rest) =
          some (value.text, '"' :: ')' :: rest) := by
        refine many1_append hvalue (fun c hc ↦ ?_) rfl
        exact bne_iff_ne.2 (ne_of_mem_of_not_mem hc value.quote_not_mem)
      rw [hread, if_pos ⟨hname, hvalue⟩]
      simp only [Option.bind_some, hclose, Option.map_some]
  · rw [if_neg fun h ↦ hname h.1]
    refine Option.bind_eq_none_iff.2 fun ⟨run, rest₁⟩ hrun ↦ ?_
    refine Option.bind_eq_none_iff.2 fun ⟨spaces, rest₂⟩ hspaces' ↦ ?_
    -- the run of word characters would have to end before a space, where the name ends
    obtain ⟨rfl, hne, hall⟩ := of_many1 hspaces'
    obtain ⟨c, spaces, rfl⟩ := List.exists_cons_of_ne_nil hne
    refine absurd (isWordName_of_many1 (q := isSpace) (fun _ ↦ isSpace_of_isNameChar)
      (fun d hd ↦ w.isSpace_of_isWord d hd) hrun ?_ ?_) hname
    · rw [hgap]
      exact hspace
    · exact hall c List.mem_cons_self

/-- A line where nothing is read is passed over. -/
theorem pieces_of_not_set (hline : ∀ c ∈ line, isLineBreak c = false)
    (h : setPattern w before (line ++ '\n' :: rest) = none) :
    (pieces (setPattern w) 0 before (line ++ '\n' :: rest)).filterMap Sum.getLeft? =
      (pieces (setPattern w) 0 (some '\n') rest).filterMap Sum.getLeft? := by
  have heq : line ++ '\n' :: rest = (line ++ ['\n']) ++ rest := by simp
  have hlast : (line ++ ['\n']).getLast?.or before = some '\n' := by simp
  rw [heq, pieces_of_no_match, hlast, List.filterMap_append, filterMap_getLeft?_map_inr,
    List.nil_append]
  intro s₁ c s₂ hsplit
  rcases List.eq_nil_or_concat s₁ with rfl | ⟨s, d, rfl⟩
  · rw [List.nil_append] at hsplit
    rw [heq, hsplit] at h
    exact h
  · -- a place inside the line
    rw [List.concat_eq_append, List.getLast?_append_of_ne_nil _ (List.cons_ne_nil d []),
      List.getLast?_singleton, Option.some_or]
    have hmem : d ∈ line := by
      have hdrop := congrArg List.dropLast hsplit
      rw [List.dropLast_concat, List.dropLast_append_of_ne_nil (List.cons_ne_nil c s₂)] at hdrop
      rw [hdrop]
      simp
    refine setPattern_of_not_start ?_ _
    rintro rfl
    exact absurd (hline '\n' hmem) (by decide)

/-- A line of spaces changes nothing: what is read behind it is read from its start. -/
theorem pieces_of_blank (hline : ∀ c ∈ line, isLineBreak c = false) (hspace : ∀ c ∈ line, isSpace c)
    (hbefore : before.all (· == '\n')) :
    (pieces (setPattern w) 0 before (line ++ '\n' :: rest)).filterMap Sum.getLeft? =
      (pieces (setPattern w) 0 (some '\n') rest).filterMap Sum.getLeft? := by
  have hs : ∀ c ∈ line ++ ['\n'], isSpace c := List.forall_mem_append.2 ⟨hspace, by decide⟩
  have heq : line ++ '\n' :: rest = (line ++ ['\n']) ++ rest := by simp
  have hshift := setPattern_append (w := w) hs hbefore rest
  rcases hread : setPattern w (some '\n') rest with _ | ⟨a, n⟩
  · rw [hread] at hshift
    exact pieces_of_not_set hline (by rw [heq, hshift]; rfl)
  · obtain ⟨hpos, hle⟩ := of_setPattern hread
    rw [hread, Option.map_some] at hshift
    -- the match takes the first `n` characters behind the line
    obtain ⟨s, rest, rfl, rfl⟩ : ∃ s rest', rest = s ++ rest' ∧ n = s.length :=
      ⟨rest.take n, rest.drop n, (List.take_append_drop n rest).symm, by
        rw [List.length_take, Nat.min_eq_left hle]⟩
    have hs : s ≠ [] := List.ne_nil_of_length_pos hpos
    have hlength : s.length + (line ++ ['\n']).length = (line ++ ['\n'] ++ s).length := by
      simp only [List.length_append]
      omega
    have hlong : setPattern w before ((line ++ ['\n'] ++ s) ++ rest) =
        some (a, (line ++ ['\n'] ++ s).length) := by
      rw [List.append_assoc, hshift, hlength]
    rw [heq, ← List.append_assoc, pieces_of_match hlong (by simp), pieces_of_match hread hs,
      List.getLast?_append_of_ne_nil _ hs]

/-- A text without newlines that starts a line and what follows it starts the line. -/
theorem prefix_of_prefix_append {lit : List Char} (hlit : '\n' ∉ lit)
    (h : lit <+: line ++ '\n' :: rest) : lit <+: line := by
  rcases List.prefix_or_prefix_of_prefix h (List.prefix_append line _) with hprefix | hprefix
  · exact hprefix
  · obtain ⟨more, rfl⟩ := hprefix
    rcases more with _ | ⟨c, more⟩
    · exact (List.append_nil line).symm ▸ List.prefix_rfl
    · have hc := (List.cons_prefix_cons.1 ((List.prefix_append_right_inj line).1 h)).1
      exact absurd (List.mem_append_right line (hc ▸ List.mem_cons_self)) hlit

/-- The line of an assignment is read, if it is one for the script. -/
theorem filterMap_pieces_set (l : Layout) (name : Name) (value : Value)
    (hbefore : before.all (· == '\n')) :
    (pieces (setPattern w) 0 before ((Statement.set l name value).line ++ '\n' :: rest)).filterMap
        Sum.getLeft? =
      (Statement.set l name value).assignment.toList ++
        (pieces (setPattern w) 0 (some '\n') rest).filterMap Sum.getLeft? := by
  obtain ⟨command, hcommand⟩ : ∃ command, command =
      "set(".toList ++ (name.text ++ (l.gap ++ '"' :: (value.text ++ ['"', ')']))) := ⟨_, rfl⟩
  have hline : (Statement.set l name value).line =
      l.indent ++ (command ++ (l.trail ++ l.comment)) := hcommand ▸ rfl
  -- the pattern reads up to the closing parenthesis and leaves the rest alone
  have hread : ∀ text, setPattern w before (l.indent ++ (command ++ text)) =
      (Statement.set l name value).assignment.map (·, (l.indent ++ command).length) := by
    intro text
    have hdrop : (command ++ text).dropWhile isSpace = command ++ text :=
      dropWhile_of_head? (by rw [hcommand]; rfl)
    have heq : command ++ text =
        "set(".toList ++ (name.text ++ (l.gap ++ '"' :: (value.text ++ '"' :: ')' :: text))) := by
      simp [hcommand]
    rw [setPattern_append l.isSpace_of_mem_indent hbefore, setPattern_eq, hdrop, heq, setRest_set,
      ← heq]
    rcases (Statement.set l name value).assignment with _ | a
    · rfl
    · have hlength : (command ++ text).length - text.length + l.indent.length =
          (l.indent ++ command).length := by
        rw [List.length_append, List.length_append]
        omega
      exact congrArg (fun n ↦ some (a, n)) hlength
  rcases hassign : (Statement.set l name value).assignment with _ | a
  · have hnone :
        setPattern w before ((Statement.set l name value).line ++ '\n' :: rest) = none := by
      rw [hline, List.append_assoc, List.append_assoc, hread, hassign]
      rfl
    exact pieces_of_not_set (Statement.isLineBreak_of_mem_line _) hnone
  · have hsome : setPattern w before (l.indent ++ command ++
        (l.trail ++ l.comment ++ '\n' :: rest)) = some (a, (l.indent ++ command).length) := by
      rw [List.append_assoc, hread, hassign]
      rfl
    have hlast : (l.indent ++ command).getLast? = some ')' := by
      have heq : l.indent ++ command = (l.indent ++ ("set(".toList ++
          (name.text ++ (l.gap ++ '"' :: (value.text ++ ['"']))))) ++ [')'] := by
        simp [hcommand]
      rw [heq, List.getLast?_concat]
    have hrest : ∀ c ∈ l.trail ++ l.comment, isLineBreak c = false := by
      have hblank := fun c hc ↦ isLineBreak_of_isBlank (l.isBlank_of_mem c hc)
      simp only [List.forall_mem_append] at hblank ⊢
      exact ⟨hblank.2.2, l.isLineBreak_of_mem⟩
    rw [hline, ← List.append_assoc, List.append_assoc (l.indent ++ command),
      pieces_of_match hsome (by simp [hcommand]), hlast, List.filterMap_cons]
    exact congrArg (a :: ·) (pieces_of_not_set hrest (setPattern_of_not_start (by decide) _))

/-- Nothing is read from any other line. -/
theorem filterMap_pieces_of_not_set (hline : ∀ c ∈ line, isLineBreak c = false)
    (hset : ¬"set(".toList <+: line.dropWhile isSpace) (hbefore : before.all (· == '\n')) :
    (pieces (setPattern w) 0 before (line ++ '\n' :: rest)).filterMap Sum.getLeft? =
      (pieces (setPattern w) 0 (some '\n') rest).filterMap Sum.getLeft? := by
  by_cases hspace : ∀ c ∈ line, isSpace c
  · exact pieces_of_blank hline hspace hbefore
  · refine pieces_of_not_set hline (setPattern_of_not_set fun h ↦ hset ?_)
    have hne : line.dropWhile isSpace ≠ [] := fun hnil ↦
      hspace (List.dropWhile_eq_nil_iff.1 hnil)
    rw [List.dropWhile_append, if_neg (by simpa using hne)] at h
    exact prefix_of_prefix_append (by decide) h

/-- The line of an argument of a declaration is no assignment. -/
theorem Layout.not_set_line (l : Layout) {command : List Char}
    (hcommand : command.head? = some 'U') :
    ¬"set(".toList <+: (l.line command).dropWhile isSpace := by
  obtain ⟨text, rfl⟩ : ∃ text, command = 'U' :: text := by
    rcases command with _ | ⟨c, text⟩
    · cases hcommand
    · exact ⟨text, congrArg (· :: text) (Option.some.inj hcommand)⟩
  rw [line, List.dropWhile_append_of_pos l.isSpace_of_mem_indent, List.cons_append,
    List.dropWhile_cons_of_neg (by decide)]
  simp

/-- **The assignments of a file** are what its lines say. -/
theorem found_fileText (w : WordClass) (stmts : List Statement) :
    found (setPattern w) (fileText stmts) = stmts.filterMap Statement.assignment := by
  -- every line starts at the beginning of the text or behind a line break
  suffices h : ∀ before : Option Char, before.all (· == '\n') →
      (pieces (setPattern w) 0 before (fileText stmts)).filterMap Sum.getLeft? =
        stmts.filterMap Statement.assignment from h none rfl
  induction stmts with
  | nil => exact fun _ _ ↦ rfl
  | cons stmt stmts ih =>
    intro before hbefore
    have hrest := ih (some '\n') rfl
    have heq : fileText (stmt :: stmts) = stmt.line ++ '\n' :: fileText stmts := by
      simp [fileText, unlines]
    rw [heq]
    rcases stmt with ⟨l, name, value⟩ | ⟨l, arg⟩ | ⟨l, d⟩ | other
    · rw [filterMap_pieces_set l name value hbefore, hrest, List.filterMap_cons]
      rcases (Statement.set l name value).assignment with _ | _
      · rfl
      · rfl
    · have hset : ¬"set(".toList <+: (Statement.url l arg).line.dropWhile isSpace :=
        l.not_set_line rfl
      exact (filterMap_pieces_of_not_set (Statement.isLineBreak_of_mem_line (.url l arg)) hset
        hbefore).trans hrest
    · have hset : ¬"set(".toList <+: (Statement.hash l d).line.dropWhile isSpace :=
        l.not_set_line rfl
      exact (filterMap_pieces_of_not_set (Statement.isLineBreak_of_mem_line (.hash l d)) hset
        hbefore).trans hrest
    · exact (filterMap_pieces_of_not_set other.isLineBreak_of_mem other.not_set hbefore).trans
        hrest

end

/-- **The script knows the last values**, as they are written. -/
theorem get?_cmakeVars (w : WordClass) (stmts : List Statement) (key : List Char) :
    OrderedDict.get? (cmakeVars w (fileText stmts)) key = lastValue stmts key := by
  rw [cmakeVars, found_fileText, OrderedDict.ofPairs, OrderedDict.get?_foldl_insert_eq_foldl,
    List.foldl_filterMap, lastValue]
  congr 1
  funext known stmt
  rw [Statement.write]
  rcases stmt.assignment with _ | ⟨name, value⟩
  · rfl
  · rfl

/-- The script knows only names that consist of word characters. -/
theorem exists_name_of_lastValue {stmts : List Statement} {key value : List Char}
    (h : lastValue stmts key = some value) : ∃ name : Name, name.text = key ∧ isWordName key := by
  rw [← get?_cmakeVars .ascii, cmakeVars, found_fileText] at h
  obtain ⟨⟨l, name, value'⟩ | _ | _ | _, -, hassign⟩ :=
    List.mem_filterMap.1 (OrderedDict.mem_ofPairs (OrderedDict.mem_of_get? h))
  · rw [Statement.assignment] at hassign
    split at hassign
    next hread =>
      obtain ⟨rfl, -⟩ := Prod.mk.inj (Option.some.inj hassign)
      exact ⟨name, rfl, hread.1⟩
    · cases hassign
  all_goals cases hassign

/-! ### What is recorded -/

section

variable {w : WordClass} {vars : List (List Char × List Char)}

theorem event_set (l : Layout) (name : Name) (value : Value) :
    event w vars (Statement.set l name value).line = .other :=
  event_of_other (readLine_set l name value)

theorem event_hash (l : Layout) (d : Digest) :
    event w vars (Statement.hash l d).line = .finish (d.algo, d.digits) :=
  event_of_hash (readLine_hash l d)

/-- A URL line opens a pair with an `https` URL. -/
theorem event_url (l : Layout) (arg : UrlArg) :
    event w vars (Statement.url l arg).line =
      if isHttps (expand w (urlValue l arg) vars) then .start (expand w (urlValue l arg) vars)
      else .reset :=
  event_of_url (readLine_url l arg)

/-- A URL is paired if a hash follows it. -/
theorem exists_finishesAt_iff (stmts : List Statement) :
    (∃ b k, FinishesAt (stmts.map fun stmt ↦ event w vars stmt.line) b k) ↔ hashFollows stmts := by
  induction stmts with
  | nil =>
    refine iff_of_false ?_ Bool.false_ne_true
    rintro ⟨b, k, h, -⟩
    cases h
  | cons stmt stmts ih =>
    rw [List.map_cons]
    have hskip : event w vars stmt.line = .other →
        ((∃ b k, FinishesAt (event w vars stmt.line ::
          stmts.map fun stmt ↦ event w vars stmt.line) b k) ↔ hashFollows stmts) := by
      intro hother
      rw [← ih, hother]
      constructor
      · rintro ⟨b, _ | k, h⟩
        · cases finishesAt_cons_zero.1 h
        · exact ⟨b, k, (finishesAt_cons_succ.1 h).2⟩
      · rintro ⟨b, k, h⟩
        exact ⟨b, k + 1, finishesAt_cons_succ.2 ⟨rfl, h⟩⟩
    rcases stmt with ⟨l, name, value⟩ | ⟨l, arg⟩ | ⟨l, d⟩ | other
    · exact hskip (event_set l name value)
    · refine iff_of_false ?_ Bool.false_ne_true
      rw [event_url]
      rintro ⟨b, _ | k, h⟩
      · have hevent := finishesAt_cons_zero.1 h
        split at hevent
        · cases hevent
        · cases hevent
      · have hevent := (finishesAt_cons_succ.1 h).1
        split at hevent
        · cases hevent
        · cases hevent
    · rw [event_hash]
      exact iff_of_true ⟨_, 0, finishesAt_cons_zero.2 rfl⟩ rfl
    · exact hskip (event_of_other other.readLine_eq)

end

/-- **A URL is recorded** for its line if a hash follows it and `expand` gives an `https` URL. -/
theorem recorded_iff (w : WordClass) {stmts before after : List Statement} {l : Layout}
    {arg : UrlArg} (h : stmts = before ++ .url l arg :: after) {u : List Char} :
    Recorded w (fileText stmts) before.length u ↔
      hashFollows after ∧ isHttps u ∧
        expand w (urlValue l arg) (cmakeVars w (fileText stmts)) = u := by
  obtain ⟨vars, hvars⟩ : ∃ vars, vars = cmakeVars w (fileText stmts) := ⟨_, rfl⟩
  have hevents : events w (fileText stmts) =
      (before.map fun stmt ↦ event w vars stmt.line) ++
        event w vars (Statement.url l arg).line ::
          after.map fun stmt ↦ event w vars stmt.line := by
    rw [events, splitlines_fileText, List.map_map, ← hvars, h, List.map_append, List.map_cons]
    rfl
  -- the lines before the URL only shift its number
  have hadj : ∀ k b,
      Adjacent (events w (fileText stmts)) before.length u (before.length + (k + 1)) b ↔
        event w vars (Statement.url l arg).line = .start u ∧
          FinishesAt (after.map fun stmt ↦ event w vars stmt.line) b k := by
    intro k b
    have hshift : Adjacent (events w (fileText stmts))
        ((before.map fun stmt ↦ event w vars stmt.line).length + 0) u
        ((before.map fun stmt ↦ event w vars stmt.line).length + (k + 1)) b ↔ _ :=
      hevents ▸ adjacent_append_left _
    rw [List.length_map, Nat.add_zero] at hshift
    rw [hshift, adjacent_cons_zero]
  have hstart : event w vars (Statement.url l arg).line = .start u ↔
      isHttps u ∧ expand w (urlValue l arg) vars = u := by
    rw [event_url]
    constructor
    · intro hevent
      split at hevent
      next hhttps =>
        obtain rfl := Event.start.inj hevent
        exact ⟨hhttps, rfl⟩
      · cases hevent
    · rintro ⟨hhttps, rfl⟩
      exact if_pos hhttps
  have hfollows : (∃ b k, FinishesAt (after.map fun stmt ↦ event w vars stmt.line) b k) ↔
      hashFollows after := exists_finishesAt_iff after
  rw [← hvars, ← hstart, ← hfollows]
  constructor
  · rintro ⟨p, hp, hline, rfl⟩
    have hp := mem_pairs_iff.1 hp
    obtain ⟨k, hk⟩ : ∃ k, p.finishAt = before.length + (k + 1) :=
      ⟨p.finishAt - before.length - 1, by have := hp.lt; omega⟩
    rw [hline, hk, hadj] at hp
    exact ⟨⟨_, _, hp.2⟩, hp.1⟩
  · rintro ⟨⟨b, k, hfinish⟩, hevent⟩
    have hpaired := (hadj k b).2 ⟨hevent, hfinish⟩
    exact ⟨⟨before.length, u, before.length + (k + 1), b⟩, mem_pairs_iff.2 hpaired, rfl, rfl⟩

/-- The hash of a pair is one of the file. -/
theorem exists_digest_of_mem_attachments {w : WordClass} {stmts : List Statement}
    {p : Pair (List Char) (ShaAlgo × List Char)} (hp : p ∈ attachments w (fileText stmts)) :
    ∃ d : Digest, p.finished = (d.algo, d.digits) := by
  have hmem := List.mem_of_getElem? (mem_pairs_iff.1 hp).finish
  rw [events, splitlines_fileText, List.map_map] at hmem
  obtain ⟨⟨l, name, value⟩ | ⟨l, arg⟩ | ⟨l, d⟩ | other, -, hevent⟩ := List.mem_map.1 hmem
  · cases (event_set l name value).symm.trans hevent
  · have hevent := (event_url l arg).symm.trans hevent
    split at hevent
    · cases hevent
    · cases hevent
  · exact ⟨d, (Event.finish.inj ((event_hash l d).symm.trans hevent)).symm⟩
  · cases (event_of_other other.readLine_eq).symm.trans hevent

/-- The scan of a file returns. -/
theorem exists_scanArchives (w : WordClass) (stmts : List Statement) :
    ∃ archives, scanArchives w [fileText stmts] = .ok archives := by
  have hflat : [fileText stmts].flatMap (attachments w) = attachments w (fileText stmts) :=
    List.flatMap_singleton _ _
  refine ⟨_, (scanArchives_eq _).trans (foldlM_attach fun p hp ↦ ?_)⟩
  rw [hflat] at hp
  obtain ⟨d, hd⟩ := exists_digest_of_mem_attachments hp
  rw [entry, Option.isSome_map, hd, isSome_sri,
    Base64.isSome_fromhex_iff d.isSome_hexValue_of_mem]
  exact d.even

end TheRock.ThirdParty
