import NixStrixHalo.Library.PythonText
import NixStrixHalo.Library.Result

/-!
# Comma separated values as Python writes and reads them

The `excel` dialect of the `csv` module: a writer that quotes a field only where it must, and the
reader, a machine that runs through the lines of a text. A text is cut into lines at more characters
than the writer quotes, and a program may drop the blank lines before it reads. Rows survive both
(`read_writeRows`): a field without line breaks is read back as it was written, and what an unquoted
last field has after a line break becomes rows of a single field.

## The machine

`process` is one character of `parse_process_char`, with the end of a line as a character of its
own, and `read` starts a new record wherever a line leaves the machine between records. A field is
limited in length, and so are the fields of a row that can be read (`Writable`).

## Lines that are dropped

Inside quotes a blank line is part of a field, so dropping it changes what is read; what remains is
that the quotes still close at the same place. That is why the rows are the same up to such fields
(`ReadBack`), and the proof follows the text from line to line (`read_keepHead_append`).

Characters that a program removes from the whole text, such as NUL, may be removed from the fields
before they are written, as long as the format does not use them (`Keeps`).
-/

namespace Csv

open PythonText

/-! ### Writing -/

/-- A field with one of these characters is written between quotes. -/
def needsQuotes (field : List Char) : Bool :=
  field.any fun c ↦ c = ',' ∨ c = '"' ∨ c = '\r' ∨ c = '\n'

/-- The field with its quotes doubled. -/
def doubled (field : List Char) : List Char :=
  field.flatMap fun c ↦ if c = '"' then ['"', '"'] else [c]

def writeField (field : List Char) : List Char :=
  if needsQuotes field then '"' :: (doubled field ++ ['"']) else field

def writeFields : List (List Char) → List Char
  | [] => []
  | [field] => writeField field
  | field :: fields => writeField field ++ ',' :: writeFields fields

/-- `writer.writerow(row)`. An empty field is quoted where it is the only one. -/
def writeRow (row : List (List Char)) : List Char :=
  (if row = [[]] then ['"', '"'] else writeFields row) ++ ['\r', '\n']

/-! ### Reading -/

inductive State
  | startRecord
  | startField
  | inField
  | inQuotedField
  | quoteInQuotedField
  | eatCrnl
  deriving DecidableEq

inductive Error
  | fieldLarger
  | newlineInUnquotedField
  deriving DecidableEq

/-- The reader within a record: the field that it is in and the fields before it. -/
structure Reader where
  state : State := .startRecord
  field : List Char := []
  fields : List (List Char) := []
  deriving DecidableEq

namespace Reader

variable (limit : ℕ)

/-- The field is complete. -/
def save (r : Reader) (state : State) : Reader :=
  { state, field := [], fields := r.fields ++ [r.field] }

/-- One more character of the field, up to `csv.field_size_limit()`. -/
def add (r : Reader) (c : Char) (state : State) : Except Error Reader :=
  if r.field.length < limit then .ok { r with state, field := r.field ++ [c] }
  else .error .fieldLarger

def processStartField (r : Reader) : Option Char → Except Error Reader
  | none => .ok (r.save .startRecord)
  | some c =>
    if c = '\n' ∨ c = '\r' then .ok (r.save .eatCrnl)
    else if c = '"' then .ok { r with state := .inQuotedField }
    else if c = ',' then .ok (r.save .startField)
    else r.add limit c .inField

/-- `parse_process_char`. After the characters of a line comes `none`. -/
def process (r : Reader) (c : Option Char) : Except Error Reader :=
  match r.state, c with
  | .startRecord, none => .ok r
  | .startRecord, some c =>
    if c = '\n' ∨ c = '\r' then .ok { r with state := .eatCrnl }
    else r.processStartField limit (some c)
  | .startField, c => r.processStartField limit c
  | .inField, none => .ok (r.save .startRecord)
  | .inField, some c =>
    if c = '\n' ∨ c = '\r' then .ok (r.save .eatCrnl)
    else if c = ',' then .ok (r.save .startField)
    else r.add limit c .inField
  | .inQuotedField, none => .ok r
  | .inQuotedField, some c =>
    if c = '"' then .ok { r with state := .quoteInQuotedField } else r.add limit c .inQuotedField
  | .quoteInQuotedField, none => .ok (r.save .startRecord)
  | .quoteInQuotedField, some c =>
    if c = '"' then r.add limit c .inQuotedField
    else if c = ',' then .ok (r.save .startField)
    else if c = '\n' ∨ c = '\r' then .ok (r.save .eatCrnl)
    else r.add limit c .inField
  | .eatCrnl, none => .ok { r with state := .startRecord }
  | .eatCrnl, some c =>
    if c = '\n' ∨ c = '\r' then .ok r else .error .newlineInUnquotedField

def processChars (r : Reader) : List Char → Except Error Reader
  | [] => .ok r
  | c :: cs => (r.process limit (some c)).bind fun r ↦ r.processChars cs

def processLine (r : Reader) (line : List Char) : Except Error Reader :=
  (r.processChars limit line).bind fun r ↦ r.process limit none

end Reader

/-- The records of `csv.reader(lines)`, from within a record. -/
def read (limit : ℕ) : Reader → List (List Char) → Except Error (List (List (List Char)))
  | r, [] =>
    if r.field ≠ [] ∨ r.state = .inQuotedField then .ok [(r.save .startRecord).fields] else .ok []
  | r, line :: lines => (r.processLine limit line).bind fun r ↦
    if r.state = .startRecord then (read limit {} lines).map (r.fields :: ·)
    else read limit r lines

/-! ### The reader over a piece of text -/

variable {limit : ℕ} {r r' : Reader} {c : Char} {field field' text line : List Char}
  {lines fields : List (List Char)}

namespace Reader

/-- A text is read part after part. -/
theorem processChars_append (r : Reader) (cs cs' : List Char) :
    r.processChars limit (cs ++ cs') =
      (r.processChars limit cs).bind fun r ↦ r.processChars limit cs' := by
  induction cs generalizing r with
  | nil => rfl
  | cons c cs ih =>
    rw [List.cons_append, processChars, processChars]
    rcases r.process limit (some c) with e | r
    · rfl
    · exact ih r

/-- Characters of a field that are no delimiter, no quote and no newline. -/
def Plain (field : List Char) : Prop := ∀ c ∈ field, c ≠ ',' ∧ c ≠ '"' ∧ c ≠ '\r' ∧ c ≠ '\n'

/-- Plain characters in a field are appended to it. -/
theorem processChars_inField (hplain : Plain field) (hstate : r.state = .inField)
    (hlength : r.field.length + field.length ≤ limit) :
    r.processChars limit field = .ok { r with field := r.field ++ field } := by
  induction field generalizing r with
  | nil => simp [processChars]
  | cons c field ih =>
    obtain ⟨⟨hcomma, -, hr, hn⟩, hplain⟩ := List.forall_mem_cons.1 hplain
    rw [List.length_cons] at hlength
    have hprocess : r.process limit (some c) = .ok { r with field := r.field ++ [c] } := by
      simp only [process, hstate]
      rw [if_neg (not_or_intro hn hr), if_neg hcomma, add, if_pos (by omega)]
    have hrest : (r.field ++ [c]).length + field.length ≤ limit := by
      rw [List.length_append, List.length_singleton]
      omega
    rw [processChars, hprocess]
    refine (ih (r := { r with field := r.field ++ [c] }) hplain hstate hrest).trans ?_
    rw [List.append_assoc]
    rfl

/-- Where a field may start. -/
def Ready (r : Reader) : Prop := (r.state = .startRecord ∨ r.state = .startField) ∧ r.field = []

/-- A reader that waits for a field starts one at anything but the end of the line. -/
theorem process_ready (hready : r.Ready) (hn : c ≠ '\n') (hr : c ≠ '\r') :
    r.process limit (some c) = r.processStartField limit (some c) := by
  rcases hready.1 with h | h
  · simp only [process, h]
    rw [if_neg (not_or_intro hn hr)]
  · simp only [process, h]

/-- A plain field is read by a reader that waits for one. -/
theorem processChars_ready (hready : r.Ready) (hplain : Plain field) (hne : field ≠ [])
    (hlength : field.length ≤ limit) :
    r.processChars limit field = .ok { r with state := .inField, field } := by
  obtain ⟨c, field, rfl⟩ := List.exists_cons_of_ne_nil hne
  obtain ⟨⟨hcomma, hquote, hr, hn⟩, hrest⟩ := List.forall_mem_cons.1 hplain
  rw [List.length_cons] at hlength
  have hprocess : r.process limit (some c) = .ok { r with state := .inField, field := [c] } := by
    rw [process_ready hready hn hr, processStartField, if_neg (not_or_intro hn hr), if_neg hquote,
      if_neg hcomma, add, hready.2, if_pos (by rw [List.length_nil]; omega), List.nil_append]
  rw [processChars, hprocess, Except.bind, processChars_inField hrest rfl]
  · rfl
  · simp only [List.length_singleton]
    omega

/-- **An unquoted field** and the delimiter after it. -/
theorem processChars_plain_comma (hready : r.Ready) (hplain : Plain field)
    (hlength : field.length ≤ limit) : r.processChars limit (field ++ [',']) =
      .ok { state := .startField, fields := r.fields ++ [field] } := by
  rcases eq_or_ne field [] with rfl | hne
  · rw [List.nil_append, processChars, process_ready hready (by decide) (by decide),
      processStartField, if_neg (by decide), if_neg (by decide), if_pos rfl, save, hready.2]
    rfl
  · rw [processChars_append, processChars_ready hready hplain hne hlength]
    rfl

/-- **An unquoted field** at the end of a line. -/
theorem processLine_plain (hready : r.Ready) (hplain : Plain field)
    (hlength : field.length ≤ limit) (hne : field ≠ [] ∨ r.state = .startField) :
    r.processLine limit field =
      .ok { state := .startRecord, fields := r.fields ++ [field] } := by
  rw [processLine]
  by_cases hnil : field = []
  · subst hnil
    have hstate := hne.resolve_left fun h ↦ h rfl
    simp only [processChars, Except.bind, process, hstate]
    rw [processStartField, save, hready.2]
  · rw [processChars_ready hready hplain hnil hlength]
    rfl

/-- Within quotes, doubled quotes are read as single ones. -/
theorem processChars_quoted (hstate : r.state = .inQuotedField)
    (hlength : r.field.length + field.length ≤ limit) :
    r.processChars limit (doubled field) = .ok { r with field := r.field ++ field } := by
  induction field generalizing r with
  | nil => simp [processChars, doubled]
  | cons c field ih =>
    rw [List.length_cons] at hlength
    have hrest : (r.field ++ [c]).length + field.length ≤ limit := by
      rw [List.length_append, List.length_singleton]
      omega
    -- a quote is doubled, and the machine comes back to the quoted field after the second one
    have hchar : r.processChars limit (if c = '"' then ['"', '"'] else [c]) =
        .ok { r with field := r.field ++ [c] } := by
      split
      next hquote =>
        subst hquote
        simp only [processChars, process, hstate, if_true, Except.bind, add]
        rw [if_pos (by omega)]
      next hquote =>
        simp only [processChars, process, hstate, add]
        rw [if_neg hquote, if_pos (by omega)]
        rfl
    rw [doubled, List.flatMap_cons, processChars_append, hchar]
    refine (ih (r := { r with field := r.field ++ [c] }) hstate hrest).trans ?_
    rw [List.append_assoc]
    rfl

end Reader

/-- Characters at the start of a line can be read before the rest of it. -/
theorem read_append {cs : List Char} (h : r.processChars limit cs = .ok r') :
    read limit r ((cs ++ line) :: lines) = read limit r' (line :: lines) := by
  rw [read, read, Reader.processLine, Reader.processLine, Reader.processChars_append, h]
  rfl

/-- A line that ends within a quoted field. -/
theorem read_quoted_line (hstate : r.state = .inQuotedField)
    (hlength : r.field.length + field.length ≤ limit) :
    read limit r (doubled field :: lines) =
      read limit { r with field := r.field ++ field } lines := by
  rw [read, Reader.processLine, Reader.processChars_quoted hstate hlength]
  simp only [Except.bind, Reader.process, hstate]
  rw [if_neg (by decide)]

/-- A line that ends a record is one, and the reader starts anew. -/
theorem read_record (h : r.processLine limit line = .ok r') (hstate : r'.state = .startRecord) :
    read limit r (line :: lines) = (read limit {} lines).map (r'.fields :: ·) := by
  rw [read, h]
  exact if_pos hstate

/-! ### Line breaks -/

/-- What is before the first line break and what is after it. -/
def cut : List Char → Option (List Char × List Char)
  | [] => none
  | '\r' :: '\n' :: cs => some ([], cs)
  | c :: cs => if isLineBreak c then some ([], cs) else (cut cs).map fun p ↦ (c :: p.1, p.2)

/-- Nothing is cut where there is no line break. -/
theorem cut_eq_none_iff : cut field = none ↔ ∀ c ∈ field, isLineBreak c = false := by
  induction field using cut.induct with
  | case1 => simp [cut]
  | case2 cs => simp [cut, isLineBreak]
  | case3 c cs hnot hbreak =>
    rw [cut, if_pos hbreak]
    · exact iff_of_false (Option.some_ne_none _) fun h ↦
        absurd hbreak (by simp [h c List.mem_cons_self])
    · exact hnot
  | case4 c cs hnot hbreak ih =>
    rw [cut, if_neg hbreak, Option.map_eq_none_iff, ih, List.forall_mem_cons]
    · exact (and_iff_right (Bool.eq_false_iff.2 hbreak)).symm
    · exact hnot

/-- A cut takes the first line break out; what is left is part of the field and shorter. -/
theorem cut_eq_some {before after : List Char} (h : cut field = some (before, after)) :
    (∀ c ∈ before, isLineBreak c = false) ∧ before ⊆ field ∧ after ⊆ field ∧
      before.length + after.length < field.length := by
  induction field using cut.induct generalizing before with
  | case1 => cases h
  | case2 cs =>
    obtain ⟨rfl, rfl⟩ := Prod.mk.inj (Option.some.inj h)
    refine ⟨nofun, List.nil_subset _, fun c hc ↦ by simp [hc], ?_⟩
    simp only [List.length_cons, List.length_nil]
    omega
  | case3 c cs hnot hbreak =>
    rw [cut, if_pos hbreak] at h
    · obtain ⟨rfl, rfl⟩ := Prod.mk.inj (Option.some.inj h)
      refine ⟨nofun, List.nil_subset _, List.subset_cons_self _ _, ?_⟩
      simp
    · exact hnot
  | case4 c cs hnot hbreak ih =>
    rw [cut, if_neg hbreak] at h
    · obtain ⟨⟨before', after'⟩, hcut, heq⟩ := Option.map_eq_some_iff.1 h
      obtain ⟨rfl, rfl⟩ := Prod.mk.inj heq
      obtain ⟨hbefore, hsub, hsub', hlength⟩ := ih hcut
      refine ⟨List.forall_mem_cons.2 ⟨Bool.eq_false_iff.2 hbreak, hbefore⟩,
        List.cons_subset_cons c hsub, List.Subset.trans hsub' (List.subset_cons_self c cs), ?_⟩
      rw [List.length_cons, List.length_cons, Nat.succ_add]
      exact Nat.succ_lt_succ hlength
    · exact hnot

/-- Characters without a line break go before the first line. -/
theorem splitlines_append_of_lines {cs : List Char} (hcs : ∀ c ∈ cs, isLineBreak c = false)
    (h : splitlines text = line :: lines) : splitlines (cs ++ text) = (cs ++ line) :: lines := by
  induction cs with
  | nil => exact h
  | cons c cs ih =>
    obtain ⟨hc, hcs⟩ := List.forall_mem_cons.1 hcs
    rw [List.cons_append, splitlines_of_not_isLineBreak hc, ih hcs]
    rfl

/-- A carriage return ends a line. -/
theorem splitlines_cr (h : text.head? ≠ some '\n') :
    splitlines ('\r' :: text) = [] :: splitlines text := by
  rw [splitlines, if_pos (by decide)]
  rintro cs - rfl
  exact h rfl

/-- Doubling quotes makes no line break. -/
theorem isLineBreak_of_mem_doubled (h : ∀ c ∈ field, isLineBreak c = false) :
    ∀ c ∈ doubled field, isLineBreak c = false := by
  intro c hc
  obtain ⟨d, hd, hc⟩ := List.mem_flatMap.1 hc
  split at hc
  · simp only [List.mem_cons, List.not_mem_nil, or_false, or_self] at hc
    exact hc ▸ by decide
  · exact List.mem_singleton.1 hc ▸ h d hd

/-- Doubling quotes puts no newline at the front. -/
theorem head?_doubled_append (hfield : field.head? ≠ some '\n') (htext : text.head? ≠ some '\n') :
    (doubled field ++ text).head? ≠ some '\n' := by
  rcases field with _ | ⟨c, field⟩
  · exact htext
  · rw [doubled, List.flatMap_cons]
    split
    · simp
    · simpa using hfield

/-- A line break of a field ends a line of the text, with the quotes of the field doubled. -/
theorem splitlines_doubled_of_cut (text : List Char) {before after : List Char}
    (h : cut field = some (before, after)) (htext : text.head? ≠ some '\n') :
    splitlines (doubled field ++ text) = doubled before :: splitlines (doubled after ++ text) := by
  induction field using cut.induct generalizing before with
  | case1 => cases h
  | case2 cs =>
    obtain ⟨rfl, rfl⟩ := Prod.mk.inj (Option.some.inj h)
    rfl
  | case3 c cs hnot hbreak =>
    rw [cut, if_pos hbreak] at h
    · obtain ⟨rfl, rfl⟩ := Prod.mk.inj (Option.some.inj h)
      have hquote : c ≠ '"' := fun heq ↦ absurd hbreak (heq ▸ by decide)
      rw [doubled, List.flatMap_cons, if_neg hquote, List.append_assoc, List.singleton_append]
      by_cases hr : c = '\r'
      · subst hr
        -- doubling puts no newline behind the carriage return, so it is a line break of its own
        refine splitlines_cr (head?_doubled_append (fun hhead ↦ ?_) htext)
        obtain ⟨cs', rfl⟩ : ∃ cs', cs = '\n' :: cs' := by
          rcases cs with _ | ⟨d, cs⟩
          · cases hhead
          · exact ⟨cs, by rw [Option.some.inj hhead]⟩
        exact hnot cs' rfl rfl
      · exact splitlines_of_isLineBreak hbreak hr
    · exact hnot
  | case4 c cs hnot hbreak ih =>
    rw [cut, if_neg hbreak] at h
    · obtain ⟨⟨before', after'⟩, hcut, heq⟩ := Option.map_eq_some_iff.1 h
      obtain ⟨rfl, rfl⟩ := Prod.mk.inj heq
      have hc : ∀ d ∈ (if c = '"' then ['"', '"'] else [c]), isLineBreak d = false := by
        have hsingle : ∀ d ∈ doubled [c], isLineBreak d = false :=
          isLineBreak_of_mem_doubled (by simpa using hbreak)
        simpa [doubled] using hsingle
      rw [doubled, List.flatMap_cons, List.append_assoc]
      exact splitlines_append_of_lines hc (ih hcut)
    · exact hnot

/-! ### Lines without the blank ones -/

/-- The line has a character that is no space: `line.strip()` is not empty. -/
def notBlank (line : List Char) : Bool := strip line ≠ []

/-- A line with a character that is no space is not blank. -/
theorem notBlank_of_mem (h : c ∈ line) (hc : isSpace c = false) : notBlank line = true := by
  rw [notBlank, decide_eq_true_eq]
  intro hstrip
  have hall : ∀ d ∈ (line.dropWhile isSpace).reverse, isSpace d :=
    List.dropWhile_eq_nil_iff.1 (List.reverse_eq_nil_iff.1 hstrip)
  have hdrop : c ∉ line.dropWhile isSpace := fun hmem ↦
    absurd (hall c (List.mem_reverse.2 hmem)) (by simp [hc])
  have hmem := List.takeWhile_append_dropWhile (p := isSpace) (l := line) ▸ h
  have htake := (List.mem_append.1 hmem).resolve_right hdrop
  exact absurd (List.mem_takeWhile_imp htake) (by simp [hc])

/-- The lines from within the first one, without the blank ones after it. -/
def keepHead : List (List Char) → List (List Char)
  | [] => []
  | line :: lines => line :: lines.filter notBlank

/-- The first line is kept if it is not blank. -/
theorem filter_eq_keepHead (h : notBlank line = true) :
    (line :: lines).filter notBlank = keepHead (line :: lines) :=
  List.filter_cons_of_pos h

/-- **A quoted field**, from after its first quote to after its last one: its lines are joined, the
blank ones may be missing, and nothing else of it changes. -/
theorem read_quoted (hstate : r.state = .inQuotedField)
    (hlength : r.field.length + field.length ≤ limit) (htext : splitlines text = line :: lines)
    {rest : List (List Char)}
    (hrest : rest = keepHead (splitlines (doubled field ++ '"' :: text)) ∨
      rest = (splitlines (doubled field ++ '"' :: text)).filter notBlank) :
    ∃ field', (cut field = none → field' = field) ∧ read limit r rest =
      read limit { r with state := .quoteInQuotedField, field := r.field ++ field' }
        (keepHead (line :: lines)) := by
  have hquote : splitlines ('"' :: text) = ('"' :: line) :: lines := by
    rw [splitlines_of_not_isLineBreak (by decide), htext]
    rfl
  -- each line break of the field shortens what is left; dropping blank lines may skip several of
  -- them at once
  -- each line break of the field shortens what is left; dropping blank lines may skip several of
  -- them at once
  induction hn : field.length using Nat.strong_induction_on generalizing field r rest with
  | _ n ih =>
    rcases hcut : cut field with _ | ⟨before, after⟩
    · refine ⟨field, fun _ ↦ rfl, ?_⟩
      have hnot := isLineBreak_of_mem_doubled (cut_eq_none_iff.1 hcut)
      have hlines := splitlines_append_of_lines hnot hquote
      have hrest : rest = (doubled field ++ '"' :: line) :: lines.filter notBlank := by
        rw [hlines] at hrest
        rcases hrest with rfl | rfl
        · rfl
        · exact filter_eq_keepHead (notBlank_of_mem (c := '"') (by simp) (by decide))
      have hchars : r.processChars limit (doubled field ++ ['"']) =
          .ok { r with state := .quoteInQuotedField, field := r.field ++ field } := by
        rw [Reader.processChars_append, Reader.processChars_quoted hstate hlength]
        simp only [Except.bind, Reader.processChars, Reader.process, hstate, if_true]
      rw [hrest, List.append_cons, read_append hchars]
      rfl
    · obtain ⟨-, -, -, hlt⟩ := cut_eq_some hcut
      have hlines := splitlines_doubled_of_cut ('"' :: text) hcut (by simp)
      rw [hlines] at hrest
      have hshort : after.length < n := by omega
      by_cases hblank : rest = (splitlines (doubled after ++ '"' :: text)).filter notBlank
      · obtain ⟨field', -, hread⟩ := ih _ hshort hstate (by omega) (Or.inr hblank) rfl
        exact ⟨field', nofun, hread⟩
      · have hline : rest = doubled before ::
            (splitlines (doubled after ++ '"' :: text)).filter notBlank := by
          rcases hrest with rfl | rfl
          · rfl
          · rw [List.filter_cons] at hblank ⊢
            split
            · rfl
            next h => exact absurd (if_neg h) hblank
        have hbefore : r.field.length + before.length ≤ limit := by omega
        have hafter : (r.field ++ before).length + after.length ≤ limit := by
          rw [List.length_append]
          omega
        obtain ⟨field', -, hread⟩ := ih _ hshort
          (r := { r with field := r.field ++ before }) hstate hafter (Or.inr rfl) rfl
        refine ⟨before ++ field', nofun, ?_⟩
        rw [hline, read_quoted_line hstate hbefore, hread, List.append_assoc]

/-! ### Fields -/

/-- A field that the reader does not cut: it is quoted or has no line breaks. -/
def Whole (field : List Char) : Prop := needsQuotes field ∨ cut field = none

/-- A field that needs no quotes is plain. -/
theorem plain_of_needsQuotes_eq_false (h : needsQuotes field = false) : Reader.Plain field := by
  intro c hc
  have hc := List.any_eq_false.1 h c hc
  simp only [decide_eq_true_eq, not_or] at hc
  exact hc

/-- A plain field has no quotes to double. -/
theorem doubled_eq_self (h : Reader.Plain field) : doubled field = field := by
  rw [doubled, List.flatMap_congr fun c hc ↦ if_neg (h c hc).2.1]
  exact List.flatMap_singleton' field

/-- A text that is not empty has a first line. -/
theorem exists_splitlines_eq_cons (h : text ≠ []) :
    ∃ line lines, splitlines text = line :: lines := by
  rw [← List.ne_nil_iff_exists_cons]
  intro hnil
  induction text using splitlines.induct with
  | case1 => exact h rfl
  | case2 cs => cases hnil
  | case3 c cs hnot hbreak =>
    rw [splitlines, if_pos hbreak] at hnil
    · cases hnil
    · exact hnot
  | case4 c cs hnot hbreak =>
    rw [splitlines_of_not_isLineBreak (Bool.eq_false_iff.2 hbreak)] at hnil
    rcases hcs : splitlines cs with _ | ⟨line, lines⟩
    · rw [hcs] at hnil
      cases hnil
    · rw [hcs] at hnil
      cases hnil

/-- Characters that end no line, read from the line that they are in. -/
theorem read_keepHead_append {cs : List Char} (hcs : ∀ c ∈ cs, isLineBreak c = false)
    (htext : text ≠ []) (h : r.processChars limit cs = .ok r') :
    read limit r (keepHead (splitlines (cs ++ text))) =
      read limit r' (keepHead (splitlines text)) := by
  obtain ⟨line, lines, hlines⟩ := exists_splitlines_eq_cons htext
  rw [splitlines_append_of_lines hcs hlines, hlines]
  exact read_append h

/-- A quoted field and its two quotes. -/
theorem read_writeField_quoted (hready : r.Ready) (hlength : field.length ≤ limit)
    (htext : text ≠ []) : ∃ field', (cut field = none → field' = field) ∧
      read limit r (keepHead (splitlines ('"' :: (doubled field ++ '"' :: text)))) =
        read limit { r with state := .quoteInQuotedField, field := field' }
          (keepHead (splitlines text)) := by
  have hopen : r.processChars limit ['"'] = .ok { r with state := .inQuotedField } := by
    rw [Reader.processChars, Reader.process_ready hready (by decide) (by decide)]
    rfl
  obtain ⟨line, lines, hlines⟩ := exists_splitlines_eq_cons htext
  have hfield : r.field.length + field.length ≤ limit := by rw [hready.2]; simpa using hlength
  obtain ⟨field', hsame, hread⟩ := read_quoted (r := { r with state := .inQuotedField }) rfl
    hfield hlines (Or.inl rfl)
  refine ⟨field', hsame, ?_⟩
  have hne : doubled field ++ '"' :: text ≠ [] := by simp
  rw [← List.singleton_append, read_keepHead_append (by decide) hne hopen, hread, hlines, hready.2,
    List.nil_append]

/-- **A field and the delimiter after it.** -/
theorem read_writeField_comma (hready : r.Ready) (hwhole : Whole field)
    (hlength : field.length ≤ limit) (htext : text ≠ []) :
    ∃ field', (cut field = none → field' = field) ∧
      read limit r (keepHead (splitlines (writeField field ++ ',' :: text))) =
        read limit { state := .startField, fields := r.fields ++ [field'] }
          (keepHead (splitlines text)) := by
  rw [writeField]
  split
  next hquotes =>
    obtain ⟨field', hsame, hread⟩ := read_writeField_quoted hready hlength
      (List.cons_ne_nil ',' text)
    refine ⟨field', hsame, ?_⟩
    rw [List.cons_append, List.append_assoc, List.singleton_append, hread]
    have hcomma : ∀ c ∈ [','], isLineBreak c = false := by decide
    exact read_keepHead_append hcomma htext rfl
  next hquotes =>
    have hcut := hwhole.resolve_left hquotes
    have hplain := plain_of_needsQuotes_eq_false (Bool.eq_false_iff.2 hquotes)
    have hnot : ∀ c ∈ field ++ [','], isLineBreak c = false := fun c hc ↦
      (List.mem_append.1 hc).elim (cut_eq_none_iff.1 hcut c)
        fun hc ↦ List.mem_singleton.1 hc ▸ by decide
    refine ⟨field, fun _ ↦ rfl, ?_⟩
    rw [List.append_cons]
    exact read_keepHead_append hnot htext (Reader.processChars_plain_comma hready hplain hlength)

/-! ### The last field of a row -/

/-- Records of a single field, which an unquoted field with line breaks leaves behind. -/
def Singles (records : List (List (List Char))) : Prop := ∀ record ∈ records, record.length = 1

/-- What is left of an unquoted field after a line break. -/
theorem read_plain_lines (hplain : Reader.Plain field) (hlength : field.length ≤ limit)
    (text : List Char) : ∃ singles, Singles singles ∧
      read limit {} ((splitlines (field ++ '\r' :: '\n' :: text)).filter notBlank) =
        (read limit {} ((splitlines text).filter notBlank)).map (singles ++ ·) := by
  -- each line of the field is a record of its own, unless it is blank
  induction hn : field.length using Nat.strong_induction_on generalizing field with
  | _ n ih =>
    have hready : ({} : Reader).Ready := ⟨Or.inl rfl, rfl⟩
    have hline : ∀ {line : List Char} {lines}, Reader.Plain line → line.length ≤ limit →
        notBlank line = true → read limit {} ((line :: lines).filter notBlank) =
          (read limit {} (lines.filter notBlank)).map ([line] :: ·) := by
      intro line lines hplain hlength hblank
      have hne : line ≠ [] := fun heq ↦ absurd hblank (heq ▸ by decide)
      rw [List.filter_cons_of_pos hblank]
      exact read_record (Reader.processLine_plain hready hplain hlength (Or.inl hne)) rfl
    rcases hcut : cut field with _ | ⟨before, after⟩
    · have hlines : splitlines (field ++ '\r' :: '\n' :: text) = field :: splitlines text := by
        rw [splitlines_append_of_lines (cut_eq_none_iff.1 hcut) (by rw [splitlines]),
          List.append_nil]
      rw [hlines]
      by_cases hblank : notBlank field = true
      · exact ⟨[[field]], by simp [Singles], hline hplain hlength hblank⟩
      · refine ⟨[], by simp [Singles], ?_⟩
        rw [List.filter_cons_of_neg hblank]
        rcases read limit {} ((splitlines text).filter notBlank) with e | records
        · rfl
        · rfl
    · obtain ⟨-, hsub, hsub', hlt⟩ := cut_eq_some hcut
      have hlines := splitlines_doubled_of_cut ('\r' :: '\n' :: text) hcut (by simp)
      have hbefore : Reader.Plain before := fun c hc ↦ hplain c (hsub hc)
      have hafter : Reader.Plain after := fun c hc ↦ hplain c (hsub' hc)
      rw [doubled_eq_self hplain, doubled_eq_self hbefore, doubled_eq_self hafter] at hlines
      obtain ⟨singles, hsingles, hread⟩ := ih _ (by omega) hafter (by omega) rfl
      rw [hlines]
      by_cases hblank : notBlank before = true
      · refine ⟨[before] :: singles, List.forall_mem_cons.2 ⟨rfl, hsingles⟩, ?_⟩
        rw [hline hbefore (by omega) hblank, hread]
        rcases read limit {} ((splitlines text).filter notBlank) with e | records
        · rfl
        · rfl
      · rw [List.filter_cons_of_neg hblank]
        exact ⟨singles, hsingles, hread⟩

/-- **The last field of a row**, and what comes after the row. -/
theorem read_writeField_end (hready : r.Ready) (hstate : r.state = .startField)
    (hlength : field.length ≤ limit) (text : List Char) :
    ∃ field' singles, (cut field = none → field' = field) ∧ Singles singles ∧
      read limit r (keepHead (splitlines (writeField field ++ '\r' :: '\n' :: text))) =
        (read limit {} ((splitlines text).filter notBlank)).map
          ((r.fields ++ [field']) :: singles ++ ·) := by
  rw [writeField]
  split
  next hquotes =>
    obtain ⟨field', hsame, hread⟩ := read_writeField_quoted hready hlength
      (List.cons_ne_nil '\r' ('\n' :: text))
    refine ⟨field', [], hsame, by simp [Singles], ?_⟩
    rw [List.cons_append, List.append_assoc, List.singleton_append, hread, splitlines]
    have hline : Reader.processLine limit
        { r with state := .quoteInQuotedField, field := field' } [] =
        .ok { fields := r.fields ++ [field'] } := rfl
    exact read_record hline rfl
  next hquotes =>
    have hplain := plain_of_needsQuotes_eq_false (Bool.eq_false_iff.2 hquotes)
    have hline : ∀ {line : List Char} {lines}, Reader.Plain line → line.length ≤ limit →
        read limit r (keepHead (line :: lines)) =
          (read limit {} (lines.filter notBlank)).map ((r.fields ++ [line]) :: ·) :=
      fun hplain hlength ↦
        read_record (Reader.processLine_plain hready hplain hlength (Or.inr hstate)) rfl
    rcases hcut : cut field with _ | ⟨before, after⟩
    · refine ⟨field, [], fun _ ↦ rfl, by simp [Singles], ?_⟩
      rw [splitlines_append_of_lines (cut_eq_none_iff.1 hcut) (by rw [splitlines]),
        List.append_nil]
      exact hline hplain hlength
    · obtain ⟨-, hsub, hsub', hlt⟩ := cut_eq_some hcut
      have hlines := splitlines_doubled_of_cut ('\r' :: '\n' :: text) hcut (by simp)
      have hbefore : Reader.Plain before := fun c hc ↦ hplain c (hsub hc)
      have hafter : Reader.Plain after := fun c hc ↦ hplain c (hsub' hc)
      rw [doubled_eq_self hplain, doubled_eq_self hbefore, doubled_eq_self hafter] at hlines
      obtain ⟨singles, hsingles, hread⟩ := read_plain_lines hafter (by omega : _ ≤ limit) text
      refine ⟨before, singles, fun hnone ↦ absurd hnone (Option.some_ne_none _), hsingles, ?_⟩
      rw [hlines, hline hbefore (by omega), hread]
      rcases read limit {} ((splitlines text).filter notBlank) with e | records
      · rfl
      · rfl

/-! ### Rows -/

/-- The row as it is read back: fields without line breaks are the same. -/
def ReadBack (row record : List (List Char)) : Prop :=
  List.Forall₂ (fun field field' ↦ cut field = none → field' = field) row record

/-- Fields without line breaks are read back as they are. -/
theorem ReadBack.eq {row record : List (List Char)} (h : ReadBack row record)
    (hrow : ∀ field ∈ row, cut field = none) : record = row := by
  induction h with
  | nil => rfl
  | cons hfield _ ih =>
    obtain ⟨hcut, hrow⟩ := List.forall_mem_cons.1 hrow
    rw [hfield hcut, ih hrow]

/-- Every field but the last one is whole, and none is longer than the limit. -/
structure Writable (limit : ℕ) (row : List (List Char)) : Prop where
  two_le_length : 2 ≤ row.length
  whole : ∀ field ∈ row.dropLast, Whole field
  length_le : ∀ field ∈ row, field.length ≤ limit

/-- **Written fields are read back**: with the line end behind them they are one record, and empty
lines within a field may be lost. -/
theorem read_writeFields (hready : r.Ready) (hne : fields ≠ [])
    (hstate : fields.length = 1 → r.state = .startField)
    (hwhole : ∀ field ∈ fields.dropLast, Whole field)
    (hlength : ∀ field ∈ fields, field.length ≤ limit) (text : List Char) :
    ∃ fields' singles, ReadBack fields fields' ∧ Singles singles ∧
      read limit r (keepHead (splitlines (writeFields fields ++ '\r' :: '\n' :: text))) =
        (read limit {} ((splitlines text).filter notBlank)).map
          ((r.fields ++ fields') :: singles ++ ·) := by
  induction fields generalizing r with
  | nil => exact absurd rfl hne
  | cons field fields ih =>
    obtain ⟨hfield, hfields⟩ := List.forall_mem_cons.1 hlength
    rcases fields with _ | ⟨next, fields⟩
    · -- only the last field may leave records of its own behind
      obtain ⟨field', singles, hsame, hsingles, hread⟩ :=
        read_writeField_end hready (hstate rfl) hfield text
      exact ⟨[field'], singles, List.Forall₂.cons hsame List.Forall₂.nil, hsingles, hread⟩
    · rw [List.dropLast_cons_cons] at hwhole
      obtain ⟨hhead, htail⟩ := List.forall_mem_cons.1 hwhole
      have htext : writeFields (next :: fields) ++ '\r' :: '\n' :: text ≠ [] := by simp
      obtain ⟨field', hsame, hread⟩ := read_writeField_comma hready hhead hfield htext
      obtain ⟨fields', singles, hsames, hsingles, hrest⟩ := ih
        (r := { state := .startField, fields := r.fields ++ [field'] })
        ⟨Or.inr rfl, rfl⟩ (List.cons_ne_nil _ _) (fun _ ↦ rfl) htail hfields
      refine ⟨field' :: fields', singles, List.Forall₂.cons hsame hsames, hsingles, ?_⟩
      rw [writeFields, List.append_assoc, List.cons_append, hread, hrest, ← List.append_cons]
      · exact List.cons_ne_nil _ _

/-- The first line of a row is not blank. -/
theorem filter_writeFields {field next : List Char} (hwhole : Whole field) :
    (splitlines (writeFields (field :: next :: fields) ++ text)).filter notBlank =
      keepHead (splitlines (writeFields (field :: next :: fields) ++ text)) := by
  rw [writeFields, List.append_assoc, List.cons_append, writeField]
  · split
    next hquotes =>
      have htext :
          doubled field ++ ['"'] ++ ',' :: (writeFields (next :: fields) ++ text) ≠ [] := by simp
      obtain ⟨line, lines, hlines⟩ := exists_splitlines_eq_cons htext
      rw [List.cons_append, splitlines_of_not_isLineBreak (by decide), hlines]
      exact filter_eq_keepHead (notBlank_of_mem (c := '"') List.mem_cons_self (by decide))
    next hquotes =>
      obtain ⟨line, lines, hlines⟩ :=
        exists_splitlines_eq_cons (List.cons_ne_nil ',' (writeFields (next :: fields) ++ text))
      -- the comma keeps the first line of the row from being blank
      have hcomma : ∃ line', line = ',' :: line' := by
        rw [splitlines_of_not_isLineBreak (by decide)] at hlines
        rcases hrest : splitlines (writeFields (next :: fields) ++ text) with _ | ⟨first, rest⟩
        · rw [hrest] at hlines
          exact ⟨[], (List.cons.inj hlines).1.symm⟩
        · rw [hrest] at hlines
          exact ⟨first, (List.cons.inj hlines).1.symm⟩
      obtain ⟨line', rfl⟩ := hcomma
      have hnot := cut_eq_none_iff.1 (hwhole.resolve_left hquotes)
      rw [splitlines_append_of_lines hnot hlines]
      exact filter_eq_keepHead (notBlank_of_mem (c := ',') (by simp) (by decide))
  · exact List.cons_ne_nil _ _

/-- **A row is read back**, whatever comes after it. -/
theorem read_writeRow {row : List (List Char)} (h : Writable limit row) (text : List Char) :
    ∃ record singles, ReadBack row record ∧ Singles singles ∧
      read limit {} ((splitlines (writeRow row ++ text)).filter notBlank) =
        (read limit {} ((splitlines text).filter notBlank)).map (record :: singles ++ ·) := by
  obtain ⟨field, next, fields, rfl⟩ : ∃ field next fields, row = field :: next :: fields := by
    rcases row with _ | ⟨field, _ | ⟨next, fields⟩⟩
    · exact absurd h.two_le_length (by decide)
    · exact absurd h.two_le_length (by simp)
    · exact ⟨field, next, fields, rfl⟩
  have hfirst : Whole field := h.whole field List.mem_cons_self
  rw [writeRow, if_neg (by simp), List.append_assoc, List.cons_append, List.singleton_append,
    filter_writeFields hfirst]
  obtain ⟨record, singles, hrecord, hsingles, hread⟩ := read_writeFields (r := {})
    ⟨Or.inl rfl, rfl⟩ (List.cons_ne_nil _ _) (by simp) h.whole h.length_le text
  exact ⟨record, singles, hrecord, hsingles, hread⟩

/-- **Rows are read back**, each of them followed by the single fields that its last field may
leave behind. -/
theorem read_writeRows {rows : List (List (List Char))} (h : ∀ row ∈ rows, Writable limit row) :
    ∃ blocks, List.Forall₂ (fun row block ↦ ∃ record singles,
        block = record :: singles ∧ ReadBack row record ∧ Singles singles) rows blocks ∧
      read limit {} ((splitlines (rows.flatMap writeRow)).filter notBlank) =
        .ok blocks.flatten := by
  induction rows with
  | nil => exact ⟨[], List.Forall₂.nil, rfl⟩
  | cons row rows ih =>
    obtain ⟨hrow, hrows⟩ := List.forall_mem_cons.1 h
    obtain ⟨blocks, hblocks, hread⟩ := ih hrows
    obtain ⟨record, singles, hrecord, hsingles, hfirst⟩ :=
      read_writeRow hrow (rows.flatMap writeRow)
    refine ⟨(record :: singles) :: blocks,
      List.Forall₂.cons ⟨record, singles, rfl, hrecord, hsingles⟩ hblocks, ?_⟩
    rw [List.flatMap_cons, hfirst, hread]
    rfl

/-! ### Characters that are dropped -/

section

variable {p : Char → Bool}

/-- A filter that keeps quotes keeps them doubled. -/
theorem filter_flatMap_doubled (hquote : p '"') (field : List Char) :
    (doubled field).filter p = doubled (field.filter p) := by
  induction field with
  | nil => rfl
  | cons c field ih =>
    have hcons : doubled (c :: field) = (if c = '"' then ['"', '"'] else [c]) ++ doubled field :=
      List.flatMap_cons
    rw [hcons, List.filter_append, ih]
    by_cases hc : c = '"'
    · subst hc
      simp [doubled, hquote]
    · rw [if_neg hc]
      by_cases hp : p c
      · rw [List.filter_cons_of_pos hp, List.filter_cons_of_pos hp]
        simp [doubled, hc]
      · rw [List.filter_cons_of_neg hp, List.filter_cons_of_neg hp, List.filter_nil,
          List.nil_append]

/-- The characters that the format uses are kept. -/
structure Keeps (p : Char → Bool) : Prop where
  comma : p ','
  quote : p '"'
  cr : p '\r'
  newline : p '\n'

/-- A filter that keeps the special characters changes nothing about the quotes that a field needs.
-/
theorem needsQuotes_filter (hp : Keeps p) (field : List Char) :
    needsQuotes (field.filter p) = needsQuotes field := by
  rw [Bool.eq_iff_iff, needsQuotes, needsQuotes, List.any_eq_true, List.any_eq_true]
  refine ⟨fun ⟨c, hc, h⟩ ↦ ⟨c, (List.mem_filter.1 hc).1, h⟩, fun ⟨c, hc, h⟩ ↦ ⟨c, ?_, h⟩⟩
  refine List.mem_filter.2 ⟨hc, ?_⟩
  rcases of_decide_eq_true h with rfl | rfl | rfl | rfl
  · exact hp.comma
  · exact hp.quote
  · exact hp.cr
  · exact hp.newline

/-- Such a filter can be applied before a field is written or after. -/
theorem filter_writeField (hp : Keeps p) (field : List Char) :
    (writeField field).filter p = writeField (field.filter p) := by
  rw [writeField, writeField, needsQuotes_filter hp]
  split
  · rw [List.filter_cons_of_pos hp.quote, List.filter_append, filter_flatMap_doubled hp.quote,
      List.filter_cons_of_pos hp.quote, List.filter_nil]
  · rfl

/-- It can be applied before a row is written or after. -/
theorem filter_writeFields_eq (hp : Keeps p) (fields : List (List Char)) :
    (writeFields fields).filter p = writeFields (fields.map (List.filter p)) := by
  induction fields using writeFields.induct with
  | case1 => rfl
  | case2 field => exact filter_writeField hp field
  | case3 field fields hne ih =>
    rw [writeFields, List.filter_append, filter_writeField hp, List.filter_cons_of_pos hp.comma,
      ih, List.map_cons, writeFields]
    · exact fun heq ↦ hne (List.map_eq_nil_iff.1 heq)
    · exact hne

/-- Dropping characters from a row drops them from its fields. -/
theorem filter_writeRow (hp : Keeps p) {row : List (List Char)} (hrow : 2 ≤ row.length) :
    (writeRow row).filter p = writeRow (row.map (List.filter p)) := by
  have hne : row ≠ [[]] := fun heq ↦ absurd hrow (heq ▸ by decide)
  have hne' : row.map (List.filter p) ≠ [[]] := fun heq ↦ by
    have hlength := congrArg List.length heq
    rw [List.length_map, List.length_singleton] at hlength
    omega
  rw [writeRow, writeRow, if_neg hne, if_neg hne', List.filter_append, filter_writeFields_eq hp,
    List.filter_cons_of_pos hp.cr, List.filter_cons_of_pos hp.newline, List.filter_nil]

end

end Csv
