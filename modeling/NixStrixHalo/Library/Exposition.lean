import Mathlib.Data.List.Basic
import NixStrixHalo.Library.PythonText

/-!
# The text exposition format of metrics

A metric family has a name, a help text, a type and samples; a sample has labels and a value. The
text form has a line of each kind, with the two header lines of a family before its samples. How
values are written and read is left open.

## Reading

Reading is strict: the names have to be well formed, no family may be announced twice and no two
samples of a family may have the same labels, in whichever order. Lines are read one by one, and
then put together from the last one on, so that samples wait for the header that comes before them
(`assemble`).

## The round trip

A text that is written from families that meet these conditions is read back as these families
(`read_write`). Values of labels and help texts have no characters that would have to be escaped;
the writer escapes nothing.
-/

namespace Exposition

variable {V W : Type*}

/-- The name of a label and its value. -/
abbrev Label := List Char × List Char

structure Sample (V : Type*) where
  labels : List Label
  value : V

structure Family (V : Type*) where
  name : List Char
  help : List Char
  type : List Char
  samples : List (Sample V)

def Sample.map (f : V → W) (s : Sample V) : Sample W where
  labels := s.labels
  value := f s.value

def Family.map (f : V → W) (g : Family V) : Family W where
  name := g.name
  help := g.help
  type := g.type
  samples := g.samples.map (Sample.map f)

/-! ### Names -/

def isNameChar (c : Char) : Bool := c.isAlphanum || c = '_' || c = ':'

/-- A name of a family or of a label. -/
def isName (name : List Char) : Bool := name.all isNameChar && name.head?.any (!Char.isDigit ·)

/-- The characters of a label value that are not escaped. -/
def isValueChar (c : Char) : Bool := c ≠ '"' && c ≠ '\\' && c ≠ '\n'

/-- The characters of a help text that are not escaped. -/
def isHelpChar (c : Char) : Bool := c ≠ '\\' && c ≠ '\n'

def types : List (List Char) :=
  ["counter".toList, "gauge".toList, "histogram".toList, "summary".toList, "untyped".toList]

def isType (type : List Char) : Bool := types.any (· = type)

/-! ### Writing -/

/-- Labels, without the braces around them. -/
def writeLabels : List Label → List Char
  | [] => []
  | [(name, value)] => name ++ '=' :: '"' :: value ++ ['"']
  | (name, value) :: labels => name ++ '=' :: '"' :: value ++ '"' :: ',' :: writeLabels labels

/-- The labels of a sample, if there are any. -/
def braces (labels : List Label) : List Char :=
  if labels = [] then [] else '{' :: writeLabels labels ++ ['}']

def sampleLine (write : V → List Char) (name : List Char) (s : Sample V) : List Char :=
  name ++ braces s.labels ++ ' ' :: write s.value

/-- `# HELP`. -/
def helpLine (f : Family V) : List Char :=
  '#' :: ' ' :: 'H' :: 'E' :: 'L' :: 'P' :: ' ' :: (f.name ++ ' ' :: f.help)

/-- `# TYPE`. -/
def typeLine (f : Family V) : List Char :=
  '#' :: ' ' :: 'T' :: 'Y' :: 'P' :: 'E' :: ' ' :: (f.name ++ ' ' :: f.type)

def familyLines (write : V → List Char) (f : Family V) : List (List Char) :=
  helpLine f :: typeLine f :: f.samples.map (sampleLine write f.name)

def write (write : V → List Char) (families : List (Family V)) : List Char :=
  PythonText.unlines (families.flatMap (familyLines write))

/-! ### Reading -/

inductive Line (V : Type*) where
  | help (name help : List Char)
  | type (name type : List Char)
  | sample (name : List Char) (s : Sample V)

/-- The labels up to the brace that closes them, and what is behind it. -/
def readLabels : ℕ → List Char → Option (List Label × List Char)
  | 0, _ => none
  | fuel + 1, text =>
    let (name, rest) := text.span isNameChar
    if !isName name then none
    else
      match rest with
      | '=' :: '"' :: rest =>
        let (value, rest) := rest.span isValueChar
        match rest with
        | '"' :: '}' :: rest => some ([(name, value)], rest)
        | '"' :: ',' :: rest =>
          (readLabels fuel rest).map fun (labels, rest) ↦ ((name, value) :: labels, rest)
        | _ => none
      | _ => none

/-- The labels and the value of a sample. -/
def readSample (read : List Char → Option V) : List Char → Option (Sample V)
  | ' ' :: value => (read value).map fun v ↦ ⟨[], v⟩
  | '{' :: text =>
    match readLabels text.length text with
    | some (labels, ' ' :: value) => (read value).map fun v ↦ ⟨labels, v⟩
    | _ => none
  | _ => none

/-- The name and the text of a header line. -/
def readHeader (text : List Char) : Option (List Char × List Char) :=
  let (name, rest) := text.span isNameChar
  if !isName name then none
  else
    match rest with
    | ' ' :: rest => some (name, rest)
    | _ => none

def readLine (read : List Char → Option V) : List Char → Option (Line V)
  | '#' :: ' ' :: 'H' :: 'E' :: 'L' :: 'P' :: ' ' :: text =>
    (readHeader text).bind fun (name, help) ↦
      if help.all isHelpChar then some (.help name help) else none
  | '#' :: ' ' :: 'T' :: 'Y' :: 'P' :: 'E' :: ' ' :: text =>
    (readHeader text).bind fun (name, type) ↦ if isType type then some (.type name type) else none
  | text =>
    let (name, rest) := text.span isNameChar
    if !isName name then none else (readSample read rest).map (.sample name)

/-- No two samples have the same labels. -/
def DistinctSeries (samples : List (Sample V)) : Prop :=
  samples.Pairwise fun s t ↦ ¬ s.labels.Perm t.labels

instance (samples : List (Sample V)) : Decidable (DistinctSeries samples) :=
  inferInstanceAs (Decidable (samples.Pairwise fun s t ↦ ¬ s.labels.Perm t.labels))

/-- Put lines together, the last one first: the samples that wait for their header, and the
families. -/
def assemble : List (Line V) → Option (List (List Char × Sample V) × List (Family V))
  | [] => some ([], [])
  | .sample name s :: lines =>
    (assemble lines).map fun (waiting, families) ↦ ((name, s) :: waiting, families)
  | .help name help :: .type name' type :: lines =>
    (assemble lines).bind fun (waiting, families) ↦
      if name = name' ∧ (∀ w ∈ waiting, w.1 = name) ∧ (∀ f ∈ families, f.name ≠ name) ∧
          DistinctSeries (waiting.map Prod.snd) then
        some ([], ⟨name, help, type, waiting.map Prod.snd⟩ :: families)
      else none
  | _ => none

/-- The families of a text, every line of which ends with a newline. -/
def read (read : List Char → Option V) (text : List Char) : Option (List (Family V)) :=
  let lines := text.splitOn '\n'
  if lines.getLast? ≠ some [] then none
  else
    (lines.dropLast.mapM (readLine read)).bind fun lines ↦
      match assemble lines with
      | some ([], families) => some families
      | _ => none

/-! ### What can be written -/

structure Family.WellFormed (f : Family V) : Prop where
  name : isName f.name
  help : f.help.all isHelpChar
  type : isType f.type
  labels : ∀ s ∈ f.samples, ∀ l ∈ s.labels, isName l.1 ∧ l.2.all isValueChar
  distinct : DistinctSeries f.samples

/-- Families with different names. -/
structure WellFormed (families : List (Family V)) : Prop where
  family : ∀ f ∈ families, f.WellFormed
  nodup : (families.map Family.name).Nodup

/-! ### Names and labels -/

/-- A name consists of name characters. -/
theorem isNameChar_of_mem {name : List Char} (h : isName name) : ∀ c ∈ name, isNameChar c :=
  List.all_eq_true.1 (Bool.and_eq_true_iff.1 h).1

/-- A name is read up to the first character that is none of its own. -/
theorem span_isName {name rest : List Char} (h : isName name)
    (hrest : rest.head?.any isNameChar = false) : (name ++ rest).span isNameChar = (name, rest) :=
  PythonText.span_append (isNameChar_of_mem h) hrest

/-- The value of a label is read up to its closing quote. -/
theorem span_isValueChar {value : List Char} (h : value.all isValueChar) (rest : List Char) :
    (value ++ '"' :: rest).span isValueChar = (value, '"' :: rest) :=
  PythonText.span_append (List.all_eq_true.1 h) rfl

/-- Labels are read back, with fuel for each of them. -/
theorem readLabels_writeLabels {labels : List Label} (hne : labels ≠ [])
    (h : ∀ l ∈ labels, isName l.1 ∧ l.2.all isValueChar) (fuel : ℕ) (hfuel : labels.length ≤ fuel)
    (rest : List Char) :
    readLabels fuel (writeLabels labels ++ '}' :: rest) = some (labels, rest) := by
  induction labels generalizing fuel with
  | nil => exact absurd rfl hne
  | cons l labels ih =>
    obtain ⟨name, value⟩ := l
    obtain ⟨⟨hname, hvalue⟩, hlabels⟩ := List.forall_mem_cons.1 h
    obtain ⟨fuel, rfl⟩ : ∃ k, fuel = k + 1 := ⟨fuel - 1, by simp at hfuel; omega⟩
    -- the last label is followed by the brace, every other one by a comma
    match labels with
    | [] =>
      have htext : writeLabels [(name, value)] ++ '}' :: rest =
          name ++ '=' :: '"' :: (value ++ '"' :: '}' :: rest) := by simp [writeLabels]
      rw [htext, readLabels, span_isName hname rfl]
      simp only [hname, Bool.not_true, Bool.false_eq_true, if_false, span_isValueChar hvalue]
    | next :: labels =>
      have htext : writeLabels ((name, value) :: next :: labels) ++ '}' :: rest =
          name ++ '=' :: '"' :: (value ++ '"' :: ',' ::
            (writeLabels (next :: labels) ++ '}' :: rest)) := by simp [writeLabels]
      have hrest := ih (List.cons_ne_nil _ _) hlabels fuel (by simpa using hfuel)
      rw [htext, readLabels, span_isName hname rfl]
      simp only [hname, Bool.not_true, Bool.false_eq_true, if_false, span_isValueChar hvalue, hrest,
        Option.map_some]

/-- Labels take at least one character each, which bounds how long they are read for. -/
theorem length_le_writeLabels (labels : List Label) :
    labels.length ≤ (writeLabels labels).length := by
  induction labels with
  | nil => exact Nat.zero_le _
  | cons l labels ih =>
    match labels with
    | [] =>
      simp only [writeLabels, List.length_append, List.length_cons]
      omega
    | next :: labels =>
      simp only [writeLabels, List.length_append, List.length_cons] at ih ⊢
      omega

/-! ### Lines -/

/-- The line of a sample is not a comment. -/
theorem readLine_of_isName {readV : List Char → Option W} {name rest : List Char} (h : isName name)
    (hrest : rest.head?.any isNameChar = false) :
    readLine readV (name ++ rest) = (readSample readV rest).map (.sample name) := by
  have hhead : (name ++ rest).head? ≠ some '#' := by
    match name, h with
    | c :: name, h =>
      intro hc
      obtain rfl : c = '#' := by simpa using hc
      exact absurd (isNameChar_of_mem h '#' List.mem_cons_self) (by decide)
  unfold readLine
  split
  · next heq => exact absurd (congrArg List.head? heq) hhead
  · next heq => exact absurd (congrArg List.head? heq) hhead
  · rw [span_isName h hrest]
    simp only [h, Bool.not_true, Bool.false_eq_true, if_false]

section

variable {writeV : V → List Char} {readV : List Char → Option W} {g : V → W}
  (hV : ∀ v, readV (writeV v) = some (g v) ∧ '\n' ∉ writeV v)
include hV

/-- The labels and the value of a sample are read back. -/
theorem readSample_braces {s : Sample V}
    (h : ∀ l ∈ s.labels, isName l.1 ∧ l.2.all isValueChar) :
    readSample readV (braces s.labels ++ ' ' :: writeV s.value) = some (s.map g) := by
  obtain ⟨labels, v⟩ := s
  match labels with
  | [] =>
    show (readV (writeV v)).map _ = _
    rw [(hV v).1]
    rfl
  | l :: labels =>
    have htext : braces (l :: labels) ++ ' ' :: writeV v =
        '{' :: (writeLabels (l :: labels) ++ '}' :: ' ' :: writeV v) := by simp [braces]
    have hfuel : (l :: labels).length ≤
        (writeLabels (l :: labels) ++ '}' :: ' ' :: writeV v).length := by
      have := length_le_writeLabels (l :: labels)
      rw [List.length_append]
      omega
    rw [htext, readSample, readLabels_writeLabels (List.cons_ne_nil _ _) h _ hfuel]
    show (readV (writeV v)).map _ = _
    rw [(hV v).1]
    rfl

/-- The line of a sample is read back. -/
theorem readLine_sampleLine {f : Family V} (hf : f.WellFormed) {s : Sample V}
    (hs : s ∈ f.samples) :
    readLine readV (sampleLine writeV f.name s) = some (.sample f.name (s.map g)) := by
  have hhead : (braces s.labels ++ ' ' :: writeV s.value).head?.any isNameChar = false := by
    rw [braces]
    split_ifs <;> rfl
  rw [sampleLine, List.append_assoc, readLine_of_isName hf.name hhead,
    readSample_braces hV (hf.labels s hs)]
  rfl

end

/-- A header is read up to the space behind its name. -/
theorem readHeader_append {name : List Char} (h : isName name) (text : List Char) :
    readHeader (name ++ ' ' :: text) = some (name, text) := by
  rw [readHeader, span_isName h rfl]
  simp [h]

/-- A `HELP` line is read back. -/
theorem readLine_helpLine {f : Family V} (hf : f.WellFormed) (readV : List Char → Option W) :
    readLine readV (helpLine f) = some (.help f.name f.help) := by
  rw [helpLine, readLine, readHeader_append hf.name]
  exact if_pos hf.help

/-- A `TYPE` line is read back. -/
theorem readLine_typeLine {f : Family V} (hf : f.WellFormed) (readV : List Char → Option W) :
    readLine readV (typeLine f) = some (.type f.name f.type) := by
  rw [typeLine, readLine, readHeader_append hf.name]
  exact if_pos hf.type

/-- A name has no newline. -/
theorem newline_not_mem_of_isName {name : List Char} (h : isName name) : '\n' ∉ name :=
  fun hmem ↦ absurd (isNameChar_of_mem h _ hmem) (by decide)

/-- Labels are written without newlines. -/
theorem newline_not_mem_writeLabels {labels : List Label}
    (h : ∀ l ∈ labels, isName l.1 ∧ l.2.all isValueChar) : '\n' ∉ writeLabels labels := by
  induction labels with
  | nil => exact List.not_mem_nil
  | cons l labels ih =>
    obtain ⟨name, value⟩ := l
    obtain ⟨⟨hname, hvalue⟩, hlabels⟩ := List.forall_mem_cons.1 h
    have hname := newline_not_mem_of_isName hname
    have hvalue : '\n' ∉ value := fun hmem ↦
      absurd (List.all_eq_true.1 hvalue _ hmem) (by decide)
    match labels with
    | [] => simp [writeLabels, hname, hvalue]
    | next :: labels => simp [writeLabels, hname, hvalue, ih hlabels]

section

variable {writeV : V → List Char} {readV : List Char → Option W} {g : V → W}
  (hV : ∀ v, readV (writeV v) = some (g v) ∧ '\n' ∉ writeV v)
include hV

/-- The lines of a family have no newlines, so that the text can be split at them again. -/
theorem newline_not_mem_familyLines {f : Family V} (hf : f.WellFormed) :
    ∀ line ∈ familyLines writeV f, '\n' ∉ line := by
  have hname := newline_not_mem_of_isName hf.name
  have hhelp : '\n' ∉ f.help := fun hmem ↦
    absurd (List.all_eq_true.1 hf.help _ hmem) (by decide)
  have htypes : ∀ type ∈ types, '\n' ∉ type := by decide
  have htype : '\n' ∉ f.type := by
    obtain ⟨type, hmem, heq⟩ := List.any_eq_true.1 hf.type
    exact of_decide_eq_true heq ▸ htypes type hmem
  refine List.forall_mem_cons.2 ⟨?_, List.forall_mem_cons.2 ⟨?_, ?_⟩⟩
  · simp [helpLine, hname, hhelp]
  · simp [typeLine, hname, htype]
  · intro line hline
    obtain ⟨s, hs, rfl⟩ := List.mem_map.1 hline
    have hlabels := newline_not_mem_writeLabels (hf.labels s hs)
    have hbraces : '\n' ∉ braces s.labels := by
      rw [braces]
      split_ifs <;> simp [hlabels]
    simp [sampleLine, hname, hbraces, (hV s.value).2]

/-- What the lines of a family are read as. -/
def parsed (g : V → W) (f : Family V) : List (Line W) :=
  .help f.name f.help :: .type f.name f.type :: f.samples.map fun s ↦ .sample f.name (s.map g)

/-- All the lines of a family are read back. -/
theorem mapM_readLine_familyLines {f : Family V} (hf : f.WellFormed) :
    (familyLines writeV f).mapM (readLine readV) = some (parsed g f) := by
  have hsamples : ∀ samples : List (Sample V), samples ⊆ f.samples →
      (samples.map (sampleLine writeV f.name)).mapM (readLine readV) =
        some (samples.map fun s ↦ .sample f.name (s.map g)) := by
    intro samples hsub
    induction samples with
    | nil => rfl
    | cons s samples ih =>
      obtain ⟨hs, hsub⟩ := List.cons_subset.1 hsub
      rw [List.map_cons, List.mapM_cons, readLine_sampleLine hV hf hs, ih hsub]
      rfl
  rw [familyLines, List.mapM_cons, List.mapM_cons, readLine_helpLine hf, readLine_typeLine hf,
    hsamples _ (List.Subset.refl _)]
  rfl

/-- All the lines of all families are read back. -/
theorem mapM_readLine {families : List (Family V)} (h : ∀ f ∈ families, f.WellFormed) :
    (families.flatMap (familyLines writeV)).mapM (readLine readV) =
      some (families.flatMap (parsed g)) := by
  induction families with
  | nil => rfl
  | cons f families ih =>
    obtain ⟨hf, hfamilies⟩ := List.forall_mem_cons.1 h
    rw [List.flatMap_cons, List.mapM_append, mapM_readLine_familyLines hV hf, ih hfamilies]
    rfl

end

/-- Samples in front are collected before the family that follows. -/
theorem assemble_samples {lines : List (Line W)} {families : List (Family W)}
    (h : assemble lines = some ([], families)) (name : List Char) (samples : List (Sample W)) :
    assemble (samples.map (.sample name) ++ lines) =
      some (samples.map fun s ↦ (name, s), families) := by
  induction samples with
  | nil => exact h
  | cons s samples ih =>
    rw [List.map_cons, List.cons_append, assemble, ih]
    rfl

/-- Series stay distinct when their values are replaced. -/
theorem DistinctSeries.map {samples : List (Sample V)} (h : DistinctSeries samples) (g : V → W) :
    DistinctSeries (samples.map (Sample.map g)) :=
  List.pairwise_map.2 h

/-- The header of a family takes the samples behind it. -/
theorem assemble_parsed {g : V → W} {f : Family V} (hf : f.WellFormed) {lines : List (Line W)}
    {families : List (Family W)} (h : assemble lines = some ([], families))
    (hname : ∀ f' ∈ families, f'.name ≠ f.name) :
    assemble (parsed g f ++ lines) = some ([], f.map g :: families) := by
  have hsamples := assemble_samples h f.name (f.samples.map (Sample.map g))
  have hsnd : ((f.samples.map (Sample.map g)).map fun s ↦ (f.name, s)).map Prod.snd =
      f.samples.map (Sample.map g) := by
    rw [List.map_map]
    exact List.map_id _
  have hnames : ∀ w ∈ (f.samples.map (Sample.map g)).map fun s ↦ (f.name, s), w.1 = f.name := by
    intro w hw
    obtain ⟨s, -, rfl⟩ := List.mem_map.1 hw
    rfl
  rw [List.map_map] at hsamples
  rw [parsed, List.cons_append, List.cons_append, assemble]
  refine (congrArg (Option.bind · _) hsamples).trans ?_
  refine (if_pos ⟨rfl, hnames, hname, by rw [hsnd]; exact hf.distinct.map g⟩).trans ?_
  exact congrArg (fun samples ↦ some ([], ⟨f.name, f.help, f.type, samples⟩ :: families)) hsnd

/-- **The families are put together again** from their lines. -/
theorem assemble_flatMap_parsed {g : V → W} {families : List (Family V)} (h : WellFormed families) :
    assemble (families.flatMap (parsed g)) = some ([], families.map (Family.map g)) := by
  induction families with
  | nil => rfl
  | cons f families ih =>
    obtain ⟨hf, hfamilies⟩ := List.forall_mem_cons.1 h.family
    obtain ⟨hname, hnodup⟩ := List.nodup_cons.1 h.nodup
    rw [List.flatMap_cons, assemble_parsed hf (ih ⟨hfamilies, hnodup⟩)]
    · rfl
    · intro f' hf' heq
      obtain ⟨k, hk, rfl⟩ := List.mem_map.1 hf'
      exact hname (List.mem_map.2 ⟨k, hk, heq⟩)

/-- The lines of a text. -/
theorem splitOn_unlines {lines : List (List Char)} (h : ∀ line ∈ lines, '\n' ∉ line) :
    (PythonText.unlines lines).splitOn '\n' = lines ++ [[]] := by
  induction lines with
  | nil => rfl
  | cons line lines ih =>
    obtain ⟨hline, hlines⟩ := List.forall_mem_cons.1 h
    have hline : ∀ c ∈ line, (c == '\n') = false :=
      fun c hc ↦ beq_false_of_ne fun heq ↦ hline (heq ▸ hc)
    rw [PythonText.unlines, List.flatMap_cons, List.append_assoc, List.singleton_append,
      List.splitOn_eq_splitOnP, List.splitOnP_append_cons_of_forall_mem hline _ (by rfl),
      ← List.splitOn_eq_splitOnP]
    exact congrArg (line :: ·) (ih hlines)

/-- **A text that is written from well-formed families is read back as these families.** -/
theorem read_write {writeV : V → List Char} {readV : List Char → Option W} {g : V → W}
    (hV : ∀ v, readV (writeV v) = some (g v) ∧ '\n' ∉ writeV v) {families : List (Family V)}
    (h : WellFormed families) :
    read readV (write writeV families) = some (families.map (Family.map g)) := by
  have hlines : ∀ line ∈ families.flatMap (familyLines writeV), '\n' ∉ line := by
    intro line hline
    obtain ⟨f, hf, hline⟩ := List.mem_flatMap.1 hline
    exact newline_not_mem_familyLines hV (h.family f hf) line hline
  rw [read, write, splitOn_unlines hlines]
  simp only [List.getLast?_append, List.getLast?_singleton, Option.or, ne_eq, not_true_eq_false,
    if_false, List.dropLast_concat, mapM_readLine hV h.family, Option.bind_some,
    assemble_flatMap_parsed h]

end Exposition
