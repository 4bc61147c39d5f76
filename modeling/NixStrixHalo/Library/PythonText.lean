import Mathlib.Data.List.Basic
import Mathlib.Data.List.TakeDrop
import Mathlib.Data.List.TakeWhile

/-!
# Lines and words as Python reads them

`str.splitlines()`, `str.split()`, `str.split(None, 1)` and `str.strip()`, which cut a text at more
characters than the ones that programs write between lines and words. Lines that contain none of
them are read back (`splitlines_unlines`), and so is a word and what follows it
(`splitOnce_append`).

## Classes of characters

`isSpace` and `isLineBreak` are the classes of Python, beyond ASCII too. Every line break is a space
(`isSpace_of_isLineBreak`), so what has no space is within a line.

## Lines

A carriage return and the newline after it end one line, and `universalNewlines` is what reading a
text stream makes of them; the lines are the same (`splitlines_universalNewlines`). A text that is
put together from lines ends with a newline, and one that is split need not.
-/

namespace PythonText

/-! ### Runs of characters -/

/-- What is said of all the characters of a text is decided by running through the text, not
through all the characters there are. -/
instance (priority := 2000) decidableForallText (p : Char → Prop) [DecidablePred p]
    (s : List Char) : Decidable (∀ c ∈ s, p c) :=
  List.decidableBAll p s

instance (priority := 2000) decidableForallHead (p : Char → Prop) [DecidablePred p]
    (c : Option Char) : Decidable (∀ d ∈ c, p d) :=
  Option.decidableForallMem c

section

variable {α : Type*} {p : α → Bool} {s rest : List α}

/-- A class of characters separates its members from the others. -/
theorem ne_of_class {a b : α} (ha : p a) (hb : p b = false) : a ≠ b := by
  refine ne_of_apply_ne p ?_
  rw [ha, hb]
  decide

/-- A run ends where something else follows it. -/
theorem span_append (hs : ∀ a ∈ s, p a) (hrest : rest.head?.any p = false) :
    (s ++ rest).span p = (s, rest) := by
  rw [List.span_eq_takeWhile_dropWhile, List.takeWhile_append_of_pos hs,
    List.dropWhile_append_of_pos hs]
  rcases rest with _ | ⟨a, rest⟩
  · rw [List.takeWhile_nil, List.dropWhile_nil, List.append_nil]
  · have ha : ¬p a := Bool.eq_false_iff.1 hrest
    rw [List.takeWhile_cons_of_neg ha, List.dropWhile_cons_of_neg ha, List.append_nil]

/-- A run may take the whole text. -/
theorem span_of_forall (hs : ∀ a ∈ s, p a) : s.span p = (s, []) := by
  have h : (s ++ []).span p = (s, []) := span_append hs rfl
  rwa [List.append_nil] at h

/-- What a run takes, and that it ends where it has to. -/
theorem eq_append_of_span {l : List α} (h : l.span p = (s, rest)) :
    l = s ++ rest ∧ (∀ a ∈ s, p a) ∧ rest.head?.any p = false := by
  rw [List.span_eq_takeWhile_dropWhile] at h
  obtain ⟨rfl, rfl⟩ := Prod.mk.inj h
  refine ⟨List.takeWhile_append_dropWhile.symm, fun a ha ↦ List.mem_takeWhile_imp ha, ?_⟩
  have hhead := List.head?_dropWhile_not p l
  rcases hdrop : (l.dropWhile p).head? with _ | a
  · rfl
  · simpa [hdrop] using hhead

/-- A text without members of the class does not start with one. -/
theorem head?_any_of_forall {l : List α} (h : ∀ a ∈ l, p a = false) : l.head?.any p = false := by
  rcases l with _ | ⟨a, l⟩
  · rfl
  · exact h a List.mem_cons_self

/-- A text without members of the class does not end with one. -/
theorem getLast?_any_of_forall {l : List α} (h : ∀ a ∈ l, p a = false) :
    l.getLast?.any p = false := by
  rw [← List.head?_reverse]
  exact head?_any_of_forall fun a ha ↦ h a (List.mem_reverse.1 ha)

/-- Nothing is dropped where the first element is to stay. -/
theorem dropWhile_of_head? {l : List α} (h : l.head?.any p = false) : l.dropWhile p = l := by
  rcases l with _ | ⟨a, l⟩
  · rfl
  · exact List.dropWhile_cons_of_neg (Bool.eq_false_iff.1 h)

/-- Runs at both ends are dropped, and nothing else. -/
theorem trim_append {a l b : List α} (ha : ∀ x ∈ a, p x) (hb : ∀ x ∈ b, p x)
    (hhead : l.head?.any p = false) (hlast : l.getLast?.any p = false) :
    (((a ++ (l ++ b)).dropWhile p).reverse.dropWhile p).reverse = l := by
  rw [List.dropWhile_append_of_pos ha]
  rcases l with _ | ⟨c, l⟩
  · rw [List.nil_append, List.dropWhile_eq_nil_iff.2 hb]
    rfl
  · have hright : ∀ x ∈ b.reverse, p x := fun x hx ↦ hb x (List.mem_reverse.1 hx)
    rw [dropWhile_of_head? (show ((c :: l) ++ b).head?.any p = false from hhead),
      List.reverse_append, List.dropWhile_append_of_pos hright,
      dropWhile_of_head? (by rwa [List.head?_reverse]), List.reverse_reverse]

end

/-- Letters are the two alphabets of ASCII. -/
theorem toNat_of_isAlpha {c : Char} (h : c.isAlpha) :
    (65 ≤ c.toNat ∧ c.toNat ≤ 90) ∨ 97 ≤ c.toNat ∧ c.toNat ≤ 122 := by
  unfold Char.isAlpha Char.isUpper Char.isLower at h
  simp only [Bool.or_eq_true, Bool.and_eq_true, decide_eq_true_eq, ge_iff_le,
    UInt32.le_iff_toNat_le] at h
  exact h

/-- Letters and digits are two ranges of ASCII. -/
theorem toNat_of_isAlphanum {c : Char} (h : c.isAlphanum) :
    48 ≤ c.toNat ∧ c.toNat ≤ 57 ∨ 65 ≤ c.toNat ∧ c.toNat < 128 := by
  obtain halpha | hdigit : c.isAlpha ∨ c.isDigit := (Bool.or_eq_true _ _).mp h
  · have hletter := toNat_of_isAlpha halpha
    omega
  · exact Or.inl (Char.isDigit_iff_toNat.1 hdigit)

/-- The characters `str.isspace` accepts. -/
def isSpace (c : Char) : Bool :=
  (9 ≤ c.toNat ∧ c.toNat ≤ 13) ∨ (28 ≤ c.toNat ∧ c.toNat ≤ 32) ∨
    (0x2000 ≤ c.toNat ∧ c.toNat ≤ 0x200a) ∨
    c.toNat ∈ [0x85, 0xa0, 0x1680, 0x2028, 0x2029, 0x202f, 0x205f, 0x3000]

/-- No printable ASCII character but the space is one for `str.isspace`. -/
theorem isSpace_of_toNat {c : Char} (h : 33 ≤ c.toNat ∧ c.toNat < 128) : isSpace c = false := by
  simp only [isSpace, decide_eq_false_iff_not, List.mem_cons, List.not_mem_nil, or_false]
  omega

/-- `str.strip`. -/
def strip (text : List Char) : List Char :=
  ((text.dropWhile isSpace).reverse.dropWhile isSpace).reverse

/-- Spaces before a text are dropped. -/
theorem strip_append {spaces text : List Char} (hspaces : ∀ c ∈ spaces, isSpace c)
    (hhead : text.head?.any isSpace = false) (hlast : text.getLast?.any isSpace = false) :
    strip (spaces ++ text) = text := by
  have htrim := trim_append (b := []) hspaces (fun _ hc ↦ absurd hc List.not_mem_nil) hhead hlast
  rw [List.append_nil] at htrim
  exact htrim

/-- A text without spaces at its ends is kept. -/
theorem strip_eq_self {text : List Char} (hhead : text.head?.any isSpace = false)
    (hlast : text.getLast?.any isSpace = false) : strip text = text :=
  strip_append (fun _ hc ↦ absurd hc List.not_mem_nil) hhead hlast

/-- `str.rstrip`. -/
def rstrip (text : List Char) : List Char := (text.reverse.dropWhile isSpace).reverse

/-- What is left is the start of the text. -/
theorem rstrip_prefix (text : List Char) : rstrip text <+: text := by
  rw [rstrip, ← List.reverse_suffix, List.reverse_reverse]
  exact List.dropWhile_suffix _

/-- Of spaces alone, nothing is left. -/
theorem rstrip_eq_nil {text : List Char} (h : ∀ c ∈ text, isSpace c) : rstrip text = [] := by
  rw [rstrip, List.dropWhile_eq_nil_iff.2 fun c hc ↦ h c (List.mem_reverse.1 hc)]
  rfl

/-- No space is left at the end. -/
theorem getLast?_rstrip (text : List Char) : (rstrip text).getLast?.any isSpace = false := by
  have hhead := List.head?_dropWhile_not isSpace text.reverse
  rw [rstrip, List.getLast?_reverse]
  rcases hdrop : (text.reverse.dropWhile isSpace).head? with _ | c
  · rfl
  · simpa [hdrop] using hhead

/-- Only what follows the last character that is no space is dropped at the end. -/
theorem strip_append_rstrip {spaces text rest : List Char} (hspaces : ∀ c ∈ spaces, isSpace c)
    (hne : text ≠ []) (hhead : text.head?.any isSpace = false)
    (hlast : text.getLast?.any isSpace = false) :
    strip (spaces ++ (text ++ rest)) = text ++ rstrip rest := by
  have hleft : (text ++ rest).head?.any isSpace = false := by
    rwa [List.head?_append_of_ne_nil _ hne]
  have hright : text.reverse.dropWhile isSpace = text.reverse :=
    dropWhile_of_head? (by rwa [List.head?_reverse])
  rw [strip, List.dropWhile_append_of_pos hspaces, dropWhile_of_head? hleft, List.reverse_append,
    List.dropWhile_append, hright, rstrip]
  split
  next hempty => rw [List.isEmpty_iff.1 hempty, List.reverse_reverse, List.reverse_nil,
    List.append_nil]
  · rw [List.reverse_append, List.reverse_reverse]

/-- The characters at which `str.splitlines` ends a line. -/
def isLineBreak (c : Char) : Bool :=
  (10 ≤ c.toNat ∧ c.toNat ≤ 13) ∨ (28 ≤ c.toNat ∧ c.toNat ≤ 30) ∨
    c.toNat ∈ [0x85, 0x2028, 0x2029]

/-- Line breaks are spaces. -/
theorem isSpace_of_isLineBreak {c : Char} (h : isLineBreak c) : isSpace c := by
  simp only [isLineBreak, isSpace, decide_eq_true_eq, List.mem_cons, List.not_mem_nil,
    or_false] at h ⊢
  omega

theorem isLineBreak_of_not_isSpace {c : Char} (h : isSpace c = false) : isLineBreak c = false :=
  Bool.eq_false_iff.2 fun hbreak ↦ Bool.eq_false_iff.1 h (isSpace_of_isLineBreak hbreak)

/-! ### Lines -/

/-- Put a character before the first line. -/
def consLine (c : Char) : List (List Char) → List (List Char)
  | [] => [[c]]
  | line :: lines => (c :: line) :: lines

/-- `text.splitlines()`. A carriage return and the newline after it end one line. -/
def splitlines : List Char → List (List Char)
  | [] => []
  | '\r' :: '\n' :: cs => [] :: splitlines cs
  | c :: cs => if isLineBreak c then [] :: splitlines cs else consLine c (splitlines cs)

/-- Lines, each ended by a newline. -/
def unlines (lines : List (List Char)) : List Char := lines.flatMap (· ++ ['\n'])

/-- A line break ends the line before it. -/
theorem splitlines_of_isLineBreak {c : Char} {cs : List Char} (hc : isLineBreak c) (hr : c ≠ '\r') :
    splitlines (c :: cs) = [] :: splitlines cs := by
  rw [splitlines, if_pos hc]
  rintro cs' rfl
  exact fun _ ↦ hr rfl

/-- Any other character belongs to the first line. -/
theorem splitlines_of_not_isLineBreak {c : Char} {cs : List Char} (hc : isLineBreak c = false) :
    splitlines (c :: cs) = consLine c (splitlines cs) := by
  rw [splitlines, if_neg (by simp [hc])]
  rintro cs' rfl
  exact fun _ ↦ absurd hc (by decide)

/-- Characters without a line break are the line that the newline behind them ends. -/
theorem splitlines_append {line : List Char} (h : ∀ c ∈ line, isLineBreak c = false)
    (cs : List Char) : splitlines (line ++ '\n' :: cs) = line :: splitlines cs := by
  induction line with
  | nil => exact splitlines_of_isLineBreak (by decide) (by decide)
  | cons c line ih =>
    obtain ⟨hc, hline⟩ := List.forall_mem_cons.1 h
    rw [List.cons_append, splitlines_of_not_isLineBreak hc, ih hline]
    rfl

/-- **Lines that contain no line break are read back.** -/
theorem splitlines_unlines {lines : List (List Char)}
    (h : ∀ line ∈ lines, ∀ c ∈ line, isLineBreak c = false) :
    splitlines (unlines lines) = lines := by
  induction lines with
  | nil => rfl
  | cons line lines ih =>
    obtain ⟨hline, hlines⟩ := List.forall_mem_cons.1 h
    rw [unlines, List.flatMap_cons, List.append_assoc, List.singleton_append,
      splitlines_append hline]
    exact congrArg (line :: ·) (ih hlines)

/-- No line contains a line break. -/
theorem isLineBreak_of_mem_splitlines {text line : List Char} (hline : line ∈ splitlines text) :
    ∀ c ∈ line, isLineBreak c = false := by
  induction text using splitlines.induct generalizing line with
  | case1 => exact absurd hline List.not_mem_nil
  | case2 cs ih =>
    rw [splitlines] at hline
    rcases List.mem_cons.1 hline with rfl | hline
    · exact fun _ hc ↦ absurd hc List.not_mem_nil
    · exact ih hline
  | case3 c cs hnot hbreak ih =>
    rw [splitlines, if_pos hbreak] at hline
    · rcases List.mem_cons.1 hline with rfl | hline
      · exact fun _ hc ↦ absurd hc List.not_mem_nil
      · exact ih hline
    · exact hnot
  | case4 c cs hnot hbreak ih =>
    have hc : isLineBreak c = false := Bool.eq_false_iff.2 hbreak
    rw [splitlines_of_not_isLineBreak hc] at hline
    rcases hrest : splitlines cs with _ | ⟨first, rest⟩
    · rw [hrest] at hline
      obtain rfl := List.mem_singleton.1 hline
      simpa using hc
    · rw [hrest] at hline ih
      rcases List.mem_cons.1 hline with rfl | hline
      · exact List.forall_mem_cons.2 ⟨hc, ih List.mem_cons_self⟩
      · exact ih (List.mem_cons_of_mem _ hline)

/-- **A text whose only line breaks are newlines**, and which ends with one, is its lines. -/
theorem unlines_splitlines {text : List Char} (h : ∀ c ∈ text, isLineBreak c → c = '\n')
    (hend : text.getLast?.all (· = '\n')) : unlines (splitlines text) = text := by
  induction text with
  | nil => rfl
  | cons c cs ih =>
    obtain ⟨hc, hcs⟩ := List.forall_mem_cons.1 h
    by_cases hbreak : isLineBreak c
    · obtain rfl := hc hbreak
      -- a newline may be the end of the text
      have hend' : cs.getLast?.all (· = '\n') := by
        rcases cs with _ | ⟨d, cs⟩
        · rfl
        · rwa [List.getLast?_cons_cons] at hend
      rw [splitlines_of_isLineBreak (by decide) (by decide)]
      exact congrArg ('\n' :: ·) (ih hcs hend')
    · -- the line goes on, because the text does not end here
      have hne : cs ≠ [] := by
        rintro rfl
        have heq : c = '\n' := by simpa using hend
        exact hbreak (heq ▸ by decide)
      have hend' : cs.getLast?.all (· = '\n') := by
        rwa [List.getLast?_cons_of_ne_nil hne] at hend
      have ih := ih hcs hend'
      rw [splitlines_of_not_isLineBreak (Bool.eq_false_iff.2 hbreak)]
      rcases hlines : splitlines cs with _ | ⟨first, rest⟩
      · rw [hlines] at ih
        exact absurd ih.symm hne
      · rw [hlines] at ih
        exact congrArg (c :: ·) ih

/-- Joining lines and ending the last one. -/
theorem intercalate_append_newline {lines : List (List Char)} (h : lines ≠ []) :
    ['\n'].intercalate lines ++ ['\n'] = unlines lines := by
  induction lines with
  | nil => exact absurd rfl h
  | cons line lines ih =>
    rcases lines with _ | ⟨next, lines⟩
    · rw [List.intercalate_singleton, unlines, List.flatMap_singleton]
    · rw [List.intercalate_cons_cons, List.append_assoc, ih (List.cons_ne_nil _ _)]
      rfl

/-- Reading a text stream: every line ending becomes a newline. -/
def universalNewlines : List Char → List Char
  | [] => []
  | '\r' :: '\n' :: cs => '\n' :: universalNewlines cs
  | c :: cs => (if c = '\r' then '\n' else c) :: universalNewlines cs

/-- The translation does not move the lines. -/
theorem splitlines_universalNewlines (text : List Char) :
    splitlines (universalNewlines text) = splitlines text := by
  induction text using universalNewlines.induct with
  | case1 => rfl
  | case2 cs ih =>
    rw [universalNewlines, splitlines_of_isLineBreak (by decide) (by decide), ih, splitlines]
  | case3 c cs hnot ih =>
    have hright : splitlines (c :: cs) =
        if isLineBreak c then [] :: splitlines cs else consLine c (splitlines cs) := by
      rw [splitlines]
      exact hnot
    have hleft : universalNewlines (c :: cs) =
        (if c = '\r' then '\n' else c) :: universalNewlines cs := by
      rw [universalNewlines]
      exact hnot
    rw [hright, hleft]
    by_cases hr : c = '\r'
    · subst hr
      rw [if_pos rfl, splitlines_of_isLineBreak (by decide) (by decide), ih, if_pos (by decide)]
    · rw [if_neg hr]
      by_cases hc : isLineBreak c
      · rw [splitlines_of_isLineBreak hc hr, if_pos hc, ih]
      · rw [splitlines_of_not_isLineBreak (Bool.eq_false_iff.2 hc), if_neg hc, ih]

/-! ### Words -/

/-- `key, value = line.split(None, 1)`; without a second part the assignment raises a
`ValueError`. -/
def splitOnce (line : List Char) : Option (List Char × List Char) :=
  let (key, rest) := (line.dropWhile isSpace).span (!isSpace ·)
  let value := rest.dropWhile isSpace
  if key = [] ∨ value = [] then none else some (key, value)

/-- The text can stand after a word: it does not start with a space. -/
def startsWord (value : List Char) : Bool := value.head?.any (!isSpace ·)

/-- Nothing is dropped in front of a word. -/
theorem dropWhile_isSpace_of_startsWord {value : List Char} (h : startsWord value) :
    value.dropWhile isSpace = value := by
  cases value with
  | nil => rfl
  | cons c cs =>
    have hc : isSpace c = false := by simpa [startsWord] using h
    exact List.dropWhile_cons_of_neg (by simp [hc])

/-- **A word and what follows it are read back**, whichever space is between them. -/
theorem splitOnce_append_of_isSpace {key value : List Char} {space : Char} (hkey : key ≠ [])
    (hword : ∀ c ∈ key, isSpace c = false) (hspace : isSpace space) (hvalue : startsWord value) :
    splitOnce (key ++ space :: value) = some (key, value) := by
  have hstart : startsWord (key ++ space :: value) := by
    obtain ⟨c, cs, rfl⟩ := List.exists_cons_of_ne_nil hkey
    simpa [startsWord] using hword c List.mem_cons_self
  have hspan : (key ++ space :: value).span (!isSpace ·) = (key, space :: value) := by
    have hall : ∀ c ∈ key, !isSpace c := fun c hc ↦ by simp [hword c hc]
    exact span_append hall (by simp [hspace])
  have hne : value ≠ [] := by
    rintro rfl
    exact absurd hvalue (by decide)
  rw [splitOnce, dropWhile_isSpace_of_startsWord hstart, hspan]
  dsimp only
  rw [List.dropWhile_cons_of_pos hspace, dropWhile_isSpace_of_startsWord hvalue,
    if_neg (not_or_intro hkey hne)]

/-- A word and what follows it are split at the space between them. -/
theorem splitOnce_append {key value : List Char} (hkey : key ≠ [])
    (hword : ∀ c ∈ key, isSpace c = false) (hvalue : startsWord value) :
    splitOnce (key ++ ' ' :: value) = some (key, value) :=
  splitOnce_append_of_isSpace hkey hword (by decide) hvalue

/-- What the two parts are like. -/
theorem splitOnce_spec {line key value : List Char} (h : splitOnce line = some (key, value)) :
    (∀ c ∈ key, isSpace c = false) ∧ startsWord value ∧ value ⊆ line := by
  rw [splitOnce, List.span_eq_takeWhile_dropWhile] at h
  dsimp only at h
  split at h
  · cases h
  next hne =>
    obtain ⟨rfl, rfl⟩ := Prod.mk.inj (Option.some.inj h)
    refine ⟨fun c hc ↦ by simpa using List.mem_takeWhile_imp hc, ?_, ?_⟩
    · have hhead := List.head?_dropWhile_not isSpace
        ((line.dropWhile isSpace).dropWhile (!isSpace ·))
      rcases hvalue : (((line.dropWhile isSpace).dropWhile (!isSpace ·)).dropWhile isSpace).head?
        with _ | c
      · exact absurd (Or.inr (List.head?_eq_none_iff.1 hvalue)) hne
      · rw [hvalue] at hhead
        rw [startsWord, hvalue, Option.any_some, hhead, Bool.not_false]
    · exact ((List.dropWhile_suffix _).trans ((List.dropWhile_suffix _).trans
        (List.dropWhile_suffix _))).subset

/-- `line.split()`. -/
def words (line : List Char) : List (List Char) := (line.splitOnP isSpace).filter (· ≠ [])

/-- A nonempty text without spaces. -/
def IsWord (word : List Char) : Prop := word ≠ [] ∧ ∀ c ∈ word, isSpace c = false

/-- A word starts with a word. -/
theorem IsWord.startsWord {word : List Char} (h : IsWord word) : startsWord word := by
  obtain ⟨c, cs, rfl⟩ := List.exists_cons_of_ne_nil h.1
  simpa [PythonText.startsWord] using h.2 c List.mem_cons_self

/-- Two words with a space between them. -/
theorem words_append {word word' : List Char} {space : Char} (h : IsWord word)
    (hspace : isSpace space) (h' : IsWord word') :
    words (word ++ space :: word') = [word, word'] := by
  rw [words, List.splitOnP_append_cons_of_forall_mem h.2 space hspace,
    List.splitOnP_eq_singleton h'.2]
  simp [h.1, h'.1]

/-- A blank line has no words. -/
theorem words_of_all {line : List Char} (h : line.all isSpace) : words line = [] := by
  induction line with
  | nil => rfl
  | cons c line ih =>
    rw [List.all_cons, Bool.and_eq_true] at h
    have hsplit : (([] : List Char) ++ c :: line).splitOnP isSpace = [] :: line.splitOnP isSpace :=
      List.splitOnP_append_cons_of_forall_mem nofun c h.1 line
    rw [List.nil_append] at hsplit
    rw [words, hsplit, List.filter_cons_of_neg (by simp)]
    exact ih h.2

/-! ### Fields -/

/-- What stands between two separators. -/
theorem mem_splitOn {c : Char} {text field : List Char} (h : field ∈ text.splitOn c) :
    c ∉ field ∧ field ⊆ text := by
  induction text generalizing field with
  | nil =>
    obtain rfl : field = [] := List.mem_singleton.1 h
    exact ⟨List.not_mem_nil, List.Subset.refl _⟩
  | cons d text ih =>
    rw [List.splitOn_cons_eq_if_modifyHead] at h
    split at h
    · rcases List.mem_cons.1 h with rfl | h
      · exact ⟨List.not_mem_nil, List.nil_subset _⟩
      · exact ⟨(ih h).1, List.Subset.trans (ih h).2 (List.subset_cons_self d text)⟩
    next hd =>
      rcases hsplit : text.splitOn c with _ | ⟨first, rest⟩
      · exact absurd hsplit (List.splitOn_ne_nil c text)
      · rw [hsplit] at h ih
        rcases List.mem_cons.1 h with rfl | h
        · obtain ⟨hnot, hsub⟩ := ih List.mem_cons_self
          have hne : c ≠ d := fun heq ↦ hd (by simp [heq])
          exact ⟨List.not_mem_cons_of_ne_of_not_mem hne hnot, List.cons_subset_cons d hsub⟩
        · obtain ⟨hnot, hsub⟩ := ih (List.mem_cons_of_mem _ h)
          exact ⟨hnot, List.Subset.trans hsub (List.subset_cons_self d text)⟩

end PythonText
