import Mathlib.Data.List.Basic
import NixStrixHalo.Library.PythonText

/-!
# JSON strings read as Nix strings

A program that prints a Nix string with a JSON encoder relies on the two grammars agreeing. They
agree on the printable characters, on the quotation mark and the backslash, and on newline, carriage
return and tab; every other escape of JSON means something else in Nix, and Nix gives a meaning to
`${` that JSON does not escape. `eval_dumps_iff` says exactly which strings survive.

## Two readings of the dollar sign

A dollar sign may be read on its own or in pairs: in a pair, the second one does not open an
interpolation. The results hold for both readings; read on its own, an interpolation is the two
characters anywhere in the text (`survives_unpaired_iff`).

## Reading what was written

A character is written and read independently of the others, but for the dollar sign before a brace
(`reread`). A string survives if it interpolates nothing and each character is read as itself, and
what is left of any other character is never itself (`reread_of_not_isKept`), so nothing makes up
for it.
-/

namespace NixString

/-! ### Encoding -/

/-- `' ' ≤ c ≤ '~'`. -/
def isPrintable (c : Char) : Bool := 0x20 ≤ c.toNat ∧ c.toNat ≤ 0x7e

/-- The escapes of one character. -/
def shortEscape : Char → Option Char
  | '"' => some '"'
  | '\\' => some '\\'
  | '\n' => some 'n'
  | '\r' => some 'r'
  | '\t' => some 't'
  | '\x08' => some 'b'
  | '\x0c' => some 'f'
  | _ => none

/-- The UTF-16 code units of a character. -/
def codeUnits (c : Char) : List ℕ :=
  if c.toNat < 0x10000 then [c.toNat]
  else
    let n := c.toNat - 0x10000
    [0xd800 ||| n >>> 10 &&& 0x3ff, 0xdc00 ||| n &&& 0x3ff]

/-- The four hexadecimal digits of a code unit. -/
def hex4 (n : ℕ) : List Char :=
  [Nat.digitChar (n / 4096 % 16), Nat.digitChar (n / 256 % 16), Nat.digitChar (n / 16 % 16),
    Nat.digitChar (n % 16)]

/-- How `json.dumps` writes a character. -/
def escape (c : Char) : List Char :=
  match shortEscape c with
  | some x => ['\\', x]
  | none => if isPrintable c then [c] else (codeUnits c).flatMap fun n ↦ '\\' :: 'u' :: hex4 n

/-- `json.dumps`. -/
def dumps (s : List Char) : List Char := '"' :: (s.flatMap escape ++ ['"'])

/-! ### Evaluation -/

/-- What an escaped character of a Nix string stands for. -/
def unescape : Char → Char
  | 'n' => '\n'
  | 'r' => '\r'
  | 't' => '\t'
  | c => c

/-- Put characters before what was scanned. -/
def push (t : List Char) (p : List Char × List Char) : List Char × List Char := (t ++ p.1, p.2)

/-- The contents of a double-quoted Nix string and what follows its closing quotation mark. `dollar`
says that a dollar sign stands before the text, and `paired` that dollar signs are read in pairs. An
interpolation, which makes the value depend on more than the text, gives `none`. -/
def scan (paired : Bool) : Bool → List Char → Option (List Char × List Char)
  | _, [] => none
  | dollar, c :: rest =>
    if c = '"' then some ([], rest)
    else if dollar ∧ c = '{' then none
    else if c = '\\' then
      match rest with
      | [] => none
      | x :: rest => (scan paired false rest).map (push [unescape x])
    else (scan paired (c = '$' && !(paired && dollar)) rest).map (push [c])

/-- A double-quoted Nix string at the start of a text, with what follows it. -/
def literal (paired : Bool) : List Char → Option (List Char × List Char)
  | '"' :: rest => scan paired false rest
  | _ => none

/-- The value of a text that is a double-quoted Nix string. -/
def eval (paired : Bool) (text : List Char) : Option (List Char) :=
  match literal paired text with
  | some (value, []) => some value
  | _ => none

/-! ### What survives -/

/-- The text opens an interpolation. -/
def interpolates (paired : Bool) : Bool → List Char → Bool
  | _, [] => false
  | dollar, c :: s =>
    dollar && c == '{' || interpolates paired (c = '$' && !(paired && dollar)) s

/-- What Nix reads where `json.dumps` wrote a character. -/
def reread (c : Char) : List Char :=
  match shortEscape c with
  | some x => [unescape x]
  | none => if isPrintable c then [c] else (codeUnits c).flatMap fun n ↦ 'u' :: hex4 n

/-- The characters that are written and read alike. -/
def isKept (c : Char) : Bool := isPrintable c || c == '\n' || c == '\r' || c == '\t'

variable {paired : Bool}

/-- A character that is neither a quote nor a backslash stands for itself, unless it opens an
interpolation. -/
theorem scan_of_ordinary {c : Char} (hquote : c ≠ '"') (hbackslash : c ≠ '\\') {dollar : Bool}
    (hopen : (dollar && c == '{') = false) (rest : List Char) :
    scan paired dollar (c :: rest) =
      (scan paired (c = '$' && !(paired && dollar)) rest).map (push [c]) := by
  have hopen' : ¬(dollar = true ∧ c = '{') := by simpa using hopen
  rw [scan.eq_def]
  simp only [if_neg hquote, if_neg hopen', if_neg hbackslash]

/-- An escaped character never opens an interpolation. -/
theorem scan_backslash (x : Char) (dollar : Bool) (rest : List Char) :
    scan paired dollar ('\\' :: x :: rest) = (scan paired false rest).map (push [unescape x]) := by
  have hquote : '\\' ≠ '"' := by decide
  have hopen : ¬(dollar = true ∧ '\\' = '{') := fun h ↦ absurd h.2 (by decide)
  rw [scan.eq_def]
  simp only [if_neg hquote, if_neg hopen, if_pos]

theorem map_push_nil (o : Option (List Char × List Char)) : o.map (push []) = o := by
  cases o <;> rfl

theorem push_push (s t : List Char) (p : List Char × List Char) :
    push s (push t p) = push (s ++ t) p := by
  rw [push, push, push, List.append_assoc]

/-- What is read in two steps is read in one. -/
theorem map_push_push (s t : List Char) (o : Option (List Char × List Char)) :
    (o.map (push t)).map (push s) = o.map (push (s ++ t)) := by
  rw [Option.map_map]
  exact congrArg (o.map ·) (funext fun p ↦ push_push s t p)

/-- A run of characters that mean themselves. -/
theorem scan_append {t : List Char}
    (h : ∀ c ∈ t, c ≠ '"' ∧ c ≠ '\\' ∧ c ≠ '$' ∧ c ≠ '{') (rest : List Char) :
    scan paired false (t ++ rest) = (scan paired false rest).map (push t) := by
  induction t with
  | nil => exact (map_push_nil _).symm
  | cons c t ih =>
    obtain ⟨⟨hquote, hbackslash, hdollar, -⟩, ht⟩ := List.forall_mem_cons.1 h
    have hflag : (decide (c = '$') && !(paired && false)) = false := by simp [hdollar]
    rw [List.cons_append, scan_of_ordinary hquote hbackslash (Bool.false_and _), hflag, ih ht,
      map_push_push, List.singleton_append]

/-- Hexadecimal digits are ordinary characters. -/
theorem ordinary_of_mem_hex4 {n : ℕ} {c : Char} (h : c ∈ hex4 n) :
    c ≠ '"' ∧ c ≠ '\\' ∧ c ≠ '$' ∧ c ≠ '{' := by
  have hdigit : ∀ m < 16, Nat.digitChar m ≠ '"' ∧ Nat.digitChar m ≠ '\\' ∧
      Nat.digitChar m ≠ '$' ∧ Nat.digitChar m ≠ '{' := by decide
  have hmod : ∀ m : ℕ, m % 16 < 16 := fun m ↦ Nat.mod_lt m (by decide)
  simp only [hex4, List.mem_cons, List.not_mem_nil, or_false] at h
  rcases h with rfl | rfl | rfl | rfl
  · exact hdigit _ (hmod _)
  · exact hdigit _ (hmod _)
  · exact hdigit _ (hmod _)
  · exact hdigit _ (hmod _)

/-- Nix reads `\uXXXX` as the letter `u` and four digits. -/
theorem scan_codeUnits (units : List ℕ) (rest : List Char) :
    scan paired false ((units.flatMap fun n ↦ '\\' :: 'u' :: hex4 n) ++ rest) =
      (scan paired false rest).map (push (units.flatMap fun n ↦ 'u' :: hex4 n)) := by
  induction units with
  | nil => exact (map_push_nil _).symm
  | cons n units ih =>
    have hu : ∀ c ∈ hex4 n, c ≠ '"' ∧ c ≠ '\\' ∧ c ≠ '$' ∧ c ≠ '{' :=
      fun c hc ↦ ordinary_of_mem_hex4 hc
    rw [List.flatMap_cons, List.append_assoc, List.cons_append, List.cons_append, scan_backslash,
      scan_append hu, ih, map_push_push, map_push_push]
    rfl

/-- Every character has a code unit. -/
theorem codeUnits_ne_nil (c : Char) : codeUnits c ≠ [] := by
  rw [codeUnits]
  split
  · exact List.cons_ne_nil _ _
  · exact List.cons_ne_nil _ _

/-- The characters with an escape of their own. -/
theorem shortEscape_of_mem {c x : Char} (h : shortEscape c = some x) :
    (c, x) ∈ [('"', '"'), ('\\', '\\'), ('\n', 'n'), ('\r', 'r'), ('\t', 't'), ('\x08', 'b'),
      ('\x0c', 'f')] := by
  unfold shortEscape at h
  split at h <;> cases h <;> decide

/-- A hexadecimal digit is printable. -/
theorem isPrintable_digitChar (n : ℕ) : isPrintable (Nat.digitChar (n % 16)) := by
  have h : ∀ m < 16, isPrintable (Nat.digitChar m) := by decide
  exact h _ (Nat.mod_lt n (by decide))

/-- `json.dumps` writes printable ASCII only. -/
theorem isPrintable_of_mem_escape {c d : Char} (h : d ∈ escape c) : isPrintable d := by
  rw [escape] at h
  rcases hshort : shortEscape c with _ | x
  · rw [hshort] at h
    dsimp only at h
    split at h
    next hprint => exact List.mem_singleton.1 h ▸ hprint
    obtain ⟨n, -, hd⟩ := List.mem_flatMap.1 h
    simp only [hex4, List.mem_cons, List.not_mem_nil, or_false] at hd
    rcases hd with rfl | rfl | rfl | rfl | rfl | rfl
    · decide
    · decide
    · exact isPrintable_digitChar _
    · exact isPrintable_digitChar _
    · exact isPrintable_digitChar _
    · exact isPrintable_digitChar _
  · rw [hshort] at h
    have hmem := shortEscape_of_mem hshort
    have hall : ∀ p ∈ [('"', '"'), ('\\', '\\'), ('\n', 'n'), ('\r', 'r'), ('\t', 't'),
        ('\x08', 'b'), ('\x0c', 'f')], isPrintable p.2 := by decide
    rcases List.mem_cons.1 h with rfl | h
    · decide
    · exact List.mem_singleton.1 h ▸ hall _ hmem

/-- **Everything that is written is printable.** -/
theorem isPrintable_of_mem_dumps {s : List Char} {c : Char} (h : c ∈ dumps s) :
    isPrintable c := by
  rcases List.mem_cons.1 h with rfl | h
  · decide
  rcases List.mem_append.1 h with h | h
  · obtain ⟨d, -, hc⟩ := List.mem_flatMap.1 h
    exact isPrintable_of_mem_escape hc
  · obtain rfl := List.mem_singleton.1 h
    decide

/-- What one character is read as. -/
theorem scan_escape {c : Char} {dollar : Bool} (hopen : (dollar && c == '{') = false)
    (rest : List Char) :
    scan paired dollar (escape c ++ rest) =
      (scan paired (c = '$' && !(paired && dollar)) rest).map (push (reread c)) := by
  have hflag (hc : c ≠ '$') : (decide (c = '$') && !(paired && dollar)) = false := by simp [hc]
  rw [escape, reread]
  rcases hshort : shortEscape c with _ | x
  · by_cases hprint : isPrintable c
    · -- quotation marks and backslashes have a short escape, so what is printed as it is is
      -- ordinary
      have hquote : c ≠ '"' := by
        rintro rfl
        exact absurd hshort (by decide)
      have hbackslash : c ≠ '\\' := by
        rintro rfl
        exact absurd hshort (by decide)
      dsimp only
      rw [if_pos hprint, if_pos hprint]
      exact scan_of_ordinary hquote hbackslash hopen rest
    · -- at least one code unit is written, and a backslash ends the meaning of a dollar sign
      have hdollar : c ≠ '$' := by
        rintro rfl
        exact hprint (by decide)
      have hunits : scan paired false _ = _ := scan_codeUnits (codeUnits c) rest
      obtain ⟨n, units, heq⟩ := List.exists_cons_of_ne_nil (codeUnits_ne_nil c)
      dsimp only
      rw [if_neg hprint, if_neg hprint, hflag hdollar, ← hunits, heq, List.flatMap_cons,
        List.append_assoc, List.cons_append, List.cons_append, scan_backslash, scan_backslash]
  · have hdollar : c ≠ '$' := by
      rintro rfl
      cases hshort
    rw [hflag hdollar]
    exact scan_backslash x dollar rest

/-- **What an encoded string is read as**, whatever follows it. -/
theorem scan_flatMap_escape (s : List Char) (dollar : Bool) (rest : List Char) :
    scan paired dollar (s.flatMap escape ++ '"' :: rest) =
      if interpolates paired dollar s then none else some (s.flatMap reread, rest) := by
  induction s generalizing dollar with
  | nil =>
    rw [List.flatMap_nil, List.nil_append, scan.eq_def]
    rfl
  | cons c s ih =>
    rw [List.flatMap_cons, List.append_assoc, interpolates, List.flatMap_cons]
    rcases hopen : dollar && c == '{'
    · rw [scan_escape hopen, ih, Bool.false_or]
      split
      · rfl
      · rfl
    · -- a brace is written as it is, and opens an interpolation behind the dollar sign
      obtain ⟨hdollar, hbrace⟩ := Bool.and_eq_true_iff.1 hopen
      obtain rfl := eq_of_beq hbrace
      subst hdollar
      rw [Bool.true_or, if_pos rfl, show escape '{' = ['{'] from rfl, List.singleton_append,
        scan.eq_def]
      rfl

/-- **What Nix reads of a JSON string**: nothing if it interpolates, otherwise each character as its
escape is reread. -/
theorem literal_dumps (s rest : List Char) :
    literal paired (dumps s ++ rest) =
      if interpolates paired false s then none else some (s.flatMap reread, rest) := by
  rw [dumps, List.cons_append, List.append_assoc, List.singleton_append]
  exact scan_flatMap_escape s false rest

/-- A character that JSON keeps is reread as itself. -/
theorem reread_of_isKept {c : Char} (h : isKept c) : reread c = [c] := by
  rw [reread]
  rcases hshort : shortEscape c with _ | x
  · have hprint : isPrintable c := by
      by_contra hprint
      have hcontrol : c = '\n' ∨ c = '\r' ∨ c = '\t' := by
        simpa [isKept, hprint, or_assoc] using h
      rcases hcontrol with rfl | rfl | rfl
      · cases hshort
      · cases hshort
      · cases hshort
    dsimp only
    rw [if_pos hprint]
  · have hmem := shortEscape_of_mem hshort
    simp only [List.mem_cons, Prod.mk.injEq, List.not_mem_nil, or_false] at hmem
    rcases hmem with ⟨rfl, rfl⟩ | ⟨rfl, rfl⟩ | ⟨rfl, rfl⟩ | ⟨rfl, rfl⟩ | ⟨rfl, rfl⟩ | ⟨rfl, rfl⟩ |
      ⟨rfl, rfl⟩
    · rfl
    · rfl
    · rfl
    · rfl
    · rfl
    · exact absurd h (by decide)
    · exact absurd h (by decide)

/-- A character that is not kept is read as a text that starts with another one. -/
theorem reread_of_not_isKept {c : Char} (h : isKept c = false) :
    ∃ d t, reread c = d :: t ∧ d ≠ c := by
  have hprint : isPrintable c = false := by
    rw [isKept] at h
    cases hprint : isPrintable c
    · rfl
    · simp [hprint] at h
  rw [reread]
  rcases hshort : shortEscape c with _ | x
  · obtain ⟨n, units, heq⟩ := List.exists_cons_of_ne_nil (codeUnits_ne_nil c)
    dsimp only
    rw [hprint, if_neg Bool.false_ne_true, heq, List.flatMap_cons, List.cons_append]
    refine ⟨'u', _, rfl, ?_⟩
    -- `u` is printable, so it is not written as code units
    rintro rfl
    exact absurd hprint (by decide)
  · have hmem := shortEscape_of_mem hshort
    refine ⟨unescape x, [], rfl, ?_⟩
    simp only [List.mem_cons, Prod.mk.injEq, List.not_mem_nil, or_false] at hmem
    rcases hmem with ⟨rfl, rfl⟩ | ⟨rfl, rfl⟩ | ⟨rfl, rfl⟩ | ⟨rfl, rfl⟩ | ⟨rfl, rfl⟩ | ⟨rfl, rfl⟩ |
      ⟨rfl, rfl⟩
    · exact absurd h (by decide)
    · exact absurd h (by decide)
    · exact absurd h (by decide)
    · exact absurd h (by decide)
    · exact absurd h (by decide)
    · decide
    · decide

/-- The text is read as itself only if every character is. -/
theorem flatMap_reread_eq_self_iff {s : List Char} : s.flatMap reread = s ↔ ∀ c ∈ s, isKept c := by
  induction s with
  | nil => exact ⟨fun _ c hc ↦ absurd hc List.not_mem_nil, fun _ ↦ rfl⟩
  | cons c s ih =>
    rw [List.flatMap_cons, List.forall_mem_cons]
    cases hkept : isKept c
    · obtain ⟨d, t, heq, hne⟩ := reread_of_not_isKept hkept
      rw [heq, List.cons_append]
      exact ⟨fun h ↦ absurd (List.cons.inj h).1 hne, fun h ↦ absurd h.1 Bool.false_ne_true⟩
    · rw [reread_of_isKept hkept, List.singleton_append, List.cons_inj_right, ih]
      exact (and_iff_right rfl).symm

/-- The text is written and read alike. -/
def Survives (paired : Bool) (s : List Char) : Prop :=
  (∀ c ∈ s, isKept c) ∧ interpolates paired false s = false

instance (s : List Char) : Decidable (Survives paired s) :=
  inferInstanceAs (Decidable ((∀ c ∈ s, isKept c) ∧ interpolates paired false s = false))

/-- A JSON string alone is a Nix expression under the same condition. -/
theorem eval_dumps (s : List Char) :
    eval paired (dumps s) =
      if interpolates paired false s then none else some (s.flatMap reread) := by
  have h : literal paired (dumps s ++ []) = _ := literal_dumps s []
  rw [List.append_nil] at h
  rw [eval, h]
  cases interpolates paired false s
  · rfl
  · rfl

/-- **The strings that are read back**: their characters are printable, or newline, carriage return
or tab, and they open no interpolation. -/
theorem eval_dumps_iff {s : List Char} : eval paired (dumps s) = some s ↔ Survives paired s := by
  rw [eval_dumps, Survives, ← flatMap_reread_eq_self_iff]
  cases interpolates paired false s
  · rw [if_neg Bool.false_ne_true, Option.some_inj]
    exact (and_iff_left rfl).symm
  · exact ⟨fun h ↦ absurd h (by simp), fun h ↦ absurd h.2 (by decide)⟩

/-- A kept text without a brace survives. -/
theorem survives_of_forall {s : List Char} (h : ∀ c ∈ s, isKept c ∧ c ≠ '{') :
    Survives paired s := by
  have hopen : ∀ (s : List Char) (dollar : Bool), (∀ c ∈ s, c ≠ '{') →
      interpolates paired dollar s = false := by
    intro s
    induction s with
    | nil => exact fun _ _ ↦ rfl
    | cons c s ih =>
      intro dollar hs
      obtain ⟨hc, hs⟩ := List.forall_mem_cons.1 hs
      rw [interpolates, beq_eq_false_iff_ne.2 hc, Bool.and_false, Bool.false_or, ih _ hs]
  exact ⟨fun c hc ↦ (h c hc).1, hopen s false fun c hc ↦ (h c hc).2⟩

/-- A text starts with a character if it is its head. -/
theorem singleton_prefix_iff {c : Char} {s : List Char} : [c] <+: s ↔ s.head? = some c := by
  cases s with
  | nil => simp
  | cons d s => simp [eq_comm]

/-- Dollar signs read on their own: the text opens an interpolation if a brace follows one. -/
theorem interpolates_unpaired {dollar : Bool} {s : List Char} :
    interpolates false dollar s ↔
      (dollar = true ∧ s.head? = some '{') ∨ ['$', '{'] <:+: s := by
  induction s generalizing dollar with
  | nil => simp [interpolates]
  | cons c s ih =>
    rw [interpolates, Bool.or_eq_true, ih, List.infix_cons_iff, List.cons_prefix_cons,
      singleton_prefix_iff]
    simp [eq_comm (a := '$')]

/-- Without pairs, the strings that are read back contain no `${`. -/
theorem survives_unpaired_iff {s : List Char} :
    Survives false s ↔ (∀ c ∈ s, isKept c) ∧ ¬['$', '{'] <:+: s := by
  rw [Survives, ← Bool.not_eq_true, interpolates_unpaired]
  simp

example : Survives true "$${x}".toList ∧ ¬Survives false "$${x}".toList := by decide

end NixString
