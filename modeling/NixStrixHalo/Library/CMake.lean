import NixStrixHalo.Library.PythonText

/-!
# Arguments of CMake

How CMake evaluates an argument when it comes to the line: the references in it, which may stand in
one another, its escape sequences, and what an argument without quotes is divided into.

## Evaluation

`evaluate` goes through the characters once. A reference that opens puts aside what came before, and
one that closes puts the value of its name behind it; a value is not looked at again. Some texts are
errors: an escaped letter, a reference that does not end, or one of an unknown kind.

## Templates

A text that consists of references and of characters that stand for themselves is a `Template`
(`Plain`). Its evaluation fills in the values (`evaluate_text`), and a template whose references all
have their values but one tells the value of that one (`eq_of_fill_eq`).

## Lists

An argument without quotes is divided at its semicolons (`elements`).
-/

namespace CMake

/-! ### Evaluation -/

/-- The characters that a name has in a reference without an escape. -/
def isNameChar (c : Char) : Bool :=
  c.isAlphanum || c == '_' || c == '/' || c == '.' || c == '+' || c == '-'

/-- Where a reference looks up its name. -/
inductive Scope
  | variable
  | environment
  | cache
  deriving DecidableEq

/-- The values of names. What has no value is empty. -/
abbrev Lookup := Scope → List Char → List Char

/-- What a character is for the evaluation. -/
inductive Lexeme
  | out (s : List Char)
  | openRef (scope : Scope)
  | closeRef
  | error
  deriving DecidableEq

/-- A backslash before some text, and how many characters of the text belong to it. Outside of
references, an escaped semicolon is kept with its backslash. -/
def escape (top : Bool) : List Char → Lexeme × ℕ
  | [] => (.error, 0)
  | c :: _ =>
    if c = 't' then (.out ['\t'], 1)
    else if c = 'r' then (.out ['\r'], 1)
    else if c = 'n' then (.out ['\n'], 1)
    else if c = ';' ∧ top then (.out ['\\', ';'], 1)
    else if c.isAlphanum then (.error, 0)
    else (.out [c], 1)

/-- A dollar before some text. -/
def dollar (text : List Char) : Lexeme × ℕ :=
  if ['{'] <+: text then (.openRef .variable, 1)
  else if "ENV\x7b".toList <+: text then (.openRef .environment, 4)
  else if "CACHE\x7b".toList <+: text then (.openRef .cache, 6)
  else if (text.dropWhile isNameChar).head? = some '{' then (.error, 0)
  else (.out ['$'], 0)

/-- A character before some text, outside of references (`top`) or in one. -/
def lexeme (top : Bool) (c : Char) (text : List Char) : Lexeme × ℕ :=
  if c = '\\' then escape top text
  else if c = '$' then dollar text
  else if c = '}' ∧ !top then (.closeRef, 0)
  else if top || isNameChar c then (.out [c], 0)
  else (.error, 0)

/-- The evaluation of a text. The first `skip` characters have been dealt with; `refs` are the
references that are open, the innermost first, with what came before each. -/
def run (look : Lookup) : ℕ → List (Scope × List Char) → List Char → List Char →
    Option (List Char)
  | _, [], out, [] => some out
  | _, _ :: _, _, [] => none
  | skip + 1, refs, out, _ :: text => run look skip refs out text
  | 0, refs, out, c :: text =>
    match lexeme refs.isEmpty c text with
    | (.out s, n) => run look n refs (out ++ s) text
    | (.openRef scope, n) => run look n ((scope, out) :: refs) [] text
    | (.closeRef, n) =>
      match refs with
      | (scope, before) :: refs => run look n refs (before ++ look scope out) text
      | [] => none
    | (.error, _) => none

/-- What an argument evaluates to. -/
def evaluate (look : Lookup) (text : List Char) : Option (List Char) := run look 0 [] [] text

/-- What an argument without quotes is divided into, once it is evaluated: its parts between
semicolons that are neither escaped nor in brackets, without the empty ones. -/
def elements : ℤ → List Char → List Char → List (List Char)
  | _, arg, [] => if arg = [] then [] else [arg]
  | nesting, arg, '\\' :: ';' :: text => elements nesting (arg ++ [';']) text
  | nesting, arg, c :: text =>
    if c = ';' ∧ nesting = 0 then
      (if arg = [] then [] else [arg]) ++ elements nesting [] text
    else
      elements (if c = '[' then nesting + 1 else if c = ']' then nesting - 1 else nesting)
        (arg ++ [c]) text

/-- `${name}`. -/
def refText (name : List Char) : List Char := '$' :: '{' :: (name ++ ['}'])

/-! ### Templates -/

/-- A name that a reference can spell. -/
structure Name where
  text : List Char
  ne_nil : text ≠ []
  isNameChar_of_mem : ∀ c ∈ text, isNameChar c
  deriving DecidableEq

/-- What a text that can be filled in consists of. -/
inductive Piece
  | char (c : Char)
  /-- An escaped semicolon, which keeps its backslash. -/
  | semicolon
  | ref (name : Name)
  deriving DecidableEq

namespace Piece

def text : Piece → List Char
  | char c => [c]
  | semicolon => ['\\', ';']
  | ref name => refText name.text

/-- The piece with a text in place of its reference. -/
def fill (f : List Char → List Char) : Piece → List Char
  | char c => [c]
  | semicolon => ['\\', ';']
  | ref name => f name.text

end Piece

/-- Characters and references. -/
abbrev Template := List Piece

namespace Template

def text (t : Template) : List Char := t.flatMap Piece.text

/-- The template with texts in place of its references. -/
def fill (f : List Char → List Char) (t : Template) : List Char := t.flatMap (Piece.fill f)

/-- The characters of the template stand for themselves. -/
def Plain : Template → Prop
  | [] => True
  | .char c :: t => lexeme true c (text t) = (.out [c], 0) ∧ Plain t
  | .semicolon :: t => Plain t
  | .ref _ :: t => Plain t

instance : DecidablePred Plain := go
where
  go : (t : Template) → Decidable (Plain t)
    | [] => .isTrue trivial
    | .char c :: t =>
      haveI := go t
      inferInstanceAs (Decidable (lexeme true c (text t) = (.out [c], 0) ∧ Plain t))
    | .semicolon :: t => go t
    | .ref _ :: t => go t

end Template

variable {look : Lookup}

/-- The characters of a name are none of the others. -/
theorem ne_of_isNameChar {c d : Char} (h : isNameChar c) (hd : isNameChar d = false) : c ≠ d :=
  PythonText.ne_of_class h hd

/-- A character of a name stands for itself. -/
theorem lexeme_of_isNameChar {c : Char} (h : isNameChar c) (top : Bool) (text : List Char) :
    lexeme top c text = (.out [c], 0) := by
  have hclose : ¬(c = '}' ∧ !top) := fun heq ↦ ne_of_isNameChar h (by decide) heq.1
  rw [lexeme, if_neg (ne_of_isNameChar h (by decide)), if_neg (ne_of_isNameChar h (by decide)),
    if_neg hclose, if_pos (by rw [h, Bool.or_true])]

/-- The name of a reference is collected. -/
theorem run_name {name : List Char} (h : ∀ c ∈ name, isNameChar c)
    (refs : List (Scope × List Char)) (out rest : List Char) :
    run look 0 refs out (name ++ rest) = run look 0 refs (out ++ name) rest := by
  induction name generalizing out with
  | nil => rw [List.nil_append, List.append_nil]
  | cons c name ih =>
    obtain ⟨hc, hname⟩ := List.forall_mem_cons.1 h
    rw [List.cons_append, run, lexeme_of_isNameChar hc]
    dsimp only
    rw [ih hname, List.append_assoc, List.singleton_append]

/-- The value of a reference takes its place. -/
theorem run_refText (name : Name) (out rest : List Char) :
    run look 0 [] out (refText name.text ++ rest) =
      run look 0 [] (out ++ look .variable name.text) rest := by
  have hopen : lexeme true '$' ('{' :: (name.text ++ '}' :: rest)) = (.openRef .variable, 1) := rfl
  have hclose : lexeme false '}' rest = (.closeRef, 0) := rfl
  have heq : refText name.text ++ rest = '$' :: '{' :: (name.text ++ '}' :: rest) := by
    simp [refText]
  rw [heq, run, List.isEmpty_nil, hopen]
  dsimp only
  rw [run, run_name name.isNameChar_of_mem, List.nil_append, run, List.isEmpty_cons, hclose]

/-- **A template evaluates to itself with the values in it.** -/
theorem evaluate_text {t : Template} (h : t.Plain) :
    evaluate look t.text = some (t.fill (look .variable)) := by
  suffices hrun : ∀ out, run look 0 [] out t.text = some (out ++ t.fill (look .variable)) from
    hrun []
  induction t with
  | nil => exact fun out ↦ congrArg some (List.append_nil out).symm
  | cons piece t ih =>
    intro out
    rcases piece with c | _ | name
    · obtain ⟨hc, ht⟩ := h
      show run look 0 [] out (c :: Template.text t) = some (out ++ c :: Template.fill _ t)
      rw [run, List.isEmpty_nil, hc]
      dsimp only
      rw [ih ht, List.append_assoc, List.singleton_append]
    · show run look 0 [] out ('\\' :: ';' :: Template.text t) =
        some (out ++ (['\\', ';'] ++ Template.fill _ t))
      have hescape : lexeme true '\\' (';' :: Template.text t) = (.out ['\\', ';'], 1) := rfl
      rw [run, List.isEmpty_nil, hescape]
      dsimp only
      rw [run, ih h, List.append_assoc]
    · show run look 0 [] out (refText name.text ++ Template.text t) =
        some (out ++ (look .variable name.text ++ Template.fill _ t))
      rw [run_refText, ih h, List.append_assoc]

/-- A reference evaluates to its value. -/
theorem evaluate_refText (name : Name) :
    evaluate look (refText name.text) = some (look .variable name.text) := by
  have hplain : Template.Plain [.ref name] := trivial
  have htext : Template.text [.ref name] = refText name.text := List.flatMap_singleton _ _
  rw [← htext, evaluate_text hplain]
  exact congrArg some (List.flatMap_singleton _ _)

/-! ### Filling in -/

section

variable {f g : List Char → List Char} {name : Name}

theorem Template.fill_cons_char (c : Char) (t : Template) :
    Template.fill f (.char c :: t) = c :: Template.fill f t :=
  rfl

theorem Template.fill_cons_semicolon (t : Template) :
    Template.fill f (.semicolon :: t) = ['\\', ';'] ++ Template.fill f t :=
  rfl

/-- A reference in front is filled in first. -/
theorem Template.fill_cons_ref (name : Name) (t : Template) :
    Template.fill f (.ref name :: t) = f name.text ++ Template.fill f t :=
  rfl

/-- Values that agree give the same text. -/
theorem Template.fill_congr {t : Template} (h : ∀ n, .ref n ∈ t → f n.text = g n.text) :
    t.fill f = t.fill g := by
  refine List.flatMap_congr fun piece hpiece ↦ ?_
  rcases piece with c | _ | n
  · rfl
  · rfl
  · exact h n hpiece

/-- How much longer the text is where one name has a longer value. -/
theorem Template.length_fill {t : Template}
    (h : ∀ n, .ref n ∈ t → n ≠ name → f n.text = g n.text) :
    (t.fill f).length + t.count (.ref name) * (g name.text).length =
      (t.fill g).length + t.count (.ref name) * (f name.text).length := by
  induction t with
  | nil => simp [fill]
  | cons piece t ih =>
    have ht := ih fun n hn ↦ h n (List.mem_cons_of_mem _ hn)
    rcases piece with c | _ | n
    · rw [fill_cons_char, fill_cons_char, List.length_cons, List.length_cons,
        List.count_cons_of_ne (by simp)]
      omega
    · rw [fill_cons_semicolon, fill_cons_semicolon, List.length_append, List.length_append,
        List.count_cons_of_ne (by simp)]
      omega
    · rw [fill_cons_ref, fill_cons_ref, List.length_append, List.length_append]
      rcases eq_or_ne n name with rfl | hne
      · rw [List.count_cons_self, Nat.add_mul, Nat.add_mul, Nat.one_mul, Nat.one_mul]
        omega
      · rw [h n List.mem_cons_self hne, List.count_cons_of_ne (by simpa using hne)]
        omega

/-- **The text tells the value** that is not known yet, where all the others are. -/
theorem Template.eq_of_fill_eq {t : Template}
    (h : ∀ n, .ref n ∈ t → n ≠ name → f n.text = g n.text) (hname : .ref name ∈ t)
    (heq : t.fill f = t.fill g) : f name.text = g name.text := by
  have hlength : (f name.text).length = (g name.text).length := by
    have hsum := Template.length_fill h
    rw [heq, Nat.add_left_cancel_iff] at hsum
    exact (Nat.eq_of_mul_eq_mul_left (List.count_pos_iff.2 hname) hsum).symm
  -- up to the first reference to the name, the texts are the same
  induction t with
  | nil => exact absurd hname List.not_mem_nil
  | cons piece t ih =>
    have ht : ∀ n, .ref n ∈ t → n ≠ name → f n.text = g n.text := fun n hn ↦
      h n (List.mem_cons_of_mem _ hn)
    rcases piece with c | _ | n
    · rw [fill_cons_char, fill_cons_char] at heq
      rcases List.mem_cons.1 hname with hpiece | hname
      · cases hpiece
      · exact ih ht hname (List.cons.inj heq).2
    · rw [fill_cons_semicolon, fill_cons_semicolon] at heq
      rcases List.mem_cons.1 hname with hpiece | hname
      · cases hpiece
      · exact ih ht hname (List.append_cancel_left heq)
    · rw [fill_cons_ref, fill_cons_ref] at heq
      rcases eq_or_ne n name with rfl | hne
      · exact (List.append_inj heq hlength).1
      · rw [h n List.mem_cons_self hne] at heq
        rcases List.mem_cons.1 hname with hpiece | hname
        · exact absurd (Piece.ref.inj hpiece).symm hne
        · exact ih ht hname (List.append_cancel_left heq)

end

example : evaluate (fun _ name ↦ if name = "A".toList then "B/".toList else "b".toList)
    "$\x7b$\x7bA\x7dc\x7d-\\$\x7bB\x7d$5".toList = some "b-$\x7bB\x7d$5".toList := by
  decide +kernel

end CMake
