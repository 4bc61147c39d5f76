import NixStrixHalo.TheRock.CMakeLists
import Mathlib.Logic.Function.Basic

/-!
# Variables of the third-party builds

CMake evaluates a value when it is set and an argument when it is reached. `scan_archives` collects
the last value of every variable as it is written, unfolds a URL that is nothing but a reference,
and substitutes once. This module says when the two agree on the URLs of a file.

## CMake

`envAfter` runs the assignments before a line. Variables that the file does not set, and those of
the environment and the cache, are given by `outer`. A run stops at a text that is an error for
CMake, and nothing is asked of the lines behind it.

## The condition

A URL is settled (`Settled`) if it consists of references and of characters that stand for
themselves, each variable that it refers to has one value: the last one as it is written is the one
at the line, and no reference is left in what it gives. Where every URL that is recorded is settled,
the URLs of the script are CMake's (`matchesCMake_settled`).

The converse holds up to coincidence. One variable with another last value is enough to change the
URL, wherever it stands and however often; two of them can make up for each other, as in
`${A}${B}` with the values `x` and `yz` at the line and `xy` and `z` at the end of the file.
-/

namespace TheRock.ThirdParty

open PythonText Pattern CMake

/-! ### CMake -/

/-- The variables that a file has set. -/
abbrev Env := List Char → Option (List Char)

/-- What a name stands for: a variable of the file hides one from around it. -/
def lookIn (outer : Lookup) (env : Env) : Lookup
  | .variable, name => (env name).getD (outer .variable name)
  | .environment, name => outer .environment name
  | .cache, name => outer .cache name

/-- A value is evaluated when it is set, and a URL when it is reached. -/
def Statement.exec (outer : Lookup) (env : Env) : Statement → Option Env
  | set _ name value =>
    (evaluate (lookIn outer env) value.text).map fun v ↦ Function.update env name.text (some v)
  | url _ arg => (evaluate (lookIn outer env) arg.raw).map fun _ ↦ env
  | hash _ _ => some env
  | other _ => some env

/-- The variables after some statements, if none of them is an error. -/
def envAfter (outer : Lookup) (stmts : List Statement) : Option Env :=
  stmts.foldlM (Statement.exec outer) fun _ ↦ none

/-- The arguments that an evaluated text is for the declaration. -/
def UrlArg.args (text : List Char) : UrlArg → List (List Char)
  | quoted _ => [text]
  | unquoted _ _ _ => elements 0 [] text

/-- CMake comes to a URL line and evaluates its argument. -/
structure UrlAt (outer : Lookup) (stmts before after : List Statement) (l : Layout) (arg : UrlArg)
    (env : Env) (text : List Char) : Prop where
  eq : stmts = before ++ .url l arg :: after
  env_eq : envAfter outer before = some env
  text_eq : evaluate (lookIn outer env) arg.raw = some text

/-- The variable is set by one of the statements. -/
def IsSet (stmts : List Statement) (name : Name) : Prop := ∃ l value, .set l name value ∈ stmts

/-- The URLs that the scan records are those of CMake. -/
structure MatchesCMake (w : WordClass) (outer : Lookup) (stmts : List Statement) : Prop where
  returns : ∃ archives, scanArchives w [fileText stmts] = .ok archives
  /-- With a hash behind it, an `https` URL is recorded as CMake has it, and nothing else is. -/
  url : ∀ before after l arg env text, UrlAt outer stmts before after l arg env text → ∀ u,
    Recorded w (fileText stmts) before.length u ↔
      hashFollows after ∧ isHttps u ∧ arg.args text = [u]
  /-- No reference to a variable that has been set remains. -/
  expanded : ∀ before after l arg env text, UrlAt outer stmts before after l arg env text → ∀ u,
    Recorded w (fileText stmts) before.length u → ∀ name, IsSet before name →
      ¬refText name.text <:+: u

/-! ### The URLs of the script -/

/-- A URL as the script sees it: without its quotes, but with a comment behind it. -/
def urlText (l : Layout) (arg : UrlArg) : List Char := stripQuotes (urlValue l arg)

/-- A text that is nothing but a reference is replaced by the last value. -/
def unfolded (stmts : List Statement) (text : List Char) : List Char :=
  if ['$', '{'] <+: text ∧ ['}'] <:+ text then
    (lastValue stmts (text.drop 2).dropLast).getD text
  else text

/-- The text that takes the place of a reference. -/
def lastText (stmts : List Statement) (name : List Char) : List Char :=
  (lastValue stmts name).getD (refText name)

/-- Up to its first dollar, the text agrees with `https://`. -/
def MayBeHttps (text : List Char) : Prop :=
  "https://".toList <+: text.takeWhile (· != '$') ∨ text.takeWhile (· != '$') <+: "https://".toList

/-! ### The condition -/

/-- What the script makes of a URL can only differ from CMake's in the variables `off`. -/
structure Spelled (off : Name → Prop) (outer : Lookup) (stmts : List Statement) (l : Layout)
    (arg : UrlArg) (env : Env) (text : List Char) : Prop where
  /-- A comment behind the URL would be part of it. -/
  comment : l.comment = []
  /-- Where the URL is nothing but a reference, the last value of its variable evaluates to the
  value at the line. -/
  unfolds : ∀ name : Name, arg.raw = refText name.text → ∀ value,
    lastValue stmts name.text = some value →
      evaluate (lookIn outer env) value = some (lookIn outer env .variable name.text)
  /-- The URL refers to variables whose last values are the values at the line. -/
  refs : ∃ t : Template, t.Plain ∧ t.text = unfolded stmts arg.raw ∧
    ∀ name, .ref name ∈ t → ¬off name →
      lastText stmts name.text = lookIn outer env .variable name.text
  /-- The URL is not divided at semicolons. -/
  one : text ≠ [] → arg.args text = [text]

/-- The last values say what the values at the line say. -/
structure Settled (outer : Lookup) (stmts before : List Statement) (l : Layout) (arg : UrlArg)
    (env : Env) (text : List Char) : Prop extends
    Spelled (fun _ ↦ False) outer stmts l arg env text where
  /-- The URL spells no reference to a variable that has been set. -/
  closed : ∀ name, IsSet before name → ¬refText name.text <:+: text

/-! ### Substitution -/

section

variable {w : WordClass} {before : Option Char} {rest : List Char} {name : Name}

theorem refPattern_eq_none {text : List Char} (h : ¬['$', '{'] <+: text) :
    refPattern w before text = none := by
  rw [refPattern, literal, if_neg h]
  rfl

theorem refPattern_of_ne {c : Char} (hc : c ≠ '$') : refPattern w before (c :: rest) = none :=
  refPattern_eq_none fun h ↦ hc (List.cons_prefix_cons.1 h).1.symm

theorem literal_refText (name : Name) (rest : List Char) :
    literal ['$', '{'] (refText name.text ++ rest) = some (name.text ++ '}' :: rest) := by
  have heq : refText name.text ++ rest = ['$', '{'] ++ (name.text ++ '}' :: rest) := by
    simp [refText]
  rw [heq, literal_append]

theorem refPattern_refText (hname : isWordName name.text) :
    refPattern w before (refText name.text ++ rest) =
      some (name.text, (refText name.text).length) := by
  have hrun : many1 w.isWord (name.text ++ '}' :: rest) = some (name.text, '}' :: rest) := by
    refine many1_append name.ne_nil ((isWordName_iff w name).1 hname) ?_
    exact (w.isWord_ascii '}' (by decide)).trans rfl
  have hlength : (refText name.text ++ rest).length - rest.length = (refText name.text).length := by
    rw [List.length_append, Nat.add_sub_cancel]
  simp only [refPattern, literal_refText, Option.bind_eq_bind, Option.bind_some, hrun,
    literal_singleton, hlength]

theorem refPattern_refText_of_not (hname : ¬isWordName name.text) :
    refPattern w before (refText name.text ++ rest) = none := by
  rw [refPattern, literal_refText, Option.bind_eq_bind, Option.bind_some]
  refine Option.bind_eq_none_iff.2 fun ⟨run, rest'⟩ hrun ↦ ?_
  refine Option.bind_eq_none_iff.2 fun rest'' hclose ↦ ?_
  obtain rfl := eq_of_literal hclose
  have hbrace : w.isWord '}' = false := w.isWord_ascii '}' (by decide)
  refine absurd (isWordName_of_many1 (q := (· == '}')) (fun c hc ↦ ?_) (fun c hc ↦ ?_) hrun rfl rfl)
    hname
  · exact beq_eq_false_iff_ne.2 (ne_of_isNameChar hc (by decide))
  · refine beq_eq_false_iff_ne.2 ?_
    rintro rfl
    exact Bool.false_ne_true (hbrace.symm.trans hc)

/-- A character that stands for itself starts no reference. -/
theorem refPattern_of_lexeme {c : Char} {text : List Char}
    (h : lexeme true c text = (.out [c], 0)) : refPattern w before (c :: text) = none := by
  refine refPattern_eq_none fun hprefix ↦ ?_
  obtain ⟨rfl, hopen⟩ := List.cons_prefix_cons.1 hprefix
  rw [lexeme, if_neg (by decide), if_pos rfl, dollar, if_pos hopen] at h
  cases h

/-- **The substitution fills the template**: references are replaced, and the rest is kept. -/
theorem flatMap_pieces_text (f : List Char → List Char) {t : Template} (ht : t.Plain)
    (before : Option Char) :
    (pieces (refPattern w) 0 before t.text).flatMap (Sum.elim f ([·])) =
      t.fill fun name ↦ if isWordName name then f name else refText name := by
  induction t generalizing before with
  | nil => rfl
  | cons piece t ih =>
    rw [Template.text, List.flatMap_cons]
    rcases piece with c | _ | name
    · obtain ⟨hc, ht⟩ := ht
      show (pieces (refPattern w) 0 before (c :: Template.text t)).flatMap _ = _
      rw [pieces, refPattern_of_lexeme hc]
      exact congrArg (c :: ·) (ih ht (some c))
    · show (pieces (refPattern w) 0 before ('\\' :: ';' :: Template.text t)).flatMap _ = _
      rw [pieces, refPattern_of_ne (by decide)]
      dsimp only
      rw [pieces, refPattern_of_ne (by decide)]
      exact congrArg ('\\' :: ';' :: ·) (ih ht (some ';'))
    · show (pieces (refPattern w) 0 before (refText name.text ++ Template.text t)).flatMap _ = _
      -- a name with a character outside `\w` is left as it stands
      by_cases hname : isWordName name.text
      · rw [pieces_of_match (refPattern_refText hname) (List.cons_ne_nil _ _), List.flatMap_cons,
          ih ht, Template.fill_cons_ref, if_pos hname]
        rfl
      · rw [pieces_of_no_match, List.flatMap_append, ih ht, Template.fill_cons_ref, if_neg hname]
        · simp [List.flatMap_map]
        · -- only the first character can start a reference
          intro s₁ c s₂ heq
          rcases s₁ with _ | ⟨d, s₁⟩
          · rw [← List.cons_append, ← List.nil_append (c :: s₂), ← heq]
            exact refPattern_refText_of_not hname
          · have htail : '{' :: (name.text ++ ['}']) = s₁ ++ c :: s₂ := (List.cons.inj heq).2
            have hc : c ∈ '{' :: (name.text ++ ['}']) := by
              rw [htail]
              exact List.mem_append_right s₁ List.mem_cons_self
            refine refPattern_of_ne ?_
            simp only [List.mem_cons, List.mem_append, List.not_mem_nil, or_false] at hc
            rcases hc with rfl | hc | rfl
            · decide
            · exact ne_of_isNameChar (name.isNameChar_of_mem c hc) (by decide)
            · decide

/-- What stands before the first dollar is kept. -/
theorem takeWhile_prefix_replace (f : List Char → List Char) (text : List Char) :
    text.takeWhile (· != '$') <+: replace (refPattern w) f text := by
  have hkeep : ∀ s₁ c s₂, text.takeWhile (· != '$') = s₁ ++ c :: s₂ →
      refPattern w (s₁.getLast?.or none) (c :: (s₂ ++ text.dropWhile (· != '$'))) = none := by
    intro s₁ c s₂ heq
    have hc : c ∈ text.takeWhile (· != '$') := by
      rw [heq]
      exact List.mem_append_right s₁ List.mem_cons_self
    exact refPattern_of_ne (bne_iff_ne.1 (List.mem_takeWhile_imp (p := (· != '$')) hc))
  have hpieces := pieces_of_no_match hkeep
  rw [List.takeWhile_append_dropWhile] at hpieces
  rw [replace, hpieces, List.flatMap_append, List.flatMap_map]
  refine ⟨_, congrArg (· ++ _) ?_⟩
  exact (List.flatMap_singleton' _).symm

end

/-- The text that takes the place of a name that is not one for the script. -/
theorem lastText_of_not_isWordName {stmts : List Statement} {name : List Char}
    (h : ¬isWordName name) : lastText stmts name = refText name := by
  rcases hvalue : lastValue stmts name with _ | value
  · rw [lastText, hvalue, Option.getD_none]
  · obtain ⟨_, -, hname⟩ := exists_name_of_lastValue hvalue
    exact absurd hname h

/-- The last values fill a template. -/
theorem replace_text (w : WordClass) (stmts : List Statement) {t : Template} (ht : t.Plain) :
    replace (refPattern w) (lastText stmts) t.text = t.fill (lastText stmts) := by
  rw [replace, flatMap_pieces_text _ ht]
  refine Template.fill_congr fun name _ ↦ ?_
  split
  · rfl
  next hname => exact (lastText_of_not_isWordName hname).symm

/-! ### What the script makes of a URL -/

/-- Without a comment, only the quotes are dropped. -/
theorem urlText_of_comment {l : Layout} (h : l.comment = []) (arg : UrlArg) :
    urlText l arg = arg.raw := by
  have hvalue : urlValue l arg = arg.text := by
    rw [urlValue, h, List.append_nil, rstrip_eq_nil l.isSpace_of_mem_trail, List.append_nil]
  have hquote : ∀ value : Value, ∀ c ∈ value.text, (c == '"') = false := fun value c hc ↦
    beq_eq_false_iff_ne.2 (ne_of_mem_of_not_mem hc value.quote_not_mem)
  rw [urlText, hvalue]
  rcases arg with value | ⟨value, _, _⟩
  · exact trim_append (a := ['"']) (b := ['"']) (by simp) (by simp)
      (head?_any_of_forall (hquote value)) (getLast?_any_of_forall (hquote value))
  · have htrim := trim_append (p := (· == '"')) (a := []) (b := []) (by simp) (by simp)
      (head?_any_of_forall (hquote value)) (getLast?_any_of_forall (hquote value))
    rwa [List.nil_append, List.append_nil] at htrim

/-- **What the script makes of a URL**: the last values take the place of the references. -/
theorem expand_urlValue (w : WordClass) (stmts : List Statement) (l : Layout) (arg : UrlArg) :
    expand w (urlValue l arg) (cmakeVars w (fileText stmts)) =
      replace (refPattern w) (lastText stmts) (unfolded stmts (urlText l arg)) := by
  have hstrip : PythonText.strip (urlValue l arg) = urlValue l arg := by
    refine strip_eq_self ?_ ?_
    · rw [urlValue, List.head?_append_of_ne_nil _ arg.text_ne_nil]
      exact arg.trimmed.1
    · rw [urlValue, List.getLast?_append]
      have hrest := getLast?_rstrip (l.trail ++ l.comment)
      rcases hlast : (rstrip (l.trail ++ l.comment)).getLast? with _ | c
      · exact arg.trimmed.2
      · rwa [hlast] at hrest
  simp only [expand, hstrip, get?_cmakeVars]
  rfl

/-- A text that is replaced by an `https` URL agrees with one before its first dollar. -/
theorem mayBeHttps_of_replace {w : WordClass} {f : List Char → List Char} {text : List Char}
    (h : isHttps (replace (refPattern w) f text)) : MayBeHttps text :=
  List.prefix_or_prefix_of_prefix (List.isPrefixOf_iff_prefix.1 h) (takeWhile_prefix_replace f text)

/-- Texts between the braces of a reference. -/
theorem eq_refText {text : List Char} (hopen : ['$', '{'] <+: text) (hclose : ['}'] <:+ text) :
    text = refText (text.drop 2).dropLast := by
  obtain ⟨rest, rfl⟩ := hopen
  obtain ⟨before, heq⟩ := hclose
  rcases List.eq_nil_or_concat rest with rfl | ⟨inner, c, rfl⟩
  · have hbrace := congrArg List.getLast? heq
    rw [List.getLast?_concat] at hbrace
    cases hbrace
  · have hc : c = '}' := by
      have hlast := congrArg List.getLast? heq
      rw [List.getLast?_concat, List.concat_eq_append, ← List.append_assoc,
        List.getLast?_concat] at hlast
      exact (Option.some.inj hlast).symm
    have hdrop : (['$', '{'] ++ inner.concat c).drop 2 = inner ++ [c] := List.concat_eq_append
    rw [hdrop, List.dropLast_concat, List.concat_eq_append, hc]
    rfl

/-- A last value that evaluates to the value at the line may stand for it. -/
theorem evaluate_unfolded {look : Lookup} {stmts : List Statement} {raw : List Char}
    (h : ∀ name : Name, raw = refText name.text → ∀ value,
      lastValue stmts name.text = some value →
        evaluate look value = some (look .variable name.text)) :
    evaluate look (unfolded stmts raw) = evaluate look raw := by
  rw [unfolded]
  split
  next hbare =>
    have hraw := eq_refText hbare.1 hbare.2
    rcases hvalue : lastValue stmts (raw.drop 2).dropLast with _ | value
    · rfl
    · obtain ⟨name, hname, -⟩ := exists_name_of_lastValue hvalue
      rw [← hname] at hraw hvalue
      rw [Option.getD_some, h name hraw value hvalue, hraw, evaluate_refText]
  · rfl

variable {w : WordClass} {outer : Lookup} {stmts before after : List Statement} {l : Layout}
  {arg : UrlArg} {env : Env} {text : List Char} {off : Name → Prop}

/-- The URLs of the script and of CMake are one template, with the last values in it and with those
at the line. -/
theorem Spelled.exists_fill (h : Spelled off outer stmts l arg env text)
    (hat : UrlAt outer stmts before after l arg env text) :
    ∃ t : Template,
      expand w (urlValue l arg) (cmakeVars w (fileText stmts)) = t.fill (lastText stmts) ∧
      text = t.fill (lookIn outer env .variable) ∧
      ∀ name, .ref name ∈ t → ¬off name →
        lastText stmts name.text = lookIn outer env .variable name.text := by
  obtain ⟨t, ht, htext, hrefs⟩ := h.refs
  refine ⟨t, ?_, ?_, hrefs⟩
  · rw [expand_urlValue, urlText_of_comment h.comment, ← htext, replace_text w stmts ht]
  · have heval := hat.text_eq
    rw [← evaluate_unfolded h.unfolds, ← htext, evaluate_text ht] at heval
    exact (Option.some.inj heval).symm

/-- An `https` URL that is not divided is the only argument. -/
theorem Spelled.args_eq_iff (h : Spelled off outer stmts l arg env text) {u : List Char}
    (hu : isHttps u) : arg.args text = [u] ↔ text = u := by
  rcases eq_or_ne text [] with rfl | hne
  · have hnil : u ≠ [] := by
      rintro rfl
      exact absurd hu (by decide)
    rcases arg with value | ⟨value, _, _⟩
    · exact List.singleton_inj
    · exact iff_of_false (List.cons_ne_nil u []).symm hnil.symm
  · rw [h.one hne, List.singleton_inj]

/-- The script's text of a settled URL is CMake's. -/
theorem Settled.expand_eq (h : Settled outer stmts before l arg env text)
    (hat : UrlAt outer stmts before after l arg env text) :
    expand w (urlValue l arg) (cmakeVars w (fileText stmts)) = text := by
  obtain ⟨t, hscript, hcmake, hrefs⟩ := h.toSpelled.exists_fill (w := w) hat
  rw [hscript, hcmake]
  exact Template.fill_congr fun name hname ↦ hrefs name hname not_false

/-- **Settled URLs are those of CMake.** -/
theorem matchesCMake_of_settled
    (h : ∀ before after l arg env text, UrlAt outer stmts before after l arg env text →
      hashFollows after →
        MayBeHttps (unfolded stmts (urlText l arg)) ∨ (∃ u, arg.args text = [u] ∧ isHttps u) →
          Settled outer stmts before l arg env text) :
    MatchesCMake w outer stmts := by
  have hurl : ∀ before after l arg env text, UrlAt outer stmts before after l arg env text → ∀ u,
      Recorded w (fileText stmts) before.length u ↔
        hashFollows after ∧ isHttps u ∧ arg.args text = [u] := by
    intro before after l arg env text hat u
    rw [recorded_iff w hat.eq]
    refine and_congr_right fun hhash ↦ and_congr_right fun hhttps ↦ ?_
    constructor
    · -- what the script records starts with `https`, so the unfolded text may
      intro hexpand
      have hmay : MayBeHttps (unfolded stmts (urlText l arg)) := by
        rw [expand_urlValue] at hexpand
        exact mayBeHttps_of_replace (hexpand ▸ hhttps)
      have hsettled := h before after l arg env text hat hhash (Or.inl hmay)
      rw [hsettled.expand_eq hat] at hexpand
      exact (hsettled.args_eq_iff hhttps).2 hexpand
    · intro hargs
      have hsettled := h before after l arg env text hat hhash (Or.inr ⟨u, hargs, hhttps⟩)
      rw [hsettled.expand_eq hat]
      exact (hsettled.args_eq_iff hhttps).1 hargs
  refine ⟨exists_scanArchives w stmts, hurl, ?_⟩
  intro before after l arg env text hat u hrecorded
  obtain ⟨hhash, hhttps, hargs⟩ := (hurl before after l arg env text hat u).1 hrecorded
  have hsettled := h before after l arg env text hat hhash (Or.inr ⟨u, hargs, hhttps⟩)
  rw [← (hsettled.args_eq_iff hhttps).1 hargs]
  exact hsettled.closed

/-- **One variable is enough**: where a single variable that a URL refers to may have another last
value, the script's URL is CMake's only if it has not. -/
theorem MatchesCMake.settled (h : MatchesCMake w outer stmts)
    (hat : UrlAt outer stmts before after l arg env text) (hhash : hashFollows after)
    {u : List Char} (hargs : arg.args text = [u]) (hhttps : isHttps u) {name₀ : Name}
    (hspelled : Spelled (· = name₀) outer stmts l arg env text) :
    Settled outer stmts before l arg env text := by
  have hrecorded := (h.url before after l arg env text hat u).2 ⟨hhash, hhttps, hargs⟩
  have hclosed := h.expanded before after l arg env text hat u hrecorded
  obtain rfl := (hspelled.args_eq_iff hhttps).1 hargs
  refine ⟨⟨hspelled.comment, hspelled.unfolds, ?_, hspelled.one⟩, hclosed⟩
  obtain ⟨t, ht, htext, hrefs⟩ := hspelled.refs
  refine ⟨t, ht, htext, fun name hname _ ↦ ?_⟩
  rcases eq_or_ne name name₀ with rfl | hne
  · -- the text is the same, so the only value that is not known yet is the same, too
    have hexpand := ((recorded_iff w hat.eq).1 hrecorded).2.2
    have heval := hat.text_eq
    rw [← evaluate_unfolded hspelled.unfolds, ← htext, evaluate_text ht] at heval
    rw [expand_urlValue, urlText_of_comment hspelled.comment, ← htext, replace_text w stmts ht,
      ← Option.some.inj heval] at hexpand
    exact Template.eq_of_fill_eq hrefs hname hexpand
  · exact hrefs name hname hne

/-- **The URLs of the script are CMake's** if the URLs that either of them may read as an `https`
URL are settled, and only if no single variable keeps one of them from it. -/
theorem matchesCMake_settled (w : WordClass) (outer : Lookup) (stmts : List Statement) :
    ((∀ before after l arg env text, UrlAt outer stmts before after l arg env text →
        hashFollows after →
          MayBeHttps (unfolded stmts (urlText l arg)) ∨ (∃ u, arg.args text = [u] ∧ isHttps u) →
            Settled outer stmts before l arg env text) →
      MatchesCMake w outer stmts) ∧
    (MatchesCMake w outer stmts →
      ∀ before after l arg env text, UrlAt outer stmts before after l arg env text →
        hashFollows after → ∀ u, arg.args text = [u] → isHttps u →
          ∀ name₀ : Name, Spelled (· = name₀) outer stmts l arg env text →
            Settled outer stmts before l arg env text) :=
  ⟨matchesCMake_of_settled, fun h _ _ _ _ _ _ hat hhash _ hargs hhttps _ ↦
    h.settled hat hhash hargs hhttps⟩

/-! ### Files -/

def versionName : Name := ⟨"VERSION".toList, by decide, by decide⟩

def baseName : Name := ⟨"BASE".toList, by decide, by decide⟩

/-- Indented by two spaces. -/
def plainLayout : Layout where
  indent := [' ', ' ']
  gap := [' ']
  trail := []
  comment := []
  isBlank_of_mem := by decide
  gap_ne_nil := by decide
  isLineBreak_of_mem := by decide
  comment_eq := Or.inl rfl

def zeros : Digest :=
  ⟨false, .sha256, List.replicate 64 '0', by decide, by decide, by decide⟩

/-- A URL that refers to a version. -/
def versionedFile : List Statement :=
  [.set plainLayout versionName ⟨"1.2".toList, by decide, by decide, by decide⟩,
    .url plainLayout
      (.quoted ⟨"https://h.org/$\x7bVERSION\x7d".toList, by decide, by decide, by decide⟩),
    .hash plainLayout zeros]

def versionedTemplate : Template :=
  "https://h.org/".toList.map .char ++ [.ref versionName]

def versionedEnv : Env := Function.update (fun _ ↦ none) versionName.text (some "1.2".toList)

theorem eq_of_mem_versionedTemplate {name : Name} (h : .ref name ∈ versionedTemplate) :
    name = versionName := by
  rcases List.mem_append.1 h with h | h
  · obtain ⟨c, -, hc⟩ := List.mem_map.1 h
    cases hc
  · exact Piece.ref.inj (List.mem_singleton.1 h)

theorem matchesCMake_versionedFile (w : WordClass) :
    MatchesCMake w (fun _ _ ↦ []) versionedFile := by
  refine (matchesCMake_settled w _ _).1 fun before after l arg env text hat _ _ ↦ ?_
  obtain ⟨heq, henv, htext⟩ := hat
  rcases before with _ | ⟨s₁, _ | ⟨s₂, _ | ⟨s₃, before⟩⟩⟩
  · cases heq
  · cases heq
    have henv' : envAfter (fun _ _ ↦ []) (versionedFile.take 1) = some versionedEnv := rfl
    obtain rfl := Option.some.inj (henv'.symm.trans henv)
    have htext' : evaluate (lookIn (fun _ _ ↦ []) versionedEnv)
        "https://h.org/$\x7bVERSION\x7d".toList = some "https://h.org/1.2".toList := by
      decide +kernel
    obtain rfl := Option.some.inj (htext'.symm.trans htext)
    refine ⟨⟨rfl, ?_, ⟨versionedTemplate, by decide, by decide +kernel, ?_⟩, fun _ ↦ rfl⟩, ?_⟩
    · intro name hname
      have hhead : "https://h.org/$\x7bVERSION\x7d".toList.head? = some '$' :=
        congrArg List.head? hname
      exact absurd hhead (by decide +kernel)
    · intro name hname _
      rw [eq_of_mem_versionedTemplate hname]
      decide +kernel
    · rintro name ⟨l, value, hset⟩
      obtain ⟨-, rfl, -⟩ := Statement.set.inj (List.mem_singleton.1 hset)
      decide +kernel
  · cases heq
  · have hlength := congrArg List.length heq
    simp [versionedFile] at hlength

/-- A URL below a base that refers to a version. -/
def chainedFile : List Statement :=
  [.set plainLayout versionName ⟨"1.2".toList, by decide, by decide, by decide⟩,
    .set plainLayout baseName
      ⟨"https://h.org/$\x7bVERSION\x7d".toList, by decide, by decide, by decide⟩,
    .url plainLayout
      (.quoted ⟨"$\x7bBASE\x7d/src.tgz".toList, by decide, by decide, by decide⟩),
    .hash plainLayout zeros]

/-- The reference in the base stays in the URL that is recorded. -/
theorem not_matchesCMake : ¬MatchesCMake .ascii (fun _ _ ↦ []) chainedFile := by
  intro h
  have hat : UrlAt (fun _ _ ↦ []) chainedFile (chainedFile.take 2) (chainedFile.drop 3) plainLayout
      (.quoted ⟨"$\x7bBASE\x7d/src.tgz".toList, by decide, by decide, by decide⟩)
      (Function.update (Function.update (fun _ ↦ none) versionName.text (some "1.2".toList))
        baseName.text (some "https://h.org/1.2".toList))
      "https://h.org/1.2/src.tgz".toList := ⟨rfl, rfl, rfl⟩
  have hrecorded := (h.url _ _ _ _ _ _ hat _).2 ⟨rfl, by decide, rfl⟩
  have hexpand := ((recorded_iff .ascii hat.eq).1 hrecorded).2.2
  rw [expand_urlValue, urlText_of_comment rfl] at hexpand
  exact absurd hexpand (by decide)

end TheRock.ThirdParty
