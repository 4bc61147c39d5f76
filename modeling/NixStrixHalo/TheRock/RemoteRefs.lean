import Mathlib.Data.List.Nodup
import NixStrixHalo.Library.OrderedDict
import NixStrixHalo.Library.PythonText
import NixStrixHalo.Library.Result

/-!
# The revision of a ref

Three scripts ask `git ls-remote` for the revision that a ref has: `git_rev` of
`update-rocm-source.py` and of `update-source-tree.py`, and `ls_remote_peeled_tag` of
`update-rocm-third-party.py`. Whatever else is printed, and in whatever order, the scripts agree on
the commit of the ref that has exactly this name (`resolvers_agree`).

## What git prints

Git prints every ref whose path ends with what is asked for, and an annotated tag a second time with
`^{}` and the commit it is peeled to. `Answers` is all that is assumed of it: the lines are refs of
the remote, those of the name that is asked for and of its peeled form are among them, and there may
be lines of warnings, since one of the scripts reads the error stream as well.

## How the scripts differ

`git_rev` goes through the lines twice, for the peeled name and then for the plain one, and
`ls_remote_peeled_tag` collects a table. Both look at whole names, so a branch whose path ends with
that of a tag is told apart from it. Where there is no such ref, all three end with an error.
-/

namespace TheRock

open PythonText

/-! ### The scripts -/

/-- How the scripts end early. -/
inductive RefError
  | noRevision
  | noExactRevision
  | valueError
  | keyError
  deriving DecidableEq

/-- `ref^{}`. -/
def peeledRef (ref : List Char) : List Char := ref ++ "^\x7b\x7d".toList

/-- `rev, resolved_ref = line.split()[:2]`. -/
def readRef (line : List Char) : Except RefError (List Char × List Char) :=
  match words line with
  | rev :: ref :: _ => .ok (rev, ref)
  | _ => .error .valueError

/-- A loop of `git_rev`: the revision in the first line for the ref. -/
def findRef (ref : List Char) : List (List Char) → Except RefError (Option (List Char))
  | [] => .ok none
  | line :: lines => do
    let (rev, resolvedRef) ← readRef line
    if resolvedRef = ref then .ok (some rev) else findRef ref lines

/-- `git_rev`, on what git prints. -/
def gitRev (stdout ref : List Char) : Except RefError (List Char) := do
  let lines := (splitlines (universalNewlines stdout)).filter fun line ↦ !line.all isSpace
  if lines = [] then .error .noRevision
  else
    match ← findRef (peeledRef ref) lines with
    | some rev => .ok rev
    | none =>
      match ← findRef ref lines with
      | some rev => .ok rev
      | none => .error .noExactRevision

/-- The key and the value that a line adds to `revs`. -/
def readTag (line : List Char) : Except RefError (List Char × List Char) :=
  match splitOnce line with
  | some (rev, ref) => .ok (ref, rev)
  | none => .error .valueError

/-- `refs/tags/{tag}`. -/
def tagRef (tag : List Char) : List Char := "refs/tags/".toList ++ tag

/-- `ls_remote_peeled_tag`, on what git prints. The default of `revs.get` is evaluated first. -/
def lsRemotePeeledTag (stdout tag : List Char) : Except RefError (List Char) := do
  let lines := (splitlines (universalNewlines stdout)).filter (· ≠ [])
  let revs := OrderedDict.ofPairs (← lines.mapM readTag)
  match OrderedDict.get? revs (tagRef tag) with
  | some rev => .ok ((OrderedDict.get? revs (peeledRef (tagRef tag))).getD rev)
  | none => .error .keyError

/-! ### Remotes -/

/-- A ref, with the object it names and, for an annotated tag, the commit this is peeled to. -/
structure Ref where
  name : List Char
  object : List Char
  peeled : Option (List Char)

/-- The commit that the ref stands for. -/
def Ref.commit (r : Ref) : List Char := r.peeled.getD r.object

/-- What the ref is advertised as: revisions and names. -/
def Ref.advertised (r : Ref) : List (List Char × List Char) :=
  (r.object, r.name) :: r.peeled.toList.map fun rev ↦ (rev, peeledRef r.name)

/-- The refs of a repository. Names and revisions are words: `git check-ref-format` keeps ASCII
spaces out of names, and the other characters that `str.split` cuts at are assumed not to be there.
No name has a caret. -/
structure Remote where
  refs : List Ref
  nodup : (refs.map Ref.name).Nodup
  isWord_name : ∀ r ∈ refs, IsWord r.name
  caret_not_mem : ∀ r ∈ refs, '^' ∉ r.name
  isWord_object : ∀ r ∈ refs, IsWord r.object
  isWord_peeled : ∀ r ∈ refs, ∀ rev ∈ r.peeled, IsWord rev

namespace Remote

/-- The commit of the ref of this name. -/
def commitOf (remote : Remote) (ref : List Char) : Option (List Char) :=
  (remote.refs.find? fun r ↦ r.name = ref).map Ref.commit

def advertised (remote : Remote) : List (List Char × List Char) :=
  remote.refs.flatMap Ref.advertised

end Remote

/-- A line of `git ls-remote`. -/
def refLine (p : List Char × List Char) : List Char := p.1 ++ '\t' :: p.2

/-- What git may print when it is asked for `ref` and `ref^{}`: refs of the remote, with those of
these names among them, and extra lines. -/
structure Answers (remote : Remote) (ref : List Char) (extra : List Char → Prop)
    (lines : List (List Char)) : Prop where
  sound : ∀ line ∈ lines, (∃ p ∈ remote.advertised, line = refLine p) ∨ extra line
  complete : ∀ p ∈ remote.advertised, p.2 = ref ∨ p.2 = peeledRef ref → refLine p ∈ lines

/-- A line of a warning, which `run` reads with the output: it has two words at least, since a line
of one word would end the script with a `ValueError`, and the second one is not the ref that is
asked for. -/
def IsWarning (ref line : List Char) : Prop :=
  (∀ c ∈ line, isLineBreak c = false) ∧ ∃ word word' rest, words line = word :: word' :: rest ∧
    word' ≠ ref ∧ word' ≠ peeledRef ref

variable {remote : Remote} {ref tag : List Char} {r s : Ref} {p : List Char × List Char}
  {line : List Char} {lines : List (List Char)}

theorem caret_mem_peeledRef (ref : List Char) : '^' ∈ peeledRef ref :=
  List.mem_append_right _ (by decide)

theorem peeledRef_inj {ref ref' : List Char} : peeledRef ref = peeledRef ref' ↔ ref = ref' :=
  List.append_left_inj _

theorem isWord_peeledRef (h : IsWord ref) : IsWord (peeledRef ref) := by
  refine ⟨List.append_ne_nil_of_left_ne_nil h.1 _, fun c hc ↦ ?_⟩
  rcases List.mem_append.1 hc with hc | hc
  · exact h.2 c hc
  · have hsuffix : ∀ c ∈ "^\x7b\x7d".toList, isSpace c = false := by decide
    exact hsuffix c hc

theorem mem_advertised : p ∈ remote.advertised ↔ ∃ r ∈ remote.refs,
    p = (r.object, r.name) ∨ ∃ rev ∈ r.peeled, p = (rev, peeledRef r.name) := by
  simp only [Remote.advertised, Ref.advertised, List.mem_flatMap, List.mem_cons, List.mem_map,
    Option.mem_toList, Option.mem_def, eq_comm (a := p)]

theorem isWord_of_mem_advertised (h : p ∈ remote.advertised) : IsWord p.1 ∧ IsWord p.2 := by
  obtain ⟨r, hr, rfl | ⟨rev, hrev, rfl⟩⟩ := mem_advertised.1 h
  · exact ⟨remote.isWord_object r hr, remote.isWord_name r hr⟩
  · exact ⟨remote.isWord_peeled r hr rev hrev, isWord_peeledRef (remote.isWord_name r hr)⟩

/-- Refs are told apart by their names. -/
theorem eq_of_name_eq (hr : r ∈ remote.refs) (hs : s ∈ remote.refs) (h : r.name = s.name) :
    r = s :=
  List.inj_on_of_nodup_map remote.nodup hr hs h

theorem mem_advertised_object (hr : r ∈ remote.refs) (hname : r.name = ref) :
    (r.object, ref) ∈ remote.advertised :=
  mem_advertised.2 ⟨r, hr, Or.inl (hname ▸ rfl)⟩

theorem mem_advertised_peeled (hr : r ∈ remote.refs) (hname : r.name = ref) {rev : List Char}
    (hrev : r.peeled = some rev) : (rev, peeledRef ref) ∈ remote.advertised :=
  mem_advertised.2 ⟨r, hr, Or.inr ⟨rev, hrev, hname ▸ rfl⟩⟩

/-- What is advertised under the name of a ref is its object. -/
theorem object_of_advertised (hcaret : '^' ∉ ref) (h : p ∈ remote.advertised) (hp : p.2 = ref) :
    ∃ r ∈ remote.refs, r.name = ref ∧ p.1 = r.object := by
  obtain ⟨r, hr, rfl | ⟨rev, -, rfl⟩⟩ := mem_advertised.1 h
  · exact ⟨r, hr, hp, rfl⟩
  · exact absurd (hp ▸ caret_mem_peeledRef r.name) hcaret

/-- What is advertised under its name with the suffix is what it is peeled to. -/
theorem peeled_of_advertised (h : p ∈ remote.advertised) (hp : p.2 = peeledRef ref) :
    ∃ r ∈ remote.refs, r.name = ref ∧ r.peeled = some p.1 := by
  obtain ⟨r, hr, rfl | ⟨rev, hrev, rfl⟩⟩ := mem_advertised.1 h
  · have hname : r.name = peeledRef ref := hp
    exact absurd (hname ▸ caret_mem_peeledRef ref) (remote.caret_not_mem r hr)
  · exact ⟨r, hr, peeledRef_inj.1 hp, hrev⟩

/-- Names are unique, so only the ref's object is advertised under its name. -/
theorem object_eq (hcaret : '^' ∉ ref) (hr : r ∈ remote.refs) (hname : r.name = ref)
    (h : p ∈ remote.advertised) (hp : p.2 = ref) : some r.object = some p.1 := by
  obtain ⟨s, hs, hsname, hrev⟩ := object_of_advertised hcaret h hp
  rw [hrev, eq_of_name_eq hs hr (hsname.trans hname.symm)]

/-- Only what the ref is peeled to is advertised under its name with the suffix. -/
theorem peeled_eq (hr : r ∈ remote.refs) (hname : r.name = ref) (h : p ∈ remote.advertised)
    (hp : p.2 = peeledRef ref) : r.peeled = some p.1 := by
  obtain ⟨s, hs, hsname, hrev⟩ := peeled_of_advertised h hp
  rw [← hrev, eq_of_name_eq hs hr (hsname.trans hname.symm)]

/-- Nothing is advertised for a ref that is not there. -/
theorem ne_of_advertised (hcaret : '^' ∉ ref) (hnone : ∀ r ∈ remote.refs, r.name ≠ ref)
    (h : p ∈ remote.advertised) : p.2 ≠ ref ∧ p.2 ≠ peeledRef ref := by
  constructor
  · intro hp
    obtain ⟨s, hs, hsname, -⟩ := object_of_advertised hcaret h hp
    exact hnone s hs hsname
  · intro hp
    obtain ⟨s, hs, hsname, -⟩ := peeled_of_advertised h hp
    exact hnone s hs hsname

/-- The commit of a ref that is there. -/
theorem commitOf_eq_some (hr : r ∈ remote.refs) (hname : r.name = ref) :
    remote.commitOf ref = some r.commit := by
  have hfind : remote.refs.find? (fun s ↦ s.name = ref) = some r := by
    rcases hfind : remote.refs.find? (fun s ↦ s.name = ref) with _ | s
    · have hne : r.name ≠ ref := by simpa using List.find?_eq_none.1 hfind r hr
      exact absurd hname hne
    · have hsame : s.name = ref := by simpa using List.find?_some hfind
      exact hfind.trans (congrArg some
        (eq_of_name_eq (List.mem_of_find?_eq_some hfind) hr (hsame.trans hname.symm)))
  rw [Remote.commitOf, hfind]
  rfl

/-- A ref that is not there has no commit. -/
theorem commitOf_eq_none (h : ∀ r ∈ remote.refs, r.name ≠ ref) : remote.commitOf ref = none := by
  rw [Remote.commitOf, List.find?_eq_none.2 fun r hr ↦ by simpa using h r hr]
  rfl

/-! ### Reading what is printed -/

theorem words_refLine (h : p ∈ remote.advertised) : words (refLine p) = [p.1, p.2] :=
  words_append (isWord_of_mem_advertised h).1 (by decide) (isWord_of_mem_advertised h).2

/-- An advertised ref is read back. -/
theorem readRef_refLine (h : p ∈ remote.advertised) : readRef (refLine p) = .ok p := by
  rw [readRef, words_refLine h]

theorem isLineBreak_refLine (h : p ∈ remote.advertised) :
    ∀ c ∈ refLine p, isLineBreak c = false := by
  intro c hc
  obtain ⟨hrev, hname⟩ := isWord_of_mem_advertised h
  rcases List.mem_append.1 hc with hc | hc
  · exact isLineBreak_of_not_isSpace (hrev.2 c hc)
  · rcases List.mem_cons.1 hc with rfl | hc
    · decide
    · exact isLineBreak_of_not_isSpace (hname.2 c hc)

/-- Every line is read as a revision and a ref, which is not asked for unless the remote has it. -/
theorem Answers.readRef (h : Answers remote ref (IsWarning ref) lines) (hline : line ∈ lines) :
    ∃ p, readRef line = .ok p ∧ (p.2 = ref ∨ p.2 = peeledRef ref → p ∈ remote.advertised) := by
  rcases h.sound line hline with ⟨p, hp, rfl⟩ | ⟨-, word, word', rest, hwords, hne, hne'⟩
  · exact ⟨p, readRef_refLine hp, fun _ ↦ hp⟩
  · refine ⟨(word, word'), by rw [TheRock.readRef, hwords], fun hasked ↦ ?_⟩
    exact absurd hasked (not_or_intro hne hne')

/-- The lines of the answer are read back, and none of them is blank. -/
theorem Answers.splitlines (h : Answers remote ref (IsWarning ref) lines) :
    (splitlines (universalNewlines (unlines lines))).filter (fun line ↦ !line.all isSpace) =
      lines := by
  have hbreaks : ∀ line ∈ lines, ∀ c ∈ line, isLineBreak c = false := by
    intro line hline
    rcases h.sound line hline with ⟨p, hp, rfl⟩ | hwarning
    · exact isLineBreak_refLine hp
    · exact hwarning.1
  rw [splitlines_universalNewlines, splitlines_unlines hbreaks, List.filter_eq_self]
  intro line hline
  by_contra hblank
  obtain ⟨p, hp, -⟩ := h.readRef hline
  rw [TheRock.readRef, words_of_all (by simpa using hblank)] at hp
  cases hp

/-- A ref that no line is for is not found. -/
theorem findRef_eq_none (h : ∀ line ∈ lines, ∃ p, readRef line = .ok p ∧ p.2 ≠ ref) :
    findRef ref lines = .ok none := by
  induction lines with
  | nil => rfl
  | cons line lines ih =>
    obtain ⟨⟨p, hp, hne⟩, hlines⟩ := List.forall_mem_cons.1 h
    rw [findRef, hp, Result.ok_bind]
    dsimp only
    rw [if_neg hne, ih hlines]

/-- A ref is found if the lines for it agree on its revision. -/
theorem findRef_eq_some {rev : List Char}
    (h : ∀ line ∈ lines, ∃ p, readRef line = .ok p ∧ (p.2 = ref → p.1 = rev))
    (hmem : ∃ line ∈ lines, readRef line = .ok (rev, ref)) :
    findRef ref lines = .ok (some rev) := by
  induction lines with
  | nil =>
    obtain ⟨_, hmem, -⟩ := hmem
    cases hmem
  | cons line lines ih =>
    obtain ⟨⟨p, hp, hrev⟩, hlines⟩ := List.forall_mem_cons.1 h
    rw [findRef, hp, Result.ok_bind]
    dsimp only
    split
    next heq => rw [hrev heq]
    next hne =>
      obtain ⟨line', hline', hread⟩ := hmem
      rcases List.mem_cons.1 hline' with rfl | hline'
      · obtain rfl := Except.ok.inj (hp.symm.trans hread)
        exact absurd rfl hne
      · exact ih hlines ⟨line', hline', hread⟩

/-- What is asked for is found with the revision that all lines for it agree on. -/
theorem Answers.findRef_eq (h : Answers remote ref (IsWarning ref) lines) {name : List Char}
    (hname : name = ref ∨ name = peeledRef ref) {rev : Option (List Char)}
    (hrev : ∀ q ∈ remote.advertised, q.2 = name → rev = some q.1)
    (hsome : ∀ r ∈ rev, (r, name) ∈ remote.advertised) : findRef name lines = .ok rev := by
  have hread : ∀ line ∈ lines,
      ∃ p, TheRock.readRef line = .ok p ∧ (p.2 = name → rev = some p.1) := by
    intro line hline
    obtain ⟨p, hp, hmem⟩ := h.readRef hline
    refine ⟨p, hp, fun heq ↦ hrev p (hmem ?_) heq⟩
    rw [heq]
    exact hname
  rcases rev with _ | rev
  · refine findRef_eq_none fun line hline ↦ ?_
    obtain ⟨p, hp, hrev⟩ := hread line hline
    exact ⟨p, hp, fun heq ↦ (Option.some_ne_none _ (hrev heq).symm).elim⟩
  · have hadvertised := hsome rev rfl
    refine findRef_eq_some (fun line hline ↦ ?_)
      ⟨_, h.complete _ hadvertised hname, readRef_refLine hadvertised⟩
    obtain ⟨p, hp, hrev⟩ := hread line hline
    exact ⟨p, hp, fun heq ↦ (Option.some.inj (hrev heq)).symm⟩

/-- **`git_rev` finds the commit of the ref** of exactly this name. -/
theorem toOption_gitRev (hcaret : '^' ∉ ref) (h : Answers remote ref (IsWarning ref) lines) :
    (gitRev (unlines lines) ref).toOption = remote.commitOf ref := by
  rw [gitRev, h.splitlines]
  by_cases href : ∃ r ∈ remote.refs, r.name = ref
  · obtain ⟨r, hr, hname⟩ := href
    have hadvertised := mem_advertised_object hr hname
    have hline := h.complete _ hadvertised (Or.inl rfl)
    have hplain : findRef ref lines = .ok (some r.object) := by
      refine h.findRef_eq (Or.inl rfl) (fun q hq ↦ object_eq hcaret hr hname hq) ?_
      rintro _ ⟨⟩
      exact hadvertised
    -- a tag object is listed once more with what it points at
    have hpeeled : findRef (peeledRef ref) lines = .ok r.peeled :=
      h.findRef_eq (Or.inr rfl) (fun q hq ↦ peeled_eq hr hname hq)
        fun rev hrev ↦ mem_advertised_peeled hr hname hrev
    rw [if_neg (List.ne_nil_of_mem hline), hpeeled, hplain, commitOf_eq_some hr hname, Ref.commit]
    rcases r.peeled with _ | rev
    · rfl
    · rfl
  · have hnone : ∀ r ∈ remote.refs, r.name ≠ ref := fun r hr heq ↦ href ⟨r, hr, heq⟩
    have hplain : findRef ref lines = .ok none :=
      h.findRef_eq (Or.inl rfl) (fun q hq heq ↦ absurd heq (ne_of_advertised hcaret hnone hq).1)
        nofun
    have hpeeled : findRef (peeledRef ref) lines = .ok none :=
      h.findRef_eq (Or.inr rfl) (fun q hq heq ↦ absurd heq (ne_of_advertised hcaret hnone hq).2)
        nofun
    rw [commitOf_eq_none hnone, hpeeled, hplain]
    split
    · rfl
    · rfl

/-! ### Tags -/

theorem readTag_refLine (h : p ∈ remote.advertised) : readTag (refLine p) = .ok (p.2, p.1) := by
  obtain ⟨hrev, hname⟩ := isWord_of_mem_advertised h
  rw [readTag, refLine, splitOnce_append_of_isSpace hrev.1 hrev.2 (by decide) hname.startsWord]

/-- The pairs that the lines of refs are read as. -/
theorem exists_mapM_readTag (h : Answers remote ref (fun _ ↦ False) lines) :
    ∃ pairs, lines.mapM readTag = .ok pairs ∧
      ∀ p, p ∈ pairs ↔ ∃ q ∈ remote.advertised, refLine q ∈ lines ∧ p = (q.2, q.1) := by
  have hread : ∀ line ∈ lines, ∃ q ∈ remote.advertised, line = refLine q := fun line hline ↦
    (h.sound line hline).resolve_right id
  obtain ⟨pairs, hpairs⟩ : ∃ pairs, lines.mapM readTag = .ok pairs := by
    refine Result.exists_mapM_eq_ok fun line hline ↦ ?_
    obtain ⟨q, hq, rfl⟩ := hread line hline
    exact ⟨_, readTag_refLine hq⟩
  refine ⟨pairs, hpairs, fun p ↦ ⟨fun hp ↦ ?_, ?_⟩⟩
  · obtain ⟨line, hline, hp⟩ := Result.mem_of_mapM_eq_ok hpairs hp
    obtain ⟨q, hq, rfl⟩ := hread line hline
    exact ⟨q, hq, hline, Except.ok.inj (hp.symm.trans (readTag_refLine hq))⟩
  · rintro ⟨q, hq, hline, rfl⟩
    obtain ⟨p, hp, hread⟩ := Result.exists_mem_of_mapM_eq_ok hpairs hline
    exact Except.ok.inj (hread.symm.trans (readTag_refLine hq)) ▸ hp

/-- A key of the dictionary has the revision that all lines for it agree on. -/
theorem get?_revs {pairs : List (List Char × List Char)} {name : List Char}
    (hpairs : ∀ p, p ∈ pairs ↔ ∃ q ∈ remote.advertised, refLine q ∈ lines ∧ p = (q.2, q.1))
    (hcomplete : ∀ q ∈ remote.advertised, q.2 = name → refLine q ∈ lines) {rev : Option (List Char)}
    (hrev : ∀ q ∈ remote.advertised, q.2 = name → rev = some q.1)
    (hsome : ∀ r ∈ rev, (r, name) ∈ remote.advertised) :
    OrderedDict.get? (OrderedDict.ofPairs pairs) name = rev := by
  rcases rev with _ | rev
  · rcases hget : OrderedDict.get? (OrderedDict.ofPairs pairs) name with _ | rev
    · rfl
    · have hmem := OrderedDict.mem_ofPairs (OrderedDict.mem_of_get? hget)
      obtain ⟨q, hq, -, heq⟩ := (hpairs _).1 hmem
      exact absurd (hrev q hq (Prod.mk.inj heq).1.symm) (Option.some_ne_none _).symm
  · refine OrderedDict.get?_ofPairs (fun b hb ↦ ?_) ((hpairs _).2 ⟨_, hsome rev rfl, ?_, rfl⟩)
    · obtain ⟨q, hq, -, heq⟩ := (hpairs _).1 hb
      obtain ⟨hname, rfl⟩ := Prod.mk.inj heq
      exact (Option.some.inj (hrev q hq hname.symm)).symm
    · exact hcomplete _ (hsome rev rfl) rfl

/-- **`ls_remote_peeled_tag` finds the commit of the tag.** -/
theorem toOption_lsRemotePeeledTag (hcaret : '^' ∉ tag)
    (h : Answers remote (tagRef tag) (fun _ ↦ False) lines) :
    (lsRemotePeeledTag (unlines lines) tag).toOption = remote.commitOf (tagRef tag) := by
  have hcaret' : '^' ∉ tagRef tag := fun hmem ↦
    (List.mem_append.1 hmem).elim (fun hprefix ↦ absurd hprefix (by decide)) hcaret
  have hlines : (splitlines (universalNewlines (unlines lines))).filter (· ≠ []) = lines := by
    have hbreaks : ∀ line ∈ lines, ∀ c ∈ line, isLineBreak c = false := by
      intro line hline
      obtain ⟨q, hq, rfl⟩ := (h.sound line hline).resolve_right id
      exact isLineBreak_refLine hq
    rw [splitlines_universalNewlines, splitlines_unlines hbreaks, List.filter_eq_self]
    intro line hline
    obtain ⟨q, -, rfl⟩ := (h.sound line hline).resolve_right id
    simp [refLine]
  obtain ⟨pairs, hmap, hpairs⟩ := exists_mapM_readTag h
  rw [lsRemotePeeledTag, hlines, hmap, Result.ok_bind]
  dsimp only
  by_cases href : ∃ r ∈ remote.refs, r.name = tagRef tag
  · obtain ⟨r, hr, hname⟩ := href
    have hplain : OrderedDict.get? (OrderedDict.ofPairs pairs) (tagRef tag) = some r.object := by
      refine get?_revs hpairs (fun q hq heq ↦ h.complete q hq (Or.inl heq))
        (fun q hq ↦ object_eq hcaret' hr hname hq) ?_
      rintro _ ⟨⟩
      exact mem_advertised_object hr hname
    have hpeeled : OrderedDict.get? (OrderedDict.ofPairs pairs) (peeledRef (tagRef tag)) =
        r.peeled :=
      get?_revs hpairs (fun q hq heq ↦ h.complete q hq (Or.inr heq))
        (fun q hq ↦ peeled_eq hr hname hq) fun rev hrev ↦ mem_advertised_peeled hr hname hrev
    rw [hplain, hpeeled, commitOf_eq_some hr hname]
    rfl
  · have hnone : ∀ r ∈ remote.refs, r.name ≠ tagRef tag := fun r hr heq ↦ href ⟨r, hr, heq⟩
    have hplain : OrderedDict.get? (OrderedDict.ofPairs pairs) (tagRef tag) = none :=
      get?_revs hpairs (fun q hq heq ↦ h.complete q hq (Or.inl heq))
        (fun q hq heq ↦ absurd heq (ne_of_advertised hcaret' hnone hq).1) nofun
    rw [hplain, commitOf_eq_none hnone]
    rfl

/-- **The scripts agree**: each finds the commit of the ref of exactly this name, the commit behind
an annotated tag, and fails if there is none. Only `git_rev` reads warnings with the output. -/
theorem resolvers_agree (hcaret : '^' ∉ ref) (h : Answers remote ref (IsWarning ref) lines) :
    (gitRev (unlines lines) ref).toOption = remote.commitOf ref ∧
      ∀ tag lines', ref = tagRef tag → Answers remote ref (fun _ ↦ False) lines' →
        (lsRemotePeeledTag (unlines lines') tag).toOption = remote.commitOf ref := by
  refine ⟨toOption_gitRev hcaret h, ?_⟩
  rintro tag lines' rfl h'
  exact toOption_lsRemotePeeledTag (fun hmem ↦ hcaret (List.mem_append_right _ hmem)) h'

/-- A branch, an annotated tag and a branch whose path ends with that of the tag. -/
def taggedRemote : Remote where
  refs := [⟨"refs/heads/main".toList, "a1".toList, none⟩,
    ⟨"refs/heads/refs/tags/v1".toList, "b2".toList, none⟩,
    ⟨"refs/tags/v1".toList, "c3".toList, some "d4".toList⟩]
  nodup := by decide
  isWord_name := by unfold IsWord; decide
  caret_not_mem := by decide
  isWord_object := by unfold IsWord; decide
  isWord_peeled := by unfold IsWord; decide

def taggedLines : List (List Char) :=
  ["b2\trefs/heads/refs/tags/v1".toList, "c3\trefs/tags/v1".toList,
    "d4\trefs/tags/v1^\x7b\x7d".toList]

def redirectWarning : List Char := "warning: redirecting to https://github.com/ROCm/".toList

theorem answers_taggedLines : Answers taggedRemote (tagRef "v1".toList) (fun _ ↦ False) taggedLines
    where
  sound line hline := Or.inl (by revert line; decide)
  complete := by decide

theorem answers_redirectWarning : Answers taggedRemote (tagRef "v1".toList)
    (IsWarning (tagRef "v1".toList)) (redirectWarning :: taggedLines) where
  sound line hline := by
    rcases List.mem_cons.1 hline with rfl | hline
    · exact Or.inr ⟨by decide, "warning:".toList, "redirecting".toList, _, rfl, by decide,
        by decide⟩
    · exact (answers_taggedLines.sound line hline).imp_right False.elim
  complete p hp hasked := List.mem_cons_of_mem _ (answers_taggedLines.complete p hp hasked)

theorem resolvers_agree_taggedRemote :
    (gitRev (unlines (redirectWarning :: taggedLines)) (tagRef "v1".toList)).toOption =
        some "d4".toList ∧
      (lsRemotePeeledTag (unlines taggedLines) "v1".toList).toOption = some "d4".toList := by
  obtain ⟨hrev, htag⟩ := resolvers_agree (by decide) answers_redirectWarning
  exact ⟨hrev, htag _ _ rfl answers_taggedLines⟩

end TheRock
