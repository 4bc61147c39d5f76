import Mathlib.Data.List.Infix
import Mathlib.Data.List.Nodup
import NixStrixHalo.Library.OrderedDict

/-!
# File trees

A file tree lists the nodes it has by their paths, which are lists of components. The operations are
those of `mkdir -p`, `rm -rf` and `cp -a source/. destination/`; the first and the last fail where a
file is in the way of a directory, or a directory in the way of a file. Each has a lemma that gives
the node at every path afterwards (`exists_mkdirP`, `lookup_rmRf`, `exists_copyInto`).

## Mounts

A mount puts a source tree in the place of whatever its path holds. After a sequence of mounts a
file is that of the last mount above it (`exists_installAll`), which is the deepest one when deeper
mounts come later (`exists_isOverlay`).

## When nothing is in the way

A mount fails only where a file is at or above its path. Whether there is one depends on the mounts
before it, and on no more than the last of those that are above the path, which is what the
hypotheses of these results are about.
-/

namespace FileTree

/-- A node: a directory, or a file with its content. -/
inductive Node (α : Type*)
  | dir
  | file (content : α)
  deriving DecidableEq

/-- The nodes of a tree by path. -/
abbrev Tree (κ α : Type*) := List (List κ × Node α)

variable {κ α : Type*} [DecidableEq κ] {t source : Tree κ α} {p q x : List κ} {a : α}

/-- The node at a path. -/
def lookup (t : Tree κ α) (p : List κ) : Option (Node α) := OrderedDict.get? t p

/-- There is a file with this content at this path. -/
def HasFile (t : Tree κ α) (p : List κ) (a : α) : Prop := lookup t p = some (.file a)

/-- No file is at the path or above it. -/
def NoFileAbove (t : Tree κ α) (p : List κ) : Prop := ∀ q, q <+: p → ∀ a, ¬ HasFile t q a

/-- The first tree hides the second one. -/
theorem lookup_append (t t' : Tree κ α) (p : List κ) :
    lookup (t ++ t') p = (lookup t p).or (lookup t' p) :=
  OrderedDict.get?_append t t' p

/-- An entry hides what is behind it. -/
theorem lookup_cons (e : List κ × Node α) (t : Tree κ α) (p : List κ) :
    lookup (e :: t) p = if e.1 = p then some e.2 else lookup t p :=
  OrderedDict.get?_cons e t p

/-! ### `mkdir -p` -/

/-- Whether a node is a file. -/
def isFile : Option (Node α) → Bool
  | some (.file _) => true
  | _ => false

/-- `mkdir -p`: make the path and everything above it directories. -/
def mkdirP (p : List κ) (t : Tree κ α) : Option (Tree κ α) :=
  if p.inits.any fun q ↦ isFile (lookup t q) then none
  else some (p.inits.map (fun q ↦ (q, .dir)) ++ t)

/-- A file is neither a directory nor nothing. -/
theorem isFile_iff {n : Option (Node α)} : isFile n ↔ ∃ a, n = some (.file a) := by
  rcases n with _ | _ | a
  · simp [isFile]
  · simp [isFile]
  · simp [isFile]

/-- A list of directories has each of them, and nothing else. -/
theorem lookup_map_dir (l : List (List κ)) :
    lookup (l.map fun q ↦ (q, (.dir : Node α))) x = if x ∈ l then some .dir else none := by
  induction l with
  | nil => rfl
  | cons q l ih =>
    rw [List.map_cons, lookup_cons, ih]
    by_cases hq : q = x
    · rw [if_pos hq, if_pos (List.mem_cons.2 (Or.inl hq.symm))]
    · have hmem : x ∈ q :: l ↔ x ∈ l := by
        rw [List.mem_cons, or_iff_right (Ne.symm hq)]
      rw [if_neg hq, if_congr hmem rfl rfl]

/-- `mkdir -p` makes the directories above a path and keeps the rest, unless there is a file among
them. -/
theorem exists_mkdirP (h : NoFileAbove t p) : ∃ t', mkdirP p t = some t' ∧
    ∀ x, lookup t' x = if x <+: p then some .dir else lookup t x := by
  refine ⟨_, if_neg ?_, fun x ↦ ?_⟩
  · rw [List.any_eq_true]
    rintro ⟨q, hq, hfile⟩
    obtain ⟨a, ha⟩ := isFile_iff.1 hfile
    exact h q ((List.mem_inits _ _).1 hq) a ha
  · rw [lookup_append, lookup_map_dir, if_congr (List.mem_inits x p) rfl rfl]
    split
    · rfl
    · rfl

/-! ### `rm -rf` -/

/-- `rm -rf`: remove the path and everything below it. -/
def rmRf (p : List κ) (t : Tree κ α) : Tree κ α := t.filter fun e ↦ ¬ p <+: e.1

/-- `rm -rf` removes what is below a path, and nothing else. -/
theorem lookup_rmRf (p : List κ) (t : Tree κ α) (x : List κ) :
    lookup (rmRf p t) x = if p <+: x then none else lookup t x := by
  induction t with
  | nil => exact (ite_self none).symm
  | cons e t ih =>
    rw [rmRf, List.filter_cons]
    by_cases he : p <+: e.1
    · rw [if_neg (by simpa using he), ← rmRf, ih, lookup_cons]
      by_cases hex : e.1 = x
      · rw [if_pos (hex ▸ he), if_pos (hex ▸ he)]
      · rw [if_neg hex]
    · rw [if_pos (by simpa using he), ← rmRf, lookup_cons, lookup_cons, ih]
      by_cases hex : e.1 = x
      · rw [if_pos hex, if_neg (hex ▸ he), if_pos hex]
      · rw [if_neg hex, if_neg hex]

/-! ### `cp -a` -/

/-- A directory and a file cannot replace each other. -/
def conflicts : Option (Node α) → Node α → Bool
  | some .dir, .file _ => true
  | some (.file _), .dir => true
  | _, _ => false

/-- `cp -a source/. destination/`. -/
def copyInto (source : Tree κ α) (p : List κ) (t : Tree κ α) : Option (Tree κ α) :=
  if source.any fun e ↦ conflicts (lookup t (p ++ e.1)) e.2 then none
  else some (source.map (fun e ↦ (p ++ e.1, e.2)) ++ t)

/-- A tree that is put at a path is found below it. -/
theorem lookup_map_append (source : Tree κ α) (p x : List κ) :
    lookup (source.map fun e ↦ (p ++ e.1, e.2)) x =
      if p <+: x then lookup source (x.drop p.length) else none := by
  induction source with
  | nil => exact (ite_self none).symm
  | cons e source ih =>
    rw [List.map_cons, lookup_cons, ih, lookup_cons]
    by_cases hp : p <+: x
    · obtain ⟨y, rfl⟩ := hp
      simp
    · rw [if_neg fun heq ↦ hp ⟨e.1, heq⟩, if_neg hp, if_neg hp]

/-- The root of a source is a directory. -/
def RootIsDir (source : Tree κ α) : Prop := ∀ e ∈ source, e.1 = [] → e.2 = .dir

/-- Copying into an empty directory gives it the files of the source, and no other. -/
theorem exists_copyInto (hroot : RootIsDir source)
    (h : ∀ x, p <+: x → lookup t x = if x = p then some .dir else none) :
    ∃ t', copyInto source p t = some t' ∧ ∀ x a, HasFile t' x a ↔
      if p <+: x then HasFile source (x.drop p.length) a else HasFile t x a := by
  refine ⟨_, if_neg ?_, fun x a ↦ ?_⟩
  · rw [List.any_eq_true]
    rintro ⟨e, he, hconflict⟩
    rw [h _ (List.prefix_append p e.1)] at hconflict
    split at hconflict
    next heq =>
      rw [hroot e he (by simpa using heq)] at hconflict
      cases hconflict
    · cases hconflict
  · rw [HasFile, lookup_append, lookup_map_append]
    split
    next hx =>
      rw [h x hx, HasFile]
      rcases lookup source (x.drop p.length) with _ | n
      · rw [Option.none_or]
        split
        · simp
        · simp
      · rfl
    · rfl

/-! ### Mounts -/

/-- A source tree and where it goes. -/
structure Mount (κ α : Type*) where
  path : List κ
  source : Tree κ α

/-- Put the source of a mount in the place of what its path holds. -/
def Mount.install (m : Mount κ α) (t : Tree κ α) : Option (Tree κ α) := do
  let t ← mkdirP m.path.dropLast t
  let t ← mkdirP m.path (rmRf m.path t)
  copyInto m.source m.path t

/-- The files that the sources of these mounts have, below the paths of the mounts. -/
def Mount.HasFile (m : Mount κ α) (x : List κ) (a : α) : Prop :=
  FileTree.HasFile m.source (x.drop m.path.length) a

variable {m root : Mount κ α} {mounts : List (Mount κ α)}

omit [DecidableEq κ] in
/-- A path above another one is above or at its parent. -/
theorem prefix_dropLast {p q : List κ} (h : q <+: p) (hne : q ≠ p) : q <+: p.dropLast := by
  obtain ⟨r, rfl⟩ := h
  have hr : r ≠ [] := fun hnil ↦ hne (by rw [hnil, List.append_nil])
  rw [List.dropLast_append_of_ne_nil hr]
  exact List.prefix_append q r.dropLast

/-- Below its path a mount gives the files of its source, and elsewhere it changes no file. -/
theorem Mount.exists_install (hroot : RootIsDir m.source) (h : NoFileAbove t m.path.dropLast) :
    ∃ t', m.install t = some t' ∧ ∀ x a, FileTree.HasFile t' x a ↔
      if m.path <+: x then m.HasFile x a else FileTree.HasFile t x a := by
  obtain ⟨t₁, ht₁, hlookup₁⟩ := exists_mkdirP h
  have hfile₁ : ∀ x a, FileTree.HasFile t₁ x a ↔ FileTree.HasFile t x a := by
    intro x a
    rw [FileTree.HasFile, hlookup₁]
    split
    next hx => exact iff_of_false (fun heq ↦ by cases heq) (h x hx a)
    · rfl
  -- removing the path takes away the only file that can be in the way the second time
  have h₂ : NoFileAbove (rmRf m.path t₁) m.path := by
    intro q hq a hfile
    rw [FileTree.HasFile, lookup_rmRf] at hfile
    split at hfile
    · cases hfile
    next hpq =>
      have hne : q ≠ m.path := fun heq ↦ hpq (heq ▸ List.prefix_rfl)
      exact h q (prefix_dropLast hq hne) a ((hfile₁ q a).1 hfile)
  obtain ⟨t₃, ht₃, hlookup₃⟩ := exists_mkdirP h₂
  have hbelow : ∀ x, m.path <+: x → lookup t₃ x = if x = m.path then some .dir else none := by
    intro x hx
    rw [hlookup₃, lookup_rmRf, if_pos hx]
    refine if_congr ⟨fun hxp ↦ ?_, fun heq ↦ heq ▸ List.prefix_rfl⟩ rfl rfl
    exact hxp.eq_of_length_le hx.length_le
  obtain ⟨t₄, ht₄, hfile₄⟩ := exists_copyInto hroot hbelow
  refine ⟨t₄, ?_, fun x a ↦ ?_⟩
  · rw [install, ht₁, Option.bind_eq_bind, Option.bind_some, ht₃, Option.bind_some, ht₄]
  · rw [hfile₄, Mount.HasFile]
    split
    · rfl
    next hx =>
      rw [FileTree.HasFile, hlookup₃, lookup_rmRf, if_neg hx]
      split
      next hxp =>
        have hne : x ≠ m.path := fun heq ↦ hx (heq ▸ List.prefix_rfl)
        exact iff_of_false (fun heq ↦ by cases heq) (h x (prefix_dropLast hxp hne) a)
      · exact hfile₁ x a

/-- The last of the mounts above a path. -/
def lastAbove (root : Mount κ α) (mounts : List (Mount κ α)) (x : List κ) : Mount κ α :=
  mounts.foldl (fun o m ↦ if m.path <+: x then m else o) root

/-- The last mount above a path is looked for mount after mount. -/
theorem lastAbove_append (root : Mount κ α) (mounts mounts' : List (Mount κ α)) (x : List κ) :
    lastAbove root (mounts ++ mounts') x = lastAbove (lastAbove root mounts x) mounts' x :=
  List.foldl_append

/-- The last mount above a path is the root or one that is above it. -/
theorem lastAbove_mem (root : Mount κ α) (mounts : List (Mount κ α)) (x : List κ) :
    lastAbove root mounts x = root ∨
      lastAbove root mounts x ∈ mounts ∧ (lastAbove root mounts x).path <+: x := by
  induction mounts generalizing root with
  | nil => exact Or.inl rfl
  | cons m mounts ih =>
    rw [lastAbove, List.foldl_cons, ← lastAbove]
    split
    next hm =>
      rcases ih m with heq | hmem
      · exact Or.inr (by rw [heq]; exact ⟨List.mem_cons_self, hm⟩)
      · exact Or.inr (hmem.imp_left (List.mem_cons_of_mem m))
    · exact (ih root).imp_right fun hmem ↦ hmem.imp_left (List.mem_cons_of_mem m)

/-- Where no mount comes before one that is above it, the last mount above a path is as deep as any
other. -/
theorem length_le_lastAbove (hsorted : (root :: mounts).Pairwise fun m m' ↦
    m.path.length ≤ m'.path.length) {x : List κ} (hm : m ∈ root :: mounts) (hx : m.path <+: x) :
    m.path.length ≤ (lastAbove root mounts x).path.length := by
  induction mounts generalizing root m with
  | nil => rw [List.mem_singleton.1 hm]; rfl
  | cons m' mounts ih =>
    obtain ⟨hroot, hsorted'⟩ := List.pairwise_cons.1 hsorted
    obtain ⟨hm', hrest⟩ := List.pairwise_cons.1 hsorted'
    rw [lastAbove, List.foldl_cons, ← lastAbove]
    split
    next hm'x =>
      rcases List.mem_cons.1 hm with rfl | hm
      · exact (hroot m' List.mem_cons_self).trans (ih hsorted' List.mem_cons_self hm'x)
      · exact ih hsorted' hm hx
    next hm'x =>
      have hskip : (root :: mounts).Pairwise fun m m' ↦ m.path.length ≤ m'.path.length :=
        List.pairwise_cons.2 ⟨fun b hb ↦ hroot b (List.mem_cons_of_mem m' hb), hrest⟩
      refine ih hskip ?_ hx
      rcases List.mem_cons.1 hm with rfl | hm
      · exact List.mem_cons_self
      · refine (List.mem_cons.1 hm).elim (fun heq ↦ absurd (heq ▸ hx) hm'x) fun hmem ↦ ?_
        exact List.mem_cons_of_mem root hmem

/-- The mounts one after the other. -/
def installAll (mounts : List (Mount κ α)) (t : Tree κ α) : Option (Tree κ α) :=
  mounts.foldlM (fun t m ↦ m.install t) t

/-- If above each mount there is no file of the mounts before it, all of them succeed, and every
file is that of the last mount above it. -/
theorem exists_installAll (hdir : ∀ m ∈ mounts, RootIsDir m.source)
    (hclear : ∀ before m after, mounts = before ++ m :: after → ∀ q, q <+: m.path.dropLast →
      ∀ a, ¬ (lastAbove root before q).HasFile q a)
    (ht : ∀ x a, HasFile t x a ↔ root.HasFile x a) : ∃ t', installAll mounts t = some t' ∧
      ∀ x a, HasFile t' x a ↔ (lastAbove root mounts x).HasFile x a := by
  induction mounts using List.reverseRecOn with
  | nil => exact ⟨t, rfl, ht⟩
  | append_singleton before m ih =>
    obtain ⟨t₁, ht₁, hfile₁⟩ := ih (fun m' hm' ↦ hdir m' (List.mem_append_left _ hm'))
      fun before' m' after heq ↦ hclear before' m' (after ++ [m]) (by rw [heq]; simp)
    have habove : NoFileAbove t₁ m.path.dropLast := fun q hq a hfile ↦
      hclear before m [] rfl q hq a ((hfile₁ q a).1 hfile)
    obtain ⟨t₂, ht₂, hfile₂⟩ := Mount.exists_install (hdir m (by simp)) habove
    refine ⟨t₂, ?_, fun x a ↦ ?_⟩
    · rw [installAll, List.foldlM_append, ← installAll, ht₁]
      simp [ht₂]
    · rw [hfile₂, lastAbove_append, lastAbove, List.foldl_cons, List.foldl_nil]
      split
      · rfl
      · exact hfile₁ x a

/-! ### Overlays -/

/-- The mount above the path that no other mount above it is below. -/
structure IsDeepest (root : Mount κ α) (mounts : List (Mount κ α)) (x : List κ) (m : Mount κ α) :
    Prop where
  mem : m ∈ root :: mounts
  above : m.path <+: x
  length_le : ∀ m' ∈ root :: mounts, m'.path <+: x → m'.path.length ≤ m.path.length

/-- Every file of the tree is that of the deepest mount above it. -/
def IsOverlay (root : Mount κ α) (mounts : List (Mount κ α)) (t : Tree κ α) : Prop :=
  ∀ x m, IsDeepest root mounts x m → ∀ a, HasFile t x a ↔ m.HasFile x a

/-- Deeper mounts come later, and no two are at one path. -/
structure IsLayered (root : Mount κ α) (mounts : List (Mount κ α)) : Prop where
  root_eq : root.path = []
  sorted : mounts.Pairwise fun m m' ↦ m.path.length ≤ m'.path.length
  nodup : ((root :: mounts).map Mount.path).Nodup

omit [DecidableEq κ] in
/-- Only the root is mounted at the root. -/
theorem IsLayered.path_ne_nil (h : IsLayered root mounts) (hm : m ∈ mounts) : m.path ≠ [] := by
  intro hnil
  refine (List.nodup_cons.1 h.nodup).1 ?_
  rw [h.root_eq, ← hnil]
  exact List.mem_map_of_mem hm

omit [DecidableEq κ] in
/-- Only one mount is the deepest above a path. -/
theorem IsLayered.eq_of_isDeepest (h : IsLayered root mounts) {x : List κ} {m m' : Mount κ α}
    (hm : IsDeepest root mounts x m) (hm' : IsDeepest root mounts x m') : m = m' := by
  refine List.inj_on_of_nodup_map h.nodup hm.mem hm'.mem ?_
  refine (List.prefix_of_prefix_length_le hm.above hm'.above ?_).eq_of_length_le ?_
  · exact hm'.length_le m hm.mem hm.above
  · exact hm.length_le m' hm'.mem hm'.above

/-- The last mount above a path is the deepest one, also when mounts that are not above the path
follow. -/
theorem IsLayered.isDeepest_lastAbove {before after : List (Mount κ α)}
    (h : IsLayered root (before ++ after)) {x : List κ} (hafter : ∀ m ∈ after, ¬ m.path <+: x) :
    IsDeepest root (before ++ after) x (lastAbove root before x) := by
  have hsorted : (root :: before).Pairwise fun m m' ↦ m.path.length ≤ m'.path.length := by
    refine List.pairwise_cons.2 ⟨fun m _ ↦ ?_, (List.pairwise_append.1 h.sorted).1⟩
    rw [h.root_eq]
    exact Nat.zero_le _
  have hroot : root.path <+: x := h.root_eq ▸ List.nil_prefix
  refine ⟨?_, ?_, fun m hm hx ↦ ?_⟩
  · rcases lastAbove_mem root before x with heq | ⟨hmem, -⟩
    · rw [heq]
      exact List.mem_cons_self
    · exact List.mem_cons_of_mem root (List.mem_append_left after hmem)
  · rcases lastAbove_mem root before x with heq | ⟨-, habove⟩
    · rw [heq]
      exact hroot
    · exact habove
  · refine length_le_lastAbove hsorted ?_ hx
    rcases List.mem_cons.1 hm with rfl | hm
    · exact List.mem_cons_self
    · rcases List.mem_append.1 hm with hm | hm
      · exact List.mem_cons_of_mem root hm
      · exact absurd hx (hafter m hm)

/-- **The last mount is the deepest** where mounts come in the order of their depth. -/
theorem IsLayered.isDeepest_lastAbove_self (h : IsLayered root mounts) (x : List κ) :
    IsDeepest root mounts x (lastAbove root mounts x) := by
  have hlast : IsDeepest root (mounts ++ []) x (lastAbove root mounts x) := by
    refine IsLayered.isDeepest_lastAbove ?_ fun m hm ↦ absurd hm List.not_mem_nil
    rwa [List.append_nil]
  rwa [List.append_nil] at hlast

/-- **Layered mounts make their overlay**, if above each of them the deepest mount has no file. -/
theorem exists_isOverlay (h : IsLayered root mounts) (hdir : ∀ m ∈ mounts, RootIsDir m.source)
    (hclear : ∀ m ∈ mounts, ∀ q, q <+: m.path.dropLast → ∀ o, IsDeepest root mounts q o →
      ∀ a, ¬ o.HasFile q a)
    (ht : ∀ x a, HasFile t x a ↔ root.HasFile x a) :
    ∃ t', installAll mounts t = some t' ∧ IsOverlay root mounts t' := by
  have hbefore : ∀ before m after, mounts = before ++ m :: after → ∀ q, q <+: m.path.dropLast →
      ∀ a, ¬ (lastAbove root before q).HasFile q a := by
    rintro before m after rfl q hq a
    have hmem : m ∈ before ++ m :: after := List.mem_append_right _ List.mem_cons_self
    refine hclear m hmem q hq _ (h.isDeepest_lastAbove fun m' hm' habove ↦ ?_) a
    have hle : m.path.length ≤ m'.path.length := by
      rcases List.mem_cons.1 hm' with rfl | hm'
      · exact le_rfl
      · exact (List.pairwise_cons.1 (List.pairwise_append.1 h.sorted).2.1).1 m' hm'
    have hpos := List.length_pos_iff.2 (h.path_ne_nil hmem)
    have hq' := hq.length_le
    rw [List.length_dropLast] at hq'
    have := habove.length_le
    omega
  obtain ⟨t', ht', hfile⟩ := exists_installAll hdir hbefore ht
  refine ⟨t', ht', fun x m hm a ↦ ?_⟩
  rw [hfile, h.eq_of_isDeepest hm (h.isDeepest_lastAbove_self x)]

end FileTree
