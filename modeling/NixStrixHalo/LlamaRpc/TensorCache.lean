import Mathlib.Data.List.Basic
import Mathlib.Logic.Function.Basic
import NixStrixHalo.Library.Transition

/-!
# The tensor cache of the RPC server

`rpc_server::set_tensor` stores the data of a tensor in a file that is named by its hash, by way of
a temporary file that is renamed into place; `get_cached_file` reads it back. Every step of the file
system may fail (`WriteIo`, `ReadIo`).

## The flush that nobody checks

The write is checked while the stream may still buffer its tail, and closing the stream reports
nothing, so a flush that fails leaves a truncated file, which is then renamed into place
(`setTensor_of_not_flushed`). In runs where whatever is renamed into place was flushed, the cache
has only complete tensors (`isSound_of_reach`).

## What a cache promises

`IsSound` is about a state: its files, and what is read from them, are tensors that were stored
under their hash, a call that does not commit leaves the cache files as they are or removes them,
and one that commits publishes its own data, whatever a temporary file was left with. Hashes may
collide: what is read for a hash is the data of some call with this hash, as a cache file of the
right size is not written again.
-/

namespace LlamaRpc

/-- The content of a file. -/
abbrev Bytes := List UInt8

/-- The files of the cache directory: `cache_file` and `tmp_file` of each hash. -/
inductive Name
  | cacheFile (hash : UInt64)
  | tmpFile (hash : UInt64)
  deriving DecidableEq

/-- The cache directory. -/
abbrev Files := Name → Option Bytes

/-- Which steps of `set_tensor` fail. A write that fails leaves some bytes in the file, and a stream
whose write succeeds has written some bytes when it is destroyed. -/
structure WriteIo where
  existsFails : Bool := false
  fileSizeFails : Bool := false
  openFails : Bool := false
  writeFails : Option ℕ := none
  flushed : ℕ
  removeTmpFails : Bool := false
  renameFails : Bool := false
  removeCacheFails : Bool := false
  renameAgainFails : Bool := false

/-- Which steps of `get_cached_file` fail. -/
structure ReadIo where
  existsFails : Bool := false
  openFails : Bool := false
  seekFails : Bool := false
  readFails : Bool := false

/-- How `set_tensor` leaves the cache. -/
inductive Commit
  | cached
  | writeFailed
  | commitFailed
  | saved
  deriving DecidableEq

variable {io : WriteIo} {files : Files} {data content : Bytes} {hash hash' : UInt64}

/-! ### Storing a tensor -/

/-- The check of an existing cache file, by its size. -/
def isCached (io : WriteIo) (files : Files) (hash : UInt64) (size : ℕ) : Bool :=
  match files (.cacheFile hash) with
  | none => false
  | some content => !io.existsFails && !io.fileSizeFails && content.length == size

/-- `fs::remove`. -/
def remove (fails : Bool) (name : Name) (files : Files) : Files :=
  if fails then files else Function.update files name none

/-- `fs::rename` of the temporary file to the cache file, where it succeeds. -/
def rename (hash : UInt64) (files : Files) : Files :=
  Function.update (Function.update files (.cacheFile hash) (files (.tmpFile hash)))
    (.tmpFile hash) none

/-- The block of the stream: the files after its destruction, and `wrote_tmp`. -/
def writeTmp (io : WriteIo) (hash : UInt64) (data : Bytes) (files : Files) : Files × Bool :=
  if io.openFails then (remove io.removeTmpFails (.tmpFile hash) files, false)
  else
    match io.writeFails with
    | some n =>
      (remove io.removeTmpFails (.tmpFile hash)
        (Function.update files (.tmpFile hash) (some (data.take n))), false)
    | none => (Function.update files (.tmpFile hash) (some (data.take io.flushed)), true)

/-- The renames, after a temporary file was written. -/
def commit (io : WriteIo) (hash : UInt64) (files : Files) : Files × Commit :=
  if io.renameFails then
    let files := remove io.removeCacheFails (.cacheFile hash) files
    if io.renameAgainFails then (remove io.removeTmpFails (.tmpFile hash) files, .commitFailed)
    else (rename hash files, .saved)
  else (rename hash files, .saved)

/-- The cache part of `set_tensor`. -/
def setTensor (fnvHash : Bytes → UInt64) (io : WriteIo) (data : Bytes) (files : Files) :
    Files × Commit :=
  if isCached io files (fnvHash data) data.length then (files, .cached)
  else
    let written := writeTmp io (fnvHash data) data files
    if written.2 then commit io (fnvHash data) written.1 else (written.1, .writeFailed)

/-- `get_cached_file`. -/
def getCachedFile (io : ReadIo) (hash : UInt64) (files : Files) : Option Bytes :=
  if io.existsFails then none
  else
    (files (.cacheFile hash)).bind fun content ↦
      if io.openFails || io.seekFails || io.readFails then none else some content

/-! ### What a call does -/

/-- Every cache file is as before, or gone. -/
def LeavesOrRemoves (files files' : Files) : Prop :=
  ∀ hash, files' (.cacheFile hash) = files (.cacheFile hash) ∨ files' (.cacheFile hash) = none

/-- The cache file of a hash has this content, and every other one is as before. -/
structure Publishes (hash : UInt64) (content : Option Bytes) (files files' : Files) : Prop where
  self : files' (.cacheFile hash) = content
  other : ∀ hash', hash' ≠ hash → files' (.cacheFile hash') = files (.cacheFile hash')

variable {fnvHash : Bytes → UInt64} {files' : Files}

/-- Nothing to do is one way to leave the files. -/
theorem LeavesOrRemoves.refl (files : Files) : LeavesOrRemoves files files := fun _ ↦ Or.inl rfl

/-- Writing a temporary file touches no cache file. -/
theorem update_tmpFile (files : Files) (content : Option Bytes) :
    Function.update files (.tmpFile hash) content (.cacheFile hash') = files (.cacheFile hash') :=
  Function.update_of_ne (fun heq ↦ by cases heq) _ _

/-- Removing a temporary file touches no cache file. -/
theorem remove_tmpFile (fails : Bool) (files : Files) :
    remove fails (.tmpFile hash) files (.cacheFile hash') = files (.cacheFile hash') := by
  rw [remove]
  split
  · rfl
  · exact update_tmpFile files none

/-- Removing a cache file touches no other one. -/
theorem remove_cacheFile_of_ne (hne : hash' ≠ hash) (fails : Bool) (files : Files) :
    remove fails (.cacheFile hash) files (.cacheFile hash') = files (.cacheFile hash') := by
  rw [remove]
  split
  · rfl
  · exact Function.update_of_ne (fun heq ↦ hne (Name.cacheFile.inj heq)) _ _

/-- Removing a cache file touches no temporary file. -/
theorem remove_cacheFile_tmpFile (fails : Bool) (files : Files) :
    remove fails (.cacheFile hash) files (.tmpFile hash') = files (.tmpFile hash') := by
  rw [remove]
  split
  · rfl
  · exact Function.update_of_ne (fun heq ↦ by cases heq) _ _

/-- A removal, failed or not, leaves a cache file or removes it. -/
theorem leavesOrRemoves_remove (fails : Bool) (files : Files) :
    LeavesOrRemoves files (remove fails (.cacheFile hash) files) := by
  intro hash'
  by_cases heq : hash' = hash
  · rw [heq, remove]
    split
    · exact Or.inl rfl
    · exact Or.inr (Function.update_self _ _ _)
  · exact Or.inl (remove_cacheFile_of_ne heq fails files)

/-- A rename publishes the temporary file as a whole. -/
theorem publishes_rename (hash : UInt64) (files : Files) :
    Publishes hash (files (.tmpFile hash)) files (rename hash files) where
  self := (update_tmpFile _ _).trans (Function.update_self _ _ _)
  other _ hne := (update_tmpFile _ _).trans
    (Function.update_of_ne (fun heq ↦ hne (Name.cacheFile.inj heq)) _ _)

/-- What writing the temporary file does: no cache file changes, and what it holds if it was written
is of this call. -/
theorem writeTmp_spec (io : WriteIo) (hash : UInt64) (data : Bytes) (files : Files) :
    (∀ hash', (writeTmp io hash data files).1 (.cacheFile hash') = files (.cacheFile hash')) ∧
      ((writeTmp io hash data files).2 ↔ io.openFails = false ∧ io.writeFails = none) ∧
      ((writeTmp io hash data files).2 →
        (writeTmp io hash data files).1 (.tmpFile hash) = some (data.take io.flushed)) := by
  rw [writeTmp]
  rcases hopen : io.openFails with _ | _
  · rcases hwrite : io.writeFails with _ | n
    · rw [if_neg Bool.false_ne_true]
      refine ⟨fun hash' ↦ ?_, iff_of_true rfl ⟨rfl, rfl⟩, fun _ ↦ Function.update_self _ _ _⟩
      dsimp only
      exact update_tmpFile files _
    · rw [if_neg Bool.false_ne_true]
      exact ⟨fun _ ↦ (remove_tmpFile _ _).trans (update_tmpFile files _),
        iff_of_false Bool.false_ne_true fun h ↦ Option.some_ne_none n h.2,
        fun h ↦ absurd h Bool.false_ne_true⟩
  · rw [if_pos rfl]
    exact ⟨fun _ ↦ remove_tmpFile _ _, iff_of_false Bool.false_ne_true (fun h ↦ by cases h.1),
      fun h ↦ absurd h Bool.false_ne_true⟩

/-- What the renames do: they put the temporary file in the place of the cache file, or fail. -/
theorem commit_cases (io : WriteIo) (hash : UInt64) (files : Files) :
    (commit io hash files).2 = .saved ∧ ¬ (io.renameFails ∧ io.renameAgainFails) ∧
        Publishes hash (files (.tmpFile hash)) files (commit io hash files).1 ∨
      (commit io hash files).2 = .commitFailed ∧ (io.renameFails ∧ io.renameAgainFails) ∧
        LeavesOrRemoves files (commit io hash files).1 := by
  rw [commit]
  by_cases h₁ : io.renameFails
  · rw [if_pos h₁]
    by_cases h₂ : io.renameAgainFails
    · rw [if_pos h₂]
      refine Or.inr ⟨rfl, ⟨h₁, h₂⟩, fun hash' ↦ ?_⟩
      dsimp only
      rw [remove_tmpFile]
      exact leavesOrRemoves_remove _ _ hash'
    · rw [if_neg h₂]
      have hpublishes := publishes_rename hash
        (remove io.removeCacheFails (.cacheFile hash) files)
      rw [remove_cacheFile_tmpFile] at hpublishes
      exact Or.inl ⟨rfl, fun h ↦ h₂ h.2, hpublishes.self, fun hash' hne ↦
        (hpublishes.other hash' hne).trans (remove_cacheFile_of_ne hne _ _)⟩
  · rw [if_neg h₁]
    exact Or.inl ⟨rfl, fun h ↦ h₁ h.1, publishes_rename hash files⟩

variable (fnvHash) in
/-- The call gets to the renames and one of them succeeds. -/
def Commits (io : WriteIo) (data : Bytes) (files : Files) : Prop :=
  isCached io files (fnvHash data) data.length = false ∧ io.openFails = false ∧
    io.writeFails = none ∧ ¬ (io.renameFails ∧ io.renameAgainFails)

/-- What a call of `set_tensor` does to the cache files: it publishes what was flushed of its data,
or leaves or removes them. -/
theorem setTensor_cases (fnvHash : Bytes → UInt64) (io : WriteIo) (data : Bytes) (files : Files) :
    (setTensor fnvHash io data files).2 = .saved ∧ Commits fnvHash io data files ∧
        Publishes (fnvHash data) (some (data.take io.flushed)) files
          (setTensor fnvHash io data files).1 ∨
      (setTensor fnvHash io data files).2 ≠ .saved ∧ ¬ Commits fnvHash io data files ∧
        LeavesOrRemoves files (setTensor fnvHash io data files).1 := by
  obtain ⟨hcache, hwroteIff, htmp⟩ := writeTmp_spec io (fnvHash data) data files
  rw [setTensor]
  by_cases hcached : isCached io files (fnvHash data) data.length
  · rw [if_pos hcached]
    refine Or.inr ⟨(fun h ↦ by cases h), fun hcommits ↦ ?_, LeavesOrRemoves.refl files⟩
    exact Bool.false_ne_true (hcommits.1.symm.trans hcached)
  · rw [if_neg hcached]
    dsimp only
    by_cases hwrote : (writeTmp io (fnvHash data) data files).2
    · rw [if_pos hwrote]
      obtain ⟨hopen, hwrite⟩ := hwroteIff.1 hwrote
      rcases commit_cases io (fnvHash data) (writeTmp io (fnvHash data) data files).1 with
        ⟨hsaved, hrename, hpublishes⟩ | ⟨hfailed, hrename, hleaves⟩
      · exact Or.inl ⟨hsaved, ⟨Bool.eq_false_iff.2 hcached, hopen, hwrite, hrename⟩,
          hpublishes.self.trans (htmp hwrote), fun hash' hne ↦
            (hpublishes.other hash' hne).trans (hcache hash')⟩
      · refine Or.inr ⟨fun h ↦ ?_, fun hcommits ↦ hcommits.2.2.2 hrename, fun hash' ↦ ?_⟩
        · rw [hfailed] at h
          cases h
        · rw [← hcache hash']
          exact hleaves hash'
    · rw [if_neg hwrote]
      exact Or.inr ⟨(fun h ↦ by cases h),
        fun hcommits ↦ hwrote (hwroteIff.2 ⟨hcommits.2.1, hcommits.2.2.1⟩),
        fun hash' ↦ Or.inl (hcache hash')⟩

/-! ### Runs -/

/-- The cache directory, and the data of the calls of `set_tensor` so far. -/
structure Cache where
  files : Files := fun _ ↦ none
  calls : List Bytes := []

/-- A call of the server, with the steps of the file system that fail. -/
inductive Call
  | setTensor (io : WriteIo) (data : Bytes)
  | getCachedFile (io : ReadIo) (hash : UInt64)

/-- The state after a call. -/
def step (fnvHash : Bytes → UInt64) (s : Cache) : Call → Option Cache
  | .setTensor io data =>
    some { files := (setTensor fnvHash io data s.files).1, calls := data :: s.calls }
  | .getCachedFile _ _ => some s

/-- What is renamed into place was flushed. -/
def Flushes (fnvHash : Bytes → UInt64) (s : Cache) : Call → Prop
  | .setTensor io data => Commits fnvHash io data s.files → data.length ≤ io.flushed
  | .getCachedFile _ _ => True

/-- What a cache promises in a state: its files and what is read from them are tensors of calls with
their hash; a call that does not commit leaves the cache files, or nothing; and a call that does
publishes its own data, whatever any temporary file was left with. -/
structure IsSound (fnvHash : Bytes → UInt64) (s : Cache) : Prop where
  intact : ∀ hash content, s.files (.cacheFile hash) = some content →
    content ∈ s.calls ∧ fnvHash content = hash
  lookup : ∀ io hash content, getCachedFile io hash s.files = some content →
    content ∈ s.calls ∧ fnvHash content = hash
  notCommitted : ∀ io data, (setTensor fnvHash io data s.files).2 ≠ .saved →
    LeavesOrRemoves s.files (setTensor fnvHash io data s.files).1
  ownData : ∀ io data hash left, Flushes fnvHash s (.setTensor io data) →
    (setTensor fnvHash io data (Function.update s.files (.tmpFile hash) left)).2 = .saved →
      (setTensor fnvHash io data (Function.update s.files (.tmpFile hash) left)).1
        (.cacheFile (fnvHash data)) = some data

variable {s s' : Cache} {call : Call}

/-- What is read is what the cache file holds. -/
theorem mem_of_getCachedFile {io : ReadIo} (h : getCachedFile io hash files = some content) :
    files (.cacheFile hash) = some content := by
  rw [getCachedFile] at h
  split at h
  · cases h
  · obtain ⟨content', hfile, h⟩ := Option.bind_eq_some_iff.1 h
    split at h
    · cases h
    · rw [hfile, h]

/-- Whether a call commits does not depend on the temporary files. -/
theorem commits_update_tmpFile (left : Option Bytes) :
    Commits fnvHash io data (Function.update files (.tmpFile hash) left) ↔
      Commits fnvHash io data files := by
  rw [Commits, Commits, isCached, isCached, update_tmpFile]

/-- A call that commits what was flushed publishes its data. -/
theorem cacheFile_of_saved (hflushed : Commits fnvHash io data files → data.length ≤ io.flushed)
    (h : (setTensor fnvHash io data files).2 = .saved) :
    Publishes (fnvHash data) (some data) files (setTensor fnvHash io data files).1 := by
  rcases setTensor_cases fnvHash io data files with ⟨-, hcommits, hpublishes⟩ | ⟨hne, -⟩
  · rwa [List.take_of_length_le (hflushed hcommits)] at hpublishes
  · exact absurd h hne

/-- **A tail that is not flushed is lost.** A commit then publishes a proper prefix of the data. -/
theorem setTensor_of_not_flushed (hcommits : Commits fnvHash io data files)
    (h : io.flushed < data.length) :
    (setTensor fnvHash io data files).1 (.cacheFile (fnvHash data)) =
        some (data.take io.flushed) ∧ (data.take io.flushed).length < data.length := by
  refine ⟨?_, by rw [List.length_take]; omega⟩
  rcases setTensor_cases fnvHash io data files with ⟨-, -, hpublishes⟩ | ⟨-, hne, -⟩
  · exact hpublishes.self
  · exact absurd hcommits hne

/-- The files of the cache stay intact. -/
theorem intact_step (h : ∀ hash content, s.files (.cacheFile hash) = some content →
      content ∈ s.calls ∧ fnvHash content = hash)
    (hflush : Flushes fnvHash s call) (hstep : step fnvHash s call = some s') :
    ∀ hash content, s'.files (.cacheFile hash) = some content →
      content ∈ s'.calls ∧ fnvHash content = hash := by
  cases call with
  | getCachedFile io hash =>
    obtain rfl := Option.some.inj hstep
    exact h
  | setTensor io data =>
    obtain rfl := Option.some.inj hstep
    intro hash content hcontent
    dsimp only at hcontent ⊢
    by_cases hsaved : (setTensor fnvHash io data s.files).2 = .saved
    · -- what is renamed into place was flushed, so it is all of the data
      have hpublishes := cacheFile_of_saved hflush hsaved
      by_cases hhash : hash = fnvHash data
      · rw [hhash, hpublishes.self] at hcontent
        obtain rfl := Option.some.inj hcontent
        exact ⟨List.mem_cons_self, hhash.symm⟩
      · rw [hpublishes.other hash hhash] at hcontent
        exact (h hash content hcontent).imp_left (List.mem_cons_of_mem data)
    · rcases setTensor_cases fnvHash io data s.files with ⟨hsaved', -⟩ | ⟨-, -, hleaves⟩
      · exact absurd hsaved' hsaved
      · rcases hleaves hash with heq | hnone
        · rw [heq] at hcontent
          exact (h hash content hcontent).imp_left (List.mem_cons_of_mem data)
        · rw [hnone] at hcontent
          cases hcontent

/-- **The cache over runs**: when whatever is renamed into place was flushed, the cache is sound in
every state reached. -/
theorem isSound_of_reach (fnvHash : Bytes → UInt64) {s : Cache}
    (h : Transition.Reach (step fnvHash) (Flushes fnvHash) {} s) : IsSound fnvHash s := by
  have hintact := h.invariant
    (I := fun s ↦ ∀ hash content, s.files (.cacheFile hash) = some content →
      content ∈ s.calls ∧ fnvHash content = hash)
    (fun _ _ hcontent ↦ by cases hcontent)
    fun _ _ _ _ hi hflush hstep ↦ intact_step hi hflush hstep
  refine ⟨hintact, fun io hash content hread ↦ hintact hash content (mem_of_getCachedFile hread),
    fun io data hne ↦ ?_, fun io data hash left hflush hsaved ↦ ?_⟩
  · rcases setTensor_cases fnvHash io data s.files with ⟨hsaved, -⟩ | ⟨-, -, hleaves⟩
    · exact absurd hsaved hne
    · exact hleaves
  · refine (cacheFile_of_saved (fun hcommits ↦ ?_) hsaved).self
    exact hflush ((commits_update_tmpFile left).1 hcommits)

/-- A first tensor whose tail is not flushed leaves a cache that is not sound. -/
theorem exists_reach_not_isSound (fnvHash : Bytes → UInt64) {n : ℕ} {data : Bytes}
    (h : n < data.length) : ∃ s : Cache,
      Transition.Reach (step fnvHash) (fun _ _ ↦ True) {} s ∧ ¬ IsSound fnvHash s := by
  refine ⟨_, Transition.Reach.refl.tail (a := .setTensor { flushed := n } data) trivial rfl,
    fun hsound ↦ ?_⟩
  have hcommits : Commits fnvHash { flushed := n } data fun _ ↦ none :=
    ⟨rfl, rfl, rfl, fun h ↦ Bool.false_ne_true h.1⟩
  obtain ⟨hfile, hlt⟩ := setTensor_of_not_flushed hcommits h
  have hmem := (hsound.intact _ _ hfile).1
  rw [List.mem_singleton.1 hmem] at hlt
  exact Nat.lt_irrefl _ hlt

/-- FNV-1a on 64 bits. -/
def fnv1a (data : Bytes) : UInt64 :=
  data.foldl (fun hash b ↦ (hash ^^^ b.toUInt64) * 0x100000001b3) 0xcbf29ce484222325

instance (s : Cache) (call : Call) : Decidable (Flushes fnvHash s call) :=
  match call with
  | .setTensor io data =>
    inferInstanceAs (Decidable (((isCached io s.files (fnvHash data) data.length) = false ∧
      io.openFails = false ∧ io.writeFails = none ∧ ¬ (io.renameFails ∧ io.renameAgainFails)) →
        data.length ≤ io.flushed))
  | .getCachedFile _ _ => inferInstanceAs (Decidable True)

/-- A tensor is stored at the second attempt. -/
def storedAtSecond : List Call :=
  [.setTensor { flushed := 1, renameFails := true, renameAgainFails := true } [1, 2, 3],
    .setTensor { flushed := 3, renameFails := true } [1, 2, 3],
    .getCachedFile {} (fnv1a [1, 2, 3])]

/-- A first store that fails, and a second one that publishes the tensor. -/
theorem isSound_of_reach_storedAtSecond : ∃ s : Cache,
    s.files (.cacheFile (fnv1a [1, 2, 3])) = some [1, 2, 3] ∧ IsSound fnv1a s := by
  obtain ⟨s, hreach, hfile⟩ := Transition.exists_reach_of_guardedRun
    (show (Transition.guardedRun (step fnv1a) (Flushes fnv1a) {} storedAtSecond).map
      (fun s ↦ s.files (.cacheFile (fnv1a [1, 2, 3]))) = some (some [1, 2, 3]) by decide)
  exact ⟨s, hfile, isSound_of_reach fnv1a hreach⟩

/-- A stream that cannot flush the second half of a tensor of 16 MiB: the cache file has the first
half. -/
theorem not_isSound_of_reach : ¬ ∀ s : Cache,
    Transition.Reach (step fnv1a) (fun _ _ ↦ True) {} s → IsSound fnv1a s := by
  intro h
  have hlt : 8388608 < (List.replicate 16777216 (0 : UInt8)).length := by
    rw [List.length_replicate]
    decide
  obtain ⟨s, hreach, hsound⟩ := exists_reach_not_isSound fnv1a hlt
  exact hsound (h s hreach)

end LlamaRpc
