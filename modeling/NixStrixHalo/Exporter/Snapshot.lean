import Mathlib.Data.List.Basic
import Mathlib.Logic.Function.Basic
import NixStrixHalo.Library.Transition

/-!
# Snapshots of the exporters

`amdgpu-smu-exporter` and `amd-npu-exporter` publish their metrics once a second: `write_snapshot`
prints them to a temporary file, which it renames over the output. Every step of the file system may
fail. Apart from two defects, every call publishes the complete text or leaves the output alone
(`snapshots_iff`).

## Two defects

**A flush that fails while the text is printed** is not noticed: only the last one is checked, so
that a truncated file is published.

**A stream whose last flush or `fsync` fails** is not closed. What has been opened stays open until
the process ends, and a run has leaked as many streams as such calls (`length_streams_run`).

## Both exporters

What they do with a text is the same code twice, `publish` here. They differ in what comes before
it: the SMU exporter reads and checks a metrics table, and leaves everything alone where it rejects
one, while the NPU exporter always prints something. `Published` is what a call should do, and
`PublishIo.Sound` the condition on its steps, which is exact for a single call
(`published_publish_iff`).

A temporary file that cannot be removed is left behind, too, and this is part of the condition.
-/

namespace Exporter

/-- The content of a file. -/
abbrev Bytes := List UInt8

/-- The characters of a path. -/
abbrev Path := List Char

/-- The files, and the paths of the streams that are open. -/
structure System where
  files : Path → Option Bytes
  streams : List Path

/-- What `errno` says, or whose `errno` it is. -/
inductive Errno
  | enametoolong
  | eproto
  | eprotonosupport
  | readMetrics
  | fopen
  | fflush
  | fileno
  | fsync
  | fclose
  | rename
  deriving DecidableEq

/-! ### Printing -/

/-- A flush of a full buffer: the data, and how many bytes of it reach the file. The rest of the
data is discarded. -/
structure Flush where
  data : Bytes
  written : ℕ
  deriving DecidableEq

/-- What is printed: the buffers that are flushed on the way, and what stays in the last one. -/
structure Emission where
  flushes : List Flush
  rest : Bytes
  deriving DecidableEq

/-- The complete text. -/
def Emission.text (e : Emission) : Bytes := e.flushes.flatMap Flush.data ++ e.rest

/-- What of the flushed buffers is in the file. -/
def Emission.flushed (e : Emission) : Bytes := e.flushes.flatMap fun f ↦ f.data.take f.written

/-- Every flush on the way succeeds. -/
def Emission.Lossless (e : Emission) : Prop := ∀ f ∈ e.flushes, f.data.length ≤ f.written

instance (e : Emission) : Decidable e.Lossless :=
  inferInstanceAs (Decidable (∀ f ∈ e.flushes, f.data.length ≤ f.written))

/-! ### Publishing -/

/-- Which steps fail. A last flush that fails writes some bytes. -/
structure PublishIo where
  fopenFails : Bool := false
  fflushFails : Option ℕ := none
  filenoFails : Bool := false
  fsyncFails : Bool := false
  fcloseFails : Bool := false
  renameFails : Bool := false
  unlinkFails : Bool := false

/-- `temporary_path`. -/
def temporaryPath (outputPath : Path) (pid : ℕ) : Path :=
  outputPath ++ ".tmp.".toList ++ Nat.toDigits 10 pid

/-- What a path holds. -/
def System.write (s : System) (path : Path) (content : Bytes) : System :=
  { s with files := Function.update s.files path (some content) }

/-- `unlink`. -/
def System.unlink (s : System) (fails : Bool) (path : Path) : System :=
  if fails then s else { s with files := Function.update s.files path none }

/-- `rename`, where it succeeds. -/
def System.rename (s : System) (source target : Path) : System :=
  { s with files := Function.update (Function.update s.files target (s.files source)) source none }

/-- What both exporters do with a text. -/
def publish (outputPath : Path) (pid : ℕ) (emission : Emission) (io : PublishIo) (s : System) :
    System × Option Errno :=
  let temporary := temporaryPath outputPath pid
  if 4096 ≤ temporary.length then (s, some .enametoolong)
  else if io.fopenFails then (s, some .fopen)
  else
    let opened := { s with streams := temporary :: s.streams }
    match io.fflushFails with
    | some n =>
      let s := opened.write temporary (emission.flushed ++ emission.rest.take n)
      (s.unlink io.unlinkFails temporary, some .fflush)
    | none =>
      let printed := opened.write temporary (emission.flushed ++ emission.rest)
      -- the checks stop at the first one that fails, and only the last one closes the stream
      if io.filenoFails then (printed.unlink io.unlinkFails temporary, some .fileno)
      else if io.fsyncFails then (printed.unlink io.unlinkFails temporary, some .fsync)
      else
        let closed := { printed with streams := s.streams }
        if io.fcloseFails then (closed.unlink io.unlinkFails temporary, some .fclose)
        else if io.renameFails then (closed.unlink io.unlinkFails temporary, some .rename)
        else (closed.rename temporary outputPath, none)

/-! ### The exporters -/

/-- What a call of `read` does. -/
inductive ReadOutcome
  | bytes (data : Bytes)
  | interrupted
  | fails

/-- The loop of `read_metrics`, with the data so far. -/
def readMetrics (capacity : ℕ) : List ReadOutcome → Bytes → Option Bytes
  | [], data => some data
  | outcome :: outcomes, data =>
    if capacity ≤ data.length then some data
    else
      match outcome with
      | .interrupted => readMetrics capacity outcomes data
      | .fails => none
      | .bytes [] => some data
      | .bytes more =>
        readMetrics capacity outcomes (data ++ more.take (capacity - data.length))

/-- `read_le16`. -/
def readLe16 (data : Bytes) (offset : ℕ) : ℕ :=
  (data.getD offset 0).toNat + 256 * (data.getD (offset + 1) 0).toNat

/-- The outcomes of one call of the SMU exporter. -/
structure SmuIo extends PublishIo where
  openFails : Bool := false
  reads : List ReadOutcome
  emission : Emission

/-- The checks of the metrics table, before anything is written. -/
def SmuIo.check (io : SmuIo) : Option Errno :=
  match if io.openFails then none else readMetrics 4096 io.reads [] with
  | none => some .readMetrics
  | some data =>
    if data.length < 260 then some .eproto
    else if data.getD 2 0 ≠ 3 ∨ data.getD 3 0 ≠ 0 ∨ readLe16 data 0 < 260 ∨
        data.length < readLe16 data 0 then some .eprotonosupport
    else none

/-- `write_snapshot` of the SMU exporter. -/
def smuWriteSnapshot (outputPath : Path) (pid : ℕ) (io : SmuIo) (s : System) :
    System × Option Errno :=
  match io.check with
  | some errno => (s, some errno)
  | none => publish outputPath pid io.emission io.toPublishIo s

/-- The outcomes of one call of the NPU exporter: whether the device opens, and what is printed. -/
structure NpuIo extends PublishIo where
  openFails : Bool := false
  down : Emission
  all : Emission

/-- What `write_snapshot` prints. -/
def NpuIo.emission (io : NpuIo) : Emission := if io.openFails then io.down else io.all

/-- `write_snapshot` of the NPU exporter. -/
def npuWriteSnapshot (outputPath : Path) (pid : ℕ) (io : NpuIo) (s : System) :
    System × Option Errno :=
  publish outputPath pid io.emission io.toPublishIo s

/-! ### What a call leaves -/

/-- There is no temporary file, and no stream is open. -/
structure Tidy (outputPath : Path) (pid : ℕ) (s : System) : Prop where
  temporary : s.files (temporaryPath outputPath pid) = none
  streams : s.streams = []

/-- The call returned 0 and the output is the complete text, or it returned -1 and the output is as
before; in both cases nothing is left behind. -/
structure Published (outputPath : Path) (pid : ℕ) (text : Bytes) (s : System)
    (call : System × Option Errno) : Prop where
  outcome : call.2 = none ∧ call.1.files outputPath = some text ∨
    (∃ errno, call.2 = some errno) ∧ call.1.files outputPath = s.files outputPath
  tidy : Tidy outputPath pid call.1

/-- Nothing is opened; or the last flush, `fileno` and `fsync` succeed, and then either closing or
renaming fails and the temporary file can be removed, or no flush on the way lost data. -/
def PublishIo.Sound (io : PublishIo) (outputPath : Path) (pid : ℕ) (emission : Emission) : Prop :=
  4096 ≤ (temporaryPath outputPath pid).length ∨ io.fopenFails ∨
    (io.fflushFails = none ∧ io.filenoFails = false ∧ io.fsyncFails = false ∧
      if io.fcloseFails ∨ io.renameFails then io.unlinkFails = false else emission.Lossless)

instance (io : PublishIo) (outputPath : Path) (pid : ℕ) (emission : Emission) :
    Decidable (io.Sound outputPath pid emission) := by
  unfold PublishIo.Sound
  infer_instance

variable {outputPath : Path} {pid : ℕ} {emission : Emission} {s : System}

/-- The temporary file is not the published one. -/
theorem temporaryPath_ne : temporaryPath outputPath pid ≠ outputPath := by
  intro h
  have hlength := congrArg List.length h
  simp [temporaryPath] at hlength

theorem length_flushed_le (flushes : List Flush) :
    (flushes.flatMap fun f ↦ f.data.take f.written).length ≤
      (flushes.flatMap Flush.data).length := by
  induction flushes with
  | nil => exact Nat.le_refl _
  | cons f flushes ih =>
    rw [List.flatMap_cons, List.flatMap_cons, List.length_append, List.length_append]
    exact Nat.add_le_add (List.length_take_le' _ _) ih

/-- The file has the complete text exactly if no flush lost data. -/
theorem Emission.flushed_append_rest_iff :
    emission.flushed ++ emission.rest = emission.text ↔ emission.Lossless := by
  rw [text, List.append_left_inj, flushed, Lossless]
  induction emission.flushes with
  | nil => exact iff_of_true rfl fun f hf ↦ absurd hf List.not_mem_nil
  | cons f flushes ih =>
    rw [List.flatMap_cons, List.flatMap_cons, List.forall_mem_cons]
    by_cases hle : f.data.length ≤ f.written
    · rw [List.take_of_length_le hle, List.append_right_inj, ih, and_iff_right hle]
    · refine iff_of_false (fun h ↦ ?_) fun h ↦ hle h.1
      have hlength := congrArg List.length h
      have hrest := length_flushed_le flushes
      rw [List.length_append, List.length_append, List.length_take] at hlength
      omega

/-- Nothing was changed. -/
theorem published_self (hs : Tidy outputPath pid s) (text : Bytes) (errno : Errno) :
    Published outputPath pid text s (s, some errno) :=
  ⟨Or.inr ⟨⟨errno, rfl⟩, rfl⟩, hs⟩

/-- The temporary file was written and removed, and the stream closed. -/
theorem published_unlink_iff (hs : Tidy outputPath pid s) (text content : Bytes) (fails : Bool)
    (errno : Errno) :
    Published outputPath pid text s
        ((s.write (temporaryPath outputPath pid) content).unlink fails
          (temporaryPath outputPath pid), some errno) ↔ fails = false := by
  cases fails
  · refine iff_of_true ⟨Or.inr ⟨⟨errno, rfl⟩, ?_⟩, Function.update_self _ _ _, hs.streams⟩ rfl
    exact (Function.update_of_ne temporaryPath_ne.symm _ _).trans
      (Function.update_of_ne temporaryPath_ne.symm _ _)
  · refine iff_of_false (fun h ↦ ?_) (by decide)
    have htemporary : Function.update s.files (temporaryPath outputPath pid) (some content)
        (temporaryPath outputPath pid) = none := h.tidy.temporary
    rw [Function.update_self] at htemporary
    cases htemporary

/-- The temporary file was written and renamed, and the stream closed. -/
theorem published_rename_iff (hs : Tidy outputPath pid s) (text content : Bytes) :
    Published outputPath pid text s
        ((s.write (temporaryPath outputPath pid) content).rename (temporaryPath outputPath pid)
          outputPath, none) ↔ content = text := by
  have houtput : ((s.write (temporaryPath outputPath pid) content).rename
      (temporaryPath outputPath pid) outputPath).files outputPath = some content :=
    (Function.update_of_ne temporaryPath_ne.symm _ _).trans
      ((Function.update_self _ _ _).trans (Function.update_self _ _ _))
  constructor
  · rintro ⟨⟨-, hfile⟩ | ⟨⟨errno, herrno⟩, -⟩, -⟩
    · exact Option.some.inj (houtput.symm.trans hfile)
    · cases herrno
  · rintro rfl
    exact ⟨Or.inl ⟨rfl, houtput⟩, Function.update_self _ _ _, hs.streams⟩

/-- A stream that stays open. -/
theorem not_published_of_streams {text : Bytes} {call : System × Option Errno} {path : Path}
    (h : call.1.streams = path :: s.streams) : ¬Published outputPath pid text s call :=
  fun hpublished ↦ List.cons_ne_nil _ _ (h.symm.trans hpublished.tidy.streams)

theorem unlink_streams (fails : Bool) (path : Path) :
    (s.unlink fails path).streams = s.streams := by
  rw [System.unlink]
  split
  · rfl
  · rfl

/-- **One call publishes exactly if it is sound.** -/
theorem published_publish_iff (hs : Tidy outputPath pid s) (emission : Emission)
    (io : PublishIo) :
    Published outputPath pid emission.text s (publish outputPath pid emission io s) ↔
      io.Sound outputPath pid emission := by
  rw [publish, PublishIo.Sound]
  dsimp only
  by_cases hlong : 4096 ≤ (temporaryPath outputPath pid).length
  · rw [if_pos hlong]
    exact iff_of_true (published_self hs _ _) (Or.inl hlong)
  rw [if_neg hlong]
  cases hfopen : io.fopenFails
  swap
  · rw [if_pos rfl]
    exact iff_of_true (published_self hs _ _) (Or.inr (Or.inl rfl))
  rw [if_neg Bool.false_ne_true, or_iff_right hlong, or_iff_right Bool.false_ne_true]
  -- a check that fails before `fclose` leaves the stream open, whatever `unlink` does
  cases hfflush : io.fflushFails with
  | some n =>
    exact iff_of_false (not_published_of_streams (unlink_streams _ _)) fun h ↦ by cases h.1
  | none =>
    rw [and_iff_right rfl]
    dsimp only
    cases hfileno : io.filenoFails
    swap
    · exact iff_of_false (not_published_of_streams (unlink_streams _ _)) fun h ↦ by cases h.1
    rw [if_neg Bool.false_ne_true, and_iff_right rfl]
    cases hfsync : io.fsyncFails
    swap
    · exact iff_of_false (not_published_of_streams (unlink_streams _ _)) fun h ↦ by cases h.1
    rw [if_neg Bool.false_ne_true, and_iff_right rfl]
    cases hfclose : io.fcloseFails
    swap
    · rw [if_pos rfl, if_pos (Or.inl rfl)]
      exact published_unlink_iff hs _ _ _ _
    rw [if_neg Bool.false_ne_true]
    cases hrename : io.renameFails
    · rw [if_neg Bool.false_ne_true, if_neg (by decide), ← Emission.flushed_append_rest_iff]
      exact published_rename_iff hs _ _
    · rw [if_pos rfl, if_pos (Or.inr rfl)]
      exact published_unlink_iff hs _ _ _ _

/-! ### The exporters' calls -/

/-- The table is rejected, or what is printed is published soundly. -/
def SmuIo.Sound (io : SmuIo) (outputPath : Path) (pid : ℕ) : Prop :=
  io.check.isSome ∨ io.toPublishIo.Sound outputPath pid io.emission

/-- What is printed is published soundly. -/
def NpuIo.Sound (io : NpuIo) (outputPath : Path) (pid : ℕ) : Prop :=
  io.toPublishIo.Sound outputPath pid io.emission

instance (io : SmuIo) (outputPath : Path) (pid : ℕ) : Decidable (io.Sound outputPath pid) :=
  inferInstanceAs (Decidable (_ ∨ _))

instance (io : NpuIo) (outputPath : Path) (pid : ℕ) : Decidable (io.Sound outputPath pid) :=
  inferInstanceAs (Decidable (io.toPublishIo.Sound outputPath pid io.emission))

/-- **A call publishes its snapshot** exactly when it is sound. -/
theorem published_smuWriteSnapshot_iff (hs : Tidy outputPath pid s) (io : SmuIo) :
    Published outputPath pid io.emission.text s (smuWriteSnapshot outputPath pid io s) ↔
      io.Sound outputPath pid := by
  rw [smuWriteSnapshot, SmuIo.Sound]
  cases hcheck : io.check with
  | none => exact (published_publish_iff hs _ _).trans (or_iff_right Bool.false_ne_true).symm
  | some errno => exact iff_of_true (published_self hs _ _) (Or.inl rfl)

/-- The iterations of `main` in the SMU exporter. -/
def smuRun (outputPath : Path) (pid : ℕ) (s : System) (calls : List SmuIo) : System :=
  calls.foldl (fun s io ↦ (smuWriteSnapshot outputPath pid io s).1) s

/-- The iterations of `main` in the NPU exporter. -/
def npuRun (outputPath : Path) (pid : ℕ) (s : System) (calls : List NpuIo) : System :=
  calls.foldl (fun s io ↦ (npuWriteSnapshot outputPath pid io s).1) s

/-- **The snapshots of both exporters.** In a run from a state with nothing left behind, every call
publishes the complete text or leaves the output alone, and leaves nothing behind, exactly if every
call is sound. -/
theorem snapshots_iff (outputPath : Path) (pid : ℕ) {s₀ : System} (hs₀ : Tidy outputPath pid s₀) :
    (∀ calls : List SmuIo,
      (∀ done io, done ++ [io] <+: calls →
        Published outputPath pid io.emission.text (smuRun outputPath pid s₀ done)
          (smuWriteSnapshot outputPath pid io (smuRun outputPath pid s₀ done))) ↔
      ∀ io ∈ calls, io.Sound outputPath pid) ∧
    (∀ calls : List NpuIo,
      (∀ done io, done ++ [io] <+: calls →
        Published outputPath pid io.emission.text (npuRun outputPath pid s₀ done)
          (npuWriteSnapshot outputPath pid io (npuRun outputPath pid s₀ done))) ↔
      ∀ io ∈ calls, io.Sound outputPath pid) :=
  ⟨fun _ ↦ Transition.forall_steps_foldl_iff hs₀
      (fun _ io hs ↦ published_smuWriteSnapshot_iff hs io) fun _ _ _ h ↦ h.tidy,
    fun _ ↦ Transition.forall_steps_foldl_iff hs₀
      (fun _ (io : NpuIo) hs ↦ published_publish_iff hs io.emission io.toPublishIo)
      fun _ _ _ h ↦ h.tidy⟩

/-- The shortest table of the supported revision. -/
def smallTable : Bytes := [4, 1, 3, 0] ++ List.replicate 256 0

/-- No file, and no stream. -/
def emptySystem : System where
  files _ := none
  streams := []

theorem tidy_emptySystem (outputPath : Path) (pid : ℕ) : Tidy outputPath pid emptySystem :=
  ⟨rfl, rfl⟩

/-- A call that publishes. -/
def publishingCall : SmuIo where
  reads := [.bytes smallTable]
  emission := ⟨[⟨[35, 32], 2⟩], [10]⟩

/-- A call whose `rename` fails. -/
def unrenamedCall : SmuIo where
  reads := [.bytes smallTable]
  emission := ⟨[], [35]⟩
  renameFails := true

theorem snapshots_iff_soundCalls :
    Published ['o'] 7 unrenamedCall.emission.text (smuRun ['o'] 7 emptySystem [publishingCall])
      (smuWriteSnapshot ['o'] 7 unrenamedCall
        (smuRun ['o'] 7 emptySystem [publishingCall])) :=
  have hsound : ∀ io ∈ [publishingCall, unrenamedCall], io.Sound ['o'] 7 := by decide +kernel
  ((snapshots_iff ['o'] 7 (tidy_emptySystem ['o'] 7)).1 _).2 hsound [publishingCall] _
    List.prefix_rfl

/-- A call that loses the first of two buffers. -/
def lossyCall : SmuIo where
  reads := [.bytes smallTable]
  emission := ⟨[⟨List.replicate 4096 35, 0⟩], [10]⟩

/-- A call whose `fsync` fails. -/
def unsyncedCall : NpuIo where
  down := ⟨[], [10]⟩
  all := ⟨[], [35, 10]⟩
  fsyncFails := true

/-- A lost buffer is published as a truncated file, and a failed `fsync` leaves a stream open. -/
theorem not_snapshots :
    (smuWriteSnapshot ['o'] 7 lossyCall emptySystem).2 = none ∧
      (smuWriteSnapshot ['o'] 7 lossyCall emptySystem).1.files ['o'] = some [10] ∧
      lossyCall.emission.text ≠ [10] ∧
      (npuWriteSnapshot ['o'] 7 unsyncedCall emptySystem).1.streams ≠ [] := by
  decide +kernel

/-! ### Leaks -/

/-- The checks stop between opening and closing the stream. -/
def PublishIo.Leaks (io : PublishIo) (outputPath : Path) (pid : ℕ) : Prop :=
  (temporaryPath outputPath pid).length < 4096 ∧ io.fopenFails = false ∧
    (io.fflushFails.isSome ∨ io.filenoFails ∨ io.fsyncFails)

instance (io : PublishIo) (outputPath : Path) (pid : ℕ) : Decidable (io.Leaks outputPath pid) := by
  unfold PublishIo.Leaks
  infer_instance

/-- A call that leaks leaves one more stream open. -/
theorem streams_publish (emission : Emission) (io : PublishIo) (s : System) :
    (publish outputPath pid emission io s).1.streams =
      if io.Leaks outputPath pid then temporaryPath outputPath pid :: s.streams
      else s.streams := by
  by_cases hleak : io.Leaks outputPath pid
  · obtain ⟨hlong, hfopen, hfails⟩ := id hleak
    rw [if_pos hleak, publish]
    dsimp only
    rw [if_neg (Nat.not_le.2 hlong), hfopen, if_neg Bool.false_ne_true]
    cases hfflush : io.fflushFails with
    | some n => exact unlink_streams _ _
    | none =>
      dsimp only
      cases hfileno : io.filenoFails
      · have hfsync : io.fsyncFails := by simpa [hfflush, hfileno] using hfails
        rw [if_neg Bool.false_ne_true, if_pos hfsync]
        exact unlink_streams _ _
      · exact unlink_streams _ _
  · rw [if_neg hleak, publish]
    dsimp only
    by_cases hlong : 4096 ≤ (temporaryPath outputPath pid).length
    · rw [if_pos hlong]
    cases hfopen : io.fopenFails
    swap
    · rw [if_neg hlong, if_pos rfl]
    rw [if_neg hlong, if_neg Bool.false_ne_true]
    -- nothing failed before `fclose`, so the stream is closed whatever follows
    have hfails : ¬(io.fflushFails.isSome ∨ io.filenoFails ∨ io.fsyncFails) :=
      fun h ↦ hleak ⟨Nat.lt_of_not_le hlong, hfopen, h⟩
    rw [not_or, not_or, Option.not_isSome_iff_eq_none] at hfails
    obtain ⟨hfflush, hfileno, hfsync⟩ := hfails
    rw [hfflush]
    dsimp only
    rw [if_neg hfileno, if_neg hfsync]
    split
    · exact unlink_streams _ _
    split
    · exact unlink_streams _ _
    · rfl

theorem length_streams_publish (emission : Emission) (io : PublishIo) (s : System) :
    (publish outputPath pid emission io s).1.streams.length =
      s.streams.length + if io.Leaks outputPath pid then 1 else 0 := by
  rw [streams_publish]
  split
  · rfl
  · rfl

/-- The SMU exporter has printed something, and leaks. -/
def SmuIo.Leaks (io : SmuIo) (outputPath : Path) (pid : ℕ) : Prop :=
  io.check = none ∧ io.toPublishIo.Leaks outputPath pid

instance (io : SmuIo) (outputPath : Path) (pid : ℕ) : Decidable (io.Leaks outputPath pid) :=
  inferInstanceAs (Decidable (_ ∧ _))

theorem length_streams_foldl {α : Type*} {f : System → α → System} {leaks : α → Prop}
    [DecidablePred leaks]
    (hstep : ∀ s a, (f s a).streams.length = s.streams.length + if leaks a then 1 else 0)
    (as : List α) (s : System) :
    (as.foldl f s).streams.length = s.streams.length + as.countP (leaks ·) := by
  induction as generalizing s with
  | nil => rfl
  | cons a as ih =>
    rw [List.foldl_cons, ih, hstep, List.countP_cons]
    by_cases hleak : leaks a
    · simp [hleak, Nat.add_assoc, Nat.add_comm]
    · simp [hleak]

/-- **Leaks add up**: over a run, every call that leaks leaves one more stream open. -/
theorem length_streams_run (outputPath : Path) (pid : ℕ) (s : System) :
    (∀ calls : List SmuIo, (smuRun outputPath pid s calls).streams.length =
      s.streams.length + calls.countP fun io ↦ io.Leaks outputPath pid) ∧
    (∀ calls : List NpuIo, (npuRun outputPath pid s calls).streams.length =
      s.streams.length + calls.countP fun io ↦ io.toPublishIo.Leaks outputPath pid) := by
  refine ⟨fun calls ↦ length_streams_foldl (fun s io ↦ ?_) calls s,
    fun calls ↦ length_streams_foldl
      (fun s io ↦ length_streams_publish io.emission io.toPublishIo s) calls s⟩
  cases hcheck : io.check with
  | none =>
    have hleaks : io.Leaks outputPath pid ↔ io.toPublishIo.Leaks outputPath pid :=
      and_iff_right hcheck
    rw [smuWriteSnapshot, hcheck]
    simp only [hleaks]
    exact length_streams_publish io.emission io.toPublishIo s
  | some errno =>
    have hleaks : ¬io.Leaks outputPath pid := fun h ↦ Option.some_ne_none errno (hcheck ▸ h.1)
    rw [smuWriteSnapshot, hcheck, if_neg hleaks]
    rfl

end Exporter
