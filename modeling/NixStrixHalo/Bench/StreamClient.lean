import Mathlib.Data.List.Count
import Mathlib.Data.Int.Basic

/-!
# The streaming client

`vllm-stream-client.py` benchmarks one case and appends a row to the CSV file. Its exit status is
zero when the row is `ok`, `partial` or `skipped`, and one when it is `failed`
(`clientMain_of_row`).

## What happens to a run

Which requests succeed, and whether the client ends with an exception before its row is in the file,
is given by a `ClientOutcome`. An exception leaves no row, and neither does a concurrency below one,
which the client refuses unless the case is to be skipped (`isSome_clientMain_iff`).

The measurements of a row are left out here: its status and its counts decide the exit status, and
this is what the script around the client looks at.
-/

namespace Bench

/-- A case of the plan. -/
structure Case where
  transport : String
  model : String
  concurrency : ℤ
  maxTokens : ℤ
  deriving DecidableEq

/-- The column `status`; `partialRun` is written `partial`. -/
inductive Status
  | ok
  | partialRun
  | failed
  | skipped
  deriving DecidableEq

/-- A row of the CSV file. -/
structure Row where
  case : Case
  parallelism : String
  requestsOk : ℕ
  requestsFailed : ℕ
  status : Status
  skipReason : String
  socketIfname : String
  rdmaHca : String
  deriving DecidableEq

/-- The arguments that the rows hold. -/
structure ClientArgs where
  case : Case
  parallelism : String
  socketIfname : String := ""
  rdmaHca : String := ""
  skipReason : String := ""
  deriving DecidableEq

/-- What happens to a run of the client: which of its requests succeed, and whether it ends with an
exception before its row is in the file. -/
structure ClientOutcome where
  requestOk : ℕ → Bool
  raises : Bool := false

/-- The status of a run with these counts of requests. -/
def aggregateStatus (okRows badRows : ℕ) : Status :=
  if okRows ≠ 0 ∧ badRows = 0 then .ok else if okRows ≠ 0 then .partialRun else .failed

/-- `aggregate`: the row of a run, without its measurements. -/
def aggregate (args : ClientArgs) (o : ClientOutcome) : Row :=
  let requests := (List.range args.case.concurrency.toNat).map o.requestOk
  let okRows := requests.count true
  let badRows := requests.count false
  { case := args.case, parallelism := args.parallelism, requestsOk := okRows,
    requestsFailed := badRows, status := aggregateStatus okRows badRows, skipReason := "",
    socketIfname := args.socketIfname, rdmaHca := args.rdmaHca }

/-- The row of a case that is skipped. -/
def skippedRow (args : ClientArgs) : Row :=
  { case := args.case, parallelism := args.parallelism, requestsOk := 0, requestsFailed := 0,
    status := .skipped, skipReason := args.skipReason, socketIfname := args.socketIfname,
    rdmaHca := args.rdmaHca }

/-- `main`: the exit status, and the row that it appends. -/
def clientMain (args : ClientArgs) (o : ClientOutcome) : ℕ × Option Row :=
  if args.skipReason ≠ "" then
    if o.raises then (1, none) else (0, some (skippedRow args))
  else if args.case.concurrency < 1 then (2, none)
  else if o.raises then (1, none)
  else
    let row := aggregate args o
    (if row.status = .ok ∨ row.status = .partialRun then 0 else 1, some row)

variable {args : ClientArgs} {o : ClientOutcome} {row : Row}

/-- When a run appends a row. -/
theorem isSome_clientMain_iff : (clientMain args o).2.isSome ↔
    (args.skipReason = "" → 1 ≤ args.case.concurrency) ∧ ¬ o.raises := by
  rw [clientMain]
  by_cases hskip : args.skipReason = ""
  · rw [if_neg (not_not.2 hskip)]
    by_cases hconc : args.case.concurrency < 1
    · rw [if_pos hconc]
      exact iff_of_false (by simp) fun h ↦ absurd hconc (Int.not_lt.2 (h.1 hskip))
    · rw [if_neg hconc]
      by_cases hraises : o.raises
      · rw [if_pos hraises]
        exact iff_of_false (by simp) fun h ↦ h.2 hraises
      · rw [if_neg hraises]
        exact iff_of_true rfl ⟨fun _ ↦ Int.not_lt.1 hconc, hraises⟩
  · rw [if_pos hskip]
    by_cases hraises : o.raises
    · rw [if_pos hraises]
      exact iff_of_false (by simp) fun h ↦ h.2 hraises
    · rw [if_neg hraises]
      exact iff_of_true rfl ⟨fun h ↦ absurd h hskip, hraises⟩

/-- A run appends a row of its own case, and fails exactly when the row says so. -/
theorem clientMain_of_row (h : (clientMain args o).2 = some row) :
    row.case = args.case ∧ (row.status = .skipped ↔ args.skipReason ≠ "") ∧
      ((clientMain args o).1 = 0 ↔ row.status ≠ .failed) := by
  rw [clientMain] at h ⊢
  split at h
  next hskip =>
    split at h
    · cases h
    next hraises =>
      obtain rfl := Option.some.inj h
      rw [if_pos hskip, if_neg hraises]
      exact ⟨rfl, iff_of_true rfl hskip, iff_of_true rfl fun heq ↦ by cases heq⟩
  next hskip =>
    split at h
    · cases h
    next hconc =>
      split at h
      · cases h
      next hraises =>
        obtain rfl := Option.some.inj h
        rw [if_neg hskip, if_neg hconc, if_neg hraises]
        refine ⟨rfl, iff_of_false (fun heq ↦ ?_) hskip, ?_⟩
        · rw [aggregate, aggregateStatus] at heq
          grind
        · rw [aggregate, aggregateStatus]
          grind

/-- The row of a case that is not skipped is that of its requests. -/
theorem eq_aggregate_of_row (h : (clientMain args o).2 = some row) (hskip : args.skipReason = "") :
    row = aggregate args o := by
  rw [clientMain, if_neg (not_not.2 hskip)] at h
  split at h
  · cases h
  · split at h
    · cases h
    · exact (Option.some.inj h).symm

/-- A run of a case fails when none of its requests succeeds. -/
theorem aggregate_status_ne_failed_iff : (aggregate args o).status ≠ .failed ↔
    ∃ i < args.case.concurrency.toNat, o.requestOk i := by
  have hcount : ((List.range args.case.concurrency.toNat).map o.requestOk).count true ≠ 0 ↔
      ∃ i < args.case.concurrency.toNat, o.requestOk i := by
    rw [Ne, List.count_eq_zero, not_not, List.mem_map]
    simp [List.mem_range]
  rw [← hcount, aggregate, aggregateStatus]
  grind

end Bench
