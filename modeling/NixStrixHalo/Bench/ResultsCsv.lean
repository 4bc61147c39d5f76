import NixStrixHalo.Library.Csv
import NixStrixHalo.Bench.MakePlan

/-!
# The results file

The streaming client appends a row of text to the CSV file (`append_csv`), and `make_plan` of
`vllm-transport-matrix.sh` reads the text back when a run resumes. It drops NUL bytes, cuts the text
into lines, drops the blank ones and gives the rest to `csv.DictReader`, while the texts of errors
may hold quotes, commas and line breaks of any kind. What is read back is what was recorded: a plan
made from the text is the plan made from the rows (`makePlanFile_appendRows`).

## What is recorded

A row has the columns of `FIELDS`. The ones that planning does not look at are given by a function
from the names of columns to texts, and `Recordable` says what is asked of them. The column
`errors`, which is the last one, may have line breaks of any kind, and the others carriage returns
and line feeds, since the reader cuts lines at more characters than the writer quotes. The names of
models and transports come from the arguments of the script, which have no line breaks and no NUL
bytes.

## What is read

A text with line breaks in it comes back as the rest of its row and rows of a single field, as
`Csv` says. Such a row has no status, so it adds nothing to the cases that are done
(`doneKey_of_length_eq_one`). A key that is missing, a column that is `None` and a text that is no
integer are the exceptions that the loop passes over. `int` is a parameter, which reads the digits
that `str` has written.
-/

namespace Bench

namespace ResultsCsv

open PythonText

/-! ### Writing -/

/-- `FIELDS`. -/
def fieldNames : List String :=
  ["timestamp_utc", "run_id", "host", "transport", "parallelism", "model", "concurrency",
    "max_tokens", "prompt_chars", "prompt_tokens_per_req", "requests_ok", "requests_failed",
    "status", "skip_reason", "wall_s", "total_prompt_tokens", "total_completion_tokens",
    "total_tps", "ttft_mean_s", "ttft_p50_s", "ttft_p95_s", "prefill_mean_s", "decode_mean_s",
    "decode_tps_mean", "output_tps_mean", "endpoint", "socket_ifname", "rdma_hca",
    "vllm_extra_args", "server_log", "errors"]

def statusText : Status → String
  | .ok => "ok"
  | .partialRun => "partial"
  | .failed => "failed"
  | .skipped => "skipped"

/-- `str` of an integer. -/
def str (n : ℤ) : List Char := (toString n).toList

/-- `row.get(field, "")`, for a row with these other columns. -/
def column (row : Row) (other : String → List Char) : String → List Char
  | "transport" => row.case.transport.toList
  | "parallelism" => row.parallelism.toList
  | "model" => row.case.model.toList
  | "concurrency" => str row.case.concurrency
  | "max_tokens" => str row.case.maxTokens
  | "requests_ok" => str row.requestsOk
  | "requests_failed" => str row.requestsFailed
  | "status" => (statusText row.status).toList
  | "skip_reason" => row.skipReason.toList
  | "socket_ifname" => row.socketIfname.toList
  | "rdma_hca" => row.rdmaHca.toList
  | field => other field

def csvRow (row : Row) (other : String → List Char) : List (List Char) :=
  fieldNames.map (column row other)

/-- `append_csv`: the text of the file, which may not be there before. -/
def appendCsv (file : Option (List Char)) (row : List (List Char)) : List Char :=
  match file with
  | some (c :: text) => c :: text ++ Csv.writeRow row
  | _ => Csv.writeRow (fieldNames.map String.toList) ++ Csv.writeRow row

/-- The file after these rows have been appended. -/
def appendRows (rows : List (Row × (String → List Char))) : Option (List Char) :=
  rows.foldl (fun file p ↦ some (appendCsv file (csvRow p.1 p.2))) none

/-! ### Reading -/

/-- `csv.field_size_limit()`. -/
def fieldSizeLimit : ℕ := 131072

/-- `int` on a string. -/
structure IntOfText where
  int : List Char → Option ℤ
  int_str : ∀ n : ℤ, int (str n) = some n

/-- A row of `csv.DictReader`: columns that the record does not have are `None`. -/
def dictRow (header record : List (List Char)) : List (List Char × Option (List Char)) :=
  OrderedDict.ofPairs (header.zip
    (record.map some ++ List.replicate (header.length - record.length) none))

/-- A member of the set `done`. -/
abbrev DoneKey := Option (List Char) × Option (List Char) × ℤ × ℤ

/-- What a row adds to `done`. A key that is missing, `None` as an integer and a text that is no
integer are the exceptions that the loop passes over. -/
def doneKey (ints : IntOfText) (row : List (List Char × Option (List Char))) : Option DoneKey := do
  let status := (OrderedDict.get? row "status".toList).join
  if status = some "ok".toList ∨ status = some "skipped".toList then
    let transport ← OrderedDict.get? row "transport".toList
    let model ← OrderedDict.get? row "model".toList
    let concurrency ← (OrderedDict.get? row "concurrency".toList).join.bind ints.int
    let maxTokens ← (OrderedDict.get? row "max_tokens".toList).join.bind ints.int
    some (transport, model, concurrency, maxTokens)
  else none

/-- The rows of `csv.DictReader`: the first record is the header, and empty records are skipped. -/
def dictRows : List (List (List Char)) → List (List (List Char × Option (List Char)))
  | [] => []
  | header :: records => (records.filter (· ≠ [])).map (dictRow header)

/-- The set `done`, from the text of the CSV file. -/
def readDone (ints : IntOfText) (text : List Char) : Except Csv.Error (List DoneKey) :=
  let lines := splitlines (text.filter (· ≠ '\x00'))
  (Csv.read fieldSizeLimit {} (lines.filter Csv.notBlank)).map fun records ↦
    (dictRows records).filterMap (doneKey ints)

/-- The key of a case in `done`. -/
def key (c : Case) : DoneKey :=
  (some c.transport.toList, some c.model.toList, c.concurrency, c.maxTokens)

/-- `make_plan`, on the text of the CSV file. -/
def makePlanFile (rnd : Sampler) (ints : IntOfText) (args : PlanArgs) (resume : Bool)
    (file : Option (List Char)) : Except Csv.Error (List Case) :=
  (match resume, file with
    | true, some text => readDone ints text
    | _, _ => .ok []).map fun done ↦
      let cases := if done ≠ [] then args.cases.filter (key · ∉ done) else args.cases
      (sampleOf rnd args cases).insertionSort fun a b ↦ args.key a ≤ args.key b

/-! ### Rows that are read back -/

/-- The row can be recorded: its names have no line break and no NUL byte, as the arguments of the
script have none, line breaks of the other columns are carriage returns and newlines, and no column
is longer than the reader admits. The column `errors` may have any line breaks. -/
structure Recordable (row : Row) (other : String → List Char) : Prop where
  names : ∀ c ∈ row.case.transport.toList ++ row.case.model.toList,
    isLineBreak c = false ∧ c ≠ '\x00'
  columns : ∀ field ∈ fieldNames, field ≠ "errors" →
    ∀ c ∈ column row other field, isLineBreak c → c = '\r' ∨ c = '\n'
  length_le : ∀ field ∈ fieldNames, (column row other field).length ≤ fieldSizeLimit

variable {rnd : Sampler} {ints : IntOfText} {args : PlanArgs} {row : Row}
  {other : String → List Char} {rows : List (Row × (String → List Char))}

/-! ### The text of the file -/

def header : List (List Char) := fieldNames.map String.toList

theorem writeRow_ne_nil (row : List (List Char)) : Csv.writeRow row ≠ [] := by
  rw [Csv.writeRow]
  exact List.append_ne_nil_of_right_ne_nil _ (by decide)

theorem appendCsv_some {text : List Char} (h : text ≠ []) (row : List (List Char)) :
    appendCsv (some text) row = text ++ Csv.writeRow row := by
  obtain ⟨c, text, rfl⟩ := List.exists_cons_of_ne_nil h
  rfl

/-- Appending row after row appends all the rows. -/
theorem foldl_appendCsv {text : List Char} (h : text ≠ []) :
    rows.foldl (fun file p ↦ some (appendCsv file (csvRow p.1 p.2))) (some text) =
      some (text ++ (rows.map fun p ↦ csvRow p.1 p.2).flatMap Csv.writeRow) := by
  induction rows generalizing text with
  | nil => simp
  | cons p rows ih =>
    rw [List.foldl_cons, appendCsv_some h, ih (List.append_ne_nil_of_left_ne_nil h _),
      List.map_cons, List.flatMap_cons, List.append_assoc]

/-- The file holds the header and the rows, in order. -/
theorem appendRows_of_ne_nil (h : rows ≠ []) : appendRows rows =
    some ((header :: rows.map fun p ↦ csvRow p.1 p.2).flatMap Csv.writeRow) := by
  obtain ⟨p, rows, rfl⟩ := List.exists_cons_of_ne_nil h
  have hne : Csv.writeRow header ++ Csv.writeRow (csvRow p.1 p.2) ≠ [] :=
    List.append_ne_nil_of_left_ne_nil (writeRow_ne_nil _) _
  have hfirst : appendCsv none (csvRow p.1 p.2) =
      Csv.writeRow header ++ Csv.writeRow (csvRow p.1 p.2) := rfl
  rw [appendRows, List.foldl_cons, hfirst, foldl_appendCsv hne, List.append_assoc]
  rfl

/-! ### Looking columns up -/

theorem nodup_header : header.Nodup := by decide

/-- A column of a row of `csv.DictReader` is what the record has at its place. -/
theorem get?_dictRow {header record : List (List Char)} (hnodup : header.Nodup) {i : ℕ}
    {name : List Char} (hname : header[i]? = some name) :
    OrderedDict.get? (dictRow header record) name = some record[i]? := by
  obtain ⟨hi, hname⟩ := List.getElem?_eq_some_iff.1 hname
  have hvalues : ∀ j < header.length,
      (record.map some ++ List.replicate (header.length - record.length) none)[j]? =
        some record[j]? := by
    intro j hj
    by_cases hrecord : j < record.length
    · rw [List.getElem?_append_left (by simpa using hrecord), List.getElem?_map,
        List.getElem?_eq_getElem hrecord]
      rfl
    · rw [List.getElem?_append_right (by simpa using hrecord), List.length_map,
        List.getElem?_replicate, if_pos (by omega), List.getElem?_eq_none (by omega)]
  refine OrderedDict.get?_ofPairs (fun b hb ↦ ?_) (List.mem_of_getElem? (i := i) ?_)
  · obtain ⟨j, hj⟩ := List.mem_iff_getElem?.1 hb
    obtain ⟨hname', hvalue⟩ := List.getElem?_zip_eq_some.1 hj
    obtain ⟨hj, hname'⟩ := List.getElem?_eq_some_iff.1 hname'
    obtain rfl : j = i := (hnodup.getElem_inj_iff).1 (hname'.trans hname.symm)
    exact (Option.some.inj ((hvalues j hj).symm.trans hvalue)).symm
  · exact List.getElem?_zip_eq_some.2 ⟨List.getElem?_eq_some_iff.2 ⟨hi, hname⟩, hvalues i hi⟩

/-- What a record adds to `done`, by the places of its columns. -/
theorem doneKey_dictRow (record : List (List Char)) :
    doneKey ints (dictRow header record) =
      if record[12]? = some "ok".toList ∨ record[12]? = some "skipped".toList then
        (record[6]?.bind ints.int).bind fun concurrency ↦ (record[7]?.bind ints.int).map
          fun maxTokens ↦ (record[3]?, record[5]?, concurrency, maxTokens)
      else none := by
  rw [doneKey, get?_dictRow nodup_header (i := 12) rfl, get?_dictRow nodup_header (i := 3) rfl,
    get?_dictRow nodup_header (i := 5) rfl, get?_dictRow nodup_header (i := 6) rfl,
    get?_dictRow nodup_header (i := 7) rfl]
  simp only [Option.join_some]
  split
  · rcases record[6]?.bind ints.int with _ | concurrency
    · rfl
    · rcases record[7]?.bind ints.int with _ | maxTokens
      · rfl
      · rfl
  · rfl

theorem doneKey_of_length_eq_one {record : List (List Char)} (h : record.length = 1) :
    doneKey ints (dictRow header record) = none := by
  rw [doneKey_dictRow, List.getElem?_eq_none (by omega)]
  simp

/-- Only the rows that are `ok` or `skipped` are done. -/
def rowDone (row : Row) : Option DoneKey :=
  if row.status = .ok ∨ row.status = .skipped then some (key row.case) else none

theorem filterMap_rowDone (rows : List Row) :
    rows.filterMap rowDone = (doneCases rows).map key := by
  rw [doneCases, List.map_map]
  induction rows with
  | nil => rfl
  | cons row rows ih =>
    by_cases h : row.status = .ok ∨ row.status = .skipped
    · have hrow : rowDone row = some (key row.case) := if_pos h
      rw [List.filterMap_cons_some hrow, List.filter_cons_of_pos (by simpa using h), ih]
      rfl
    · have hrow : rowDone row = none := if_neg h
      rw [List.filterMap_cons_none hrow, List.filter_cons_of_neg (by simpa using h), ih]

/-- Cases are told apart by their keys. -/
theorem key_injective : Function.Injective key := by
  intro c c' h
  obtain ⟨htransport, h⟩ := Prod.mk.inj h
  obtain ⟨hmodel, h⟩ := Prod.mk.inj h
  obtain ⟨hconcurrency, hmaxTokens⟩ := Prod.mk.inj h
  rcases c with ⟨transport, model, concurrency, maxTokens⟩
  rcases c' with ⟨transport', model', concurrency', maxTokens'⟩
  obtain rfl := String.toList_inj.1 (Option.some.inj htransport)
  obtain rfl := String.toList_inj.1 (Option.some.inj hmodel)
  obtain rfl : concurrency = concurrency' := hconcurrency
  obtain rfl : maxTokens = maxTokens' := hmaxTokens
  rfl

/-! ### Rows that are read back -/

/-- NUL bytes are dropped from the text. -/
def noNul (text : List Char) : List Char := text.filter (· ≠ '\x00')

theorem keeps_noNul : Csv.Keeps (· ≠ '\x00') where
  comma := by decide
  quote := by decide
  cr := by decide
  newline := by decide

theorem noNul_eq_self {text : List Char} (h : ∀ c ∈ text, c ≠ '\x00') : noNul text = text :=
  List.filter_eq_self.2 fun c hc ↦ decide_eq_true (h c hc)

theorem isLineBreak_of_mem_str {n : ℤ} : ∀ c ∈ str n, isLineBreak c = false ∧ c ≠ '\x00' := by
  have hdigits : ∀ m : ℕ, ∀ c ∈ (toString m).toList, isLineBreak c = false ∧ c ≠ '\x00' := by
    intro m c hc
    have hmem : c ∈ Nat.toDigits 10 m := by simpa [toString, Nat.repr] using hc
    have hdigit : c.isDigit := Nat.isDigit_of_mem_toDigits (by decide) (by decide) hmem
    have hrange : 48 ≤ c.toNat ∧ c.toNat ≤ 57 := Char.isDigit_iff_toNat.1 hdigit
    refine ⟨isLineBreak_of_not_isSpace (isSpace_of_toNat (by omega)), ?_⟩
    rintro rfl
    exact absurd hrange (by decide)
  intro c hc
  rcases n with m | m
  · exact hdigits m c hc
  · have htext : str (Int.negSucc m) = '-' :: (toString (m + 1)).toList := by
      simp [str, toString, Int.repr]
    rw [htext] at hc
    rcases List.mem_cons.1 hc with rfl | hc
    · exact ⟨by decide, by decide⟩
    · exact hdigits _ c hc

/-- The columns that the plan reads have no line breaks and no NUL bytes. -/
theorem Recordable.plain (h : Recordable row other) {field : String}
    (hfield : field ∈ ["transport", "model", "concurrency", "max_tokens", "status"]) :
    ∀ c ∈ column row other field, isLineBreak c = false ∧ c ≠ '\x00' := by
  simp only [List.mem_cons, List.not_mem_nil, or_false] at hfield
  rcases hfield with rfl | rfl | rfl | rfl | rfl
  · exact fun c hc ↦ h.names c (List.mem_append_left _ hc)
  · exact fun c hc ↦ h.names c (List.mem_append_right _ hc)
  · exact isLineBreak_of_mem_str
  · exact isLineBreak_of_mem_str
  · change ∀ c ∈ (statusText row.status).toList, _
    rcases row.status <;> decide

/-- A row that can be recorded is one that the reader admits, once its NUL bytes are dropped. -/
theorem Recordable.writable (h : Recordable row other) :
    Csv.Writable fieldSizeLimit ((csvRow row other).map noNul) where
  two_le_length := by
    rw [List.length_map, csvRow, List.length_map]
    decide
  whole := by
    intro text htext
    rw [csvRow, List.map_map, ← List.map_dropLast] at htext
    obtain ⟨field, hfield, rfl⟩ := List.mem_map.1 htext
    have hne : field ≠ "errors" := fun heq ↦ absurd (heq ▸ hfield) (by decide)
    have hcolumn := h.columns field (List.dropLast_subset _ hfield) hne
    by_cases hquotes : Csv.needsQuotes (column row other field)
    · exact Or.inl ((Csv.needsQuotes_filter keeps_noNul _).trans hquotes)
    · refine Or.inr (Csv.cut_eq_none_iff.2 fun c hc ↦ Bool.eq_false_iff.2 fun hbreak ↦ hquotes ?_)
      have hmem := (List.mem_filter.1 hc).1
      refine List.any_eq_true.2 ⟨c, hmem, decide_eq_true ?_⟩
      exact (hcolumn c hmem hbreak).elim (fun h ↦ Or.inr (Or.inr (Or.inl h)))
        fun h ↦ Or.inr (Or.inr (Or.inr h))
  length_le := by
    intro text htext
    rw [csvRow, List.map_map] at htext
    obtain ⟨field, hfield, rfl⟩ := List.mem_map.1 htext
    exact (List.length_filter_le _ _).trans (h.length_le field hfield)

/-- A record that a row is read back as says what the row says. -/
theorem Recordable.doneKey (h : Recordable row other) {record : List (List Char)}
    (hrecord : Csv.ReadBack ((csvRow row other).map noNul) record) :
    ResultsCsv.doneKey ints (dictRow header record) = rowDone row := by
  have hget : ∀ {i : ℕ} {field : String}, fieldNames[i]? = some field →
      field ∈ ["transport", "model", "concurrency", "max_tokens", "status"] →
      record[i]? = some (column row other field) := by
    intro i field hi hfield
    have hplain := h.plain hfield
    obtain ⟨hlength, hall⟩ := List.forall₂_iff_get.1 hrecord
    have hrow : ((csvRow row other).map noNul)[i]? = some (column row other field) := by
      rw [csvRow, List.map_map, List.getElem?_map, hi, Option.map_some, Function.comp_apply,
        noNul_eq_self fun c hc ↦ (hplain c hc).2]
    obtain ⟨hi, hrow⟩ := List.getElem?_eq_some_iff.1 hrow
    have hsame := hall i hi (hlength ▸ hi)
    rw [List.get_eq_getElem, List.get_eq_getElem, hrow] at hsame
    have hcut : Csv.cut (column row other field) = none :=
      Csv.cut_eq_none_iff.2 fun c hc ↦ (hplain c hc).1
    exact List.getElem?_eq_some_iff.2 ⟨hlength ▸ hi, hsame hcut⟩
  rw [doneKey_dictRow, hget (i := 12) rfl (by decide), hget (i := 6) rfl (by decide),
    hget (i := 7) rfl (by decide), hget (i := 3) rfl (by decide), hget (i := 5) rfl (by decide)]
  have hstatus : (some (column row other "status") = some "ok".toList ∨
      some (column row other "status") = some "skipped".toList) ↔
      (row.status = .ok ∨ row.status = .skipped) := by
    change (some (statusText row.status).toList = _ ∨ some (statusText row.status).toList = _) ↔ _
    rcases row.status <;> decide
  rw [rowDone]
  simp only [hstatus]
  refine if_congr Iff.rfl ?_ rfl
  change (ints.int (str row.case.concurrency)).bind _ = _
  rw [ints.int_str, Option.bind_some]
  change Option.map _ (ints.int (str row.case.maxTokens)) = _
  rw [ints.int_str, Option.map_some]
  rfl

theorem writable_header : Csv.Writable fieldSizeLimit (header.map noNul) where
  two_le_length := by decide
  whole text htext := by
    refine Or.inr (Csv.cut_eq_none_iff.2 ?_)
    revert text
    decide
  length_le := by decide

/-- Records of a single field add nothing. -/
theorem filterMap_doneKey_singles {singles : List (List (List Char))} (h : Csv.Singles singles) :
    singles.filterMap (doneKey ints ∘ dictRow header) = [] :=
  List.filterMap_eq_nil_iff.2 fun record hrecord ↦ doneKey_of_length_eq_one (h record hrecord)

/-- The records of the rows add what the rows say. -/
theorem filterMap_doneKey_blocks {blocks : List (List (List (List Char)))}
    (h : ∀ p ∈ rows, Recordable p.1 p.2)
    (hblocks : List.Forall₂ (fun row block ↦ ∃ record singles, block = record :: singles ∧
      Csv.ReadBack row record ∧ Csv.Singles singles)
      (rows.map fun p ↦ (csvRow p.1 p.2).map noNul) blocks) :
    blocks.flatten.filterMap (doneKey ints ∘ dictRow header) =
      (rows.map Prod.fst).filterMap rowDone := by
  induction rows generalizing blocks with
  | nil =>
    obtain rfl := List.forall₂_nil_left_iff.1 hblocks
    rfl
  | cons p rows ih =>
    obtain ⟨hp, hrows⟩ := List.forall_mem_cons.1 h
    obtain ⟨_, blocks, ⟨record, singles, rfl, hrecord, hsingles⟩, hrest, rfl⟩ :=
      List.forall₂_cons_left_iff.1 hblocks
    have hdone : (doneKey ints ∘ dictRow header) record = rowDone p.1 := hp.doneKey hrecord
    rw [List.flatten_cons, List.filterMap_append, List.filterMap_cons, hdone,
      filterMap_doneKey_singles hsingles, ih hrows hrest, List.map_cons, List.filterMap_cons]
    rcases rowDone p.1 with _ | key
    · rfl
    · rfl

theorem filterMap_dictRows (records : List (List (List Char))) :
    (dictRows (header :: records)).filterMap (doneKey ints) =
      records.filterMap (doneKey ints ∘ dictRow header) := by
  have hnil : (doneKey ints ∘ dictRow header) [] = none := by
    rw [Function.comp_apply, doneKey_dictRow]
    simp
  rw [dictRows, List.filterMap_map]
  induction records with
  | nil => rfl
  | cons record records ih =>
    by_cases hrecord : record = []
    · rw [hrecord, List.filter_cons_of_neg (by simp), ih, List.filterMap_cons_none hnil]
    · rw [List.filter_cons_of_pos (by simpa using hrecord), List.filterMap_cons,
        List.filterMap_cons, ih]

/-- **The set `done`** of a text of recorded rows. -/
theorem readDone_rows (h : ∀ p ∈ rows, Recordable p.1 p.2) :
    readDone ints ((header :: rows.map fun p ↦ csvRow p.1 p.2).flatMap Csv.writeRow) =
      .ok ((doneCases (rows.map Prod.fst)).map key) := by
  have hheader : header.map noNul = header := by decide
  -- taking the NULs out of the text takes them out of the fields
  have hfilter : ((header :: rows.map fun p ↦ csvRow p.1 p.2).flatMap Csv.writeRow).filter
      (· ≠ '\x00') =
        (header :: rows.map fun p ↦ (csvRow p.1 p.2).map noNul).flatMap Csv.writeRow := by
    have hrow : ∀ row ∈ header :: rows.map fun p ↦ csvRow p.1 p.2, 2 ≤ row.length := by
      refine List.forall_mem_cons.2 ⟨by decide, fun row hrow ↦ ?_⟩
      obtain ⟨p, -, rfl⟩ := List.mem_map.1 hrow
      rw [csvRow, List.length_map]
      decide
    rw [List.filter_flatMap, List.flatMap_congr fun row hmem ↦
      Csv.filter_writeRow keeps_noNul (hrow row hmem)]
    have hmap : (header :: rows.map fun p ↦ csvRow p.1 p.2).map (List.map noNul) =
        header :: rows.map fun p ↦ (csvRow p.1 p.2).map noNul := by
      rw [List.map_cons, hheader, List.map_map]
      rfl
    rw [← hmap, List.flatMap_map]
    rfl
  have hwritable : ∀ row ∈ header :: rows.map fun p ↦ (csvRow p.1 p.2).map noNul,
      Csv.Writable fieldSizeLimit row := by
    refine List.forall_mem_cons.2 ⟨hheader ▸ writable_header, fun row hrow ↦ ?_⟩
    obtain ⟨p, hp, rfl⟩ := List.mem_map.1 hrow
    exact (h p hp).writable
  obtain ⟨blocks, hblocks, hread⟩ := Csv.read_writeRows hwritable
  obtain ⟨_, blocks, ⟨record, singles, rfl, hrecord, hsingles⟩, hrest, rfl⟩ :=
    List.forall₂_cons_left_iff.1 hblocks
  have hcut : ∀ field ∈ header, Csv.cut field = none := by decide
  -- the first record is the header, whose field names hold no line break
  have hdone : (dictRows ((record :: singles) ++ blocks.flatten)).filterMap (doneKey ints) =
      (doneCases (rows.map Prod.fst)).map key := by
    rw [hrecord.eq hcut, List.cons_append, filterMap_dictRows, List.filterMap_append,
      filterMap_doneKey_singles hsingles, List.nil_append, filterMap_doneKey_blocks h hrest,
      filterMap_rowDone]
  rw [readDone, hfilter]
  exact (congrArg (Except.map _) hread).trans (congrArg Except.ok hdone)

/-- **A plan made from the text of the results file** is the plan made from the rows that the
clients recorded in it. -/
theorem makePlanFile_appendRows (rnd : Sampler) (ints : IntOfText) (args : PlanArgs)
    (rows : List (Row × (String → List Char))) (h : ∀ p ∈ rows, Recordable p.1 p.2) :
    makePlanFile rnd ints args true (appendRows rows) =
      .ok (makePlan rnd args true (rows.map Prod.fst)) := by
  rcases eq_or_ne rows [] with rfl | hne
  · rfl
  · have hmem : ∀ c : Case, key c ∈ (doneCases (rows.map Prod.fst)).map key ↔
        c ∈ doneCases (rows.map Prod.fst) := fun c ↦ List.mem_map_of_injective key_injective
    rw [appendRows_of_ne_nil hne, makePlanFile]
    dsimp only
    rw [readDone_rows h, makePlan, if_pos rfl]
    simp only [Except.map, hmem, ne_eq, List.map_eq_nil_iff]

/-- `int` on decimal digits with a sign. -/
def decimalInt : IntOfText where
  int
    | '-' :: digits => some (-(Nat.ofDigitChars 10 digits 0 : ℤ))
    | digits => some (Nat.ofDigitChars 10 digits 0 : ℤ)
  int_str n := by
    have hnat : ∀ m : ℕ, (toString m).toList = Nat.toDigits 10 m := fun m ↦ by
      simp [toString, Nat.repr]
    rcases n with m | m
    · have hstr : str (Int.ofNat m) = Nat.toDigits 10 m := hnat m
      rw [hstr]
      have hhead : ∀ digits, Nat.toDigits 10 m ≠ '-' :: digits := fun digits heq ↦ by
        have hdigit : ('-').isDigit := Nat.isDigit_of_mem_toDigits (b := 10) (n := m) (by decide)
          (by decide) (heq ▸ List.mem_cons_self)
        exact absurd hdigit (by decide)
      split
      next digits heq => exact absurd heq (hhead digits)
      · rw [Nat.ofDigitChars_ten_toDigits]
        rfl
    · have hstr : str (Int.negSucc m) = '-' :: Nat.toDigits 10 (m + 1) := by
        rw [← hnat]
        simp [str, toString, Int.repr]
      rw [hstr]
      simp only [Nat.ofDigitChars_ten_toDigits]
      rfl

/-- A case is done, and the requests of another one have failed with a text that has quotes, commas
and line breaks. -/
def twoRows : List (Row × (String → List Char)) :=
  [(okRow 4, fun _ ↦ []),
    ({ okRow 1 with status := .failed }, fun field ↦
      if field = "errors" then "HTTP 500: \"busy\",\n\n\u2028retry".toList else [])]

theorem makePlanFile_appendRows_twoRows :
    makePlanFile lastIndices decimalInt (twoCases 0) true (appendRows twoRows) =
      .ok (makePlan lastIndices (twoCases 0) true (twoRows.map Prod.fst)) := by
  refine makePlanFile_appendRows lastIndices decimalInt (twoCases 0) twoRows fun p hp ↦ ?_
  simp only [twoRows, List.mem_cons, List.not_mem_nil, or_false] at hp
  rcases hp with rfl | rfl
  · exact ⟨by decide, by decide, by decide⟩
  · exact ⟨by decide, by decide, by decide⟩

end ResultsCsv

end Bench
