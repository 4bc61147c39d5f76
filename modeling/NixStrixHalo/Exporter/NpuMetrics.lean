import NixStrixHalo.Exporter.HwContexts
import NixStrixHalo.Exporter.Printing

/-!
# The metrics of the NPU exporter

The exporter prints its metrics again and again. A scrape that finds no device prints that the NPU
is down; any other one asks the driver and prints what it is told, leaving out what the driver does
not answer. Whatever the driver answers, every text is a valid exposition, and it is read as the
report of its own scrape, with the identity of the first one that found the device
(`read_npuTexts`).

## The driver

`Answers` has one field for each query, and a query that fails has no answer. Which queries are
compiled in depends on the headers of the kernel (`Features`), and what is not compiled in leaves
the numbers of `struct npu` at zero. The identity of the NPU is read by the first scrape that finds
the device and kept from then on, so the texts of a run depend on more than the answers of their own
scrape.

## The proof

What is printed is the text of families (`emitAll_fst`), and these are well formed and have the
names that they should have, in an order without repetitions. `Fits` says both of a list of
families, and it is put together along the report: families that are left out take nothing from it.
The texts of an identity are printed from numbers into buffers, which may cut them, and what is left
can be the value of a label (`ok_readIdentity`).
-/

namespace Exporter

open Exposition (Label Family Sample)

/-! ### The driver -/

/-- Which queries the headers of the kernel have. -/
structure Features where
  /-- `HAVE_NPU_POWER_MODE`. -/
  powerMode : Bool
  /-- `HAVE_NPU_RESOURCE_INFO`. -/
  resourceInfo : Bool
  /-- `HAVE_NPU_GET_ARRAY`. -/
  getArray : Bool

/-- `struct amdxdna_drm_query_firmware_version`. -/
structure FirmwareVersion where
  major : UInt32
  minor : UInt32
  patch : UInt32
  build : UInt32

/-- `struct amdxdna_drm_query_aie_version`. -/
structure AieVersion where
  major : UInt32
  minor : UInt32

/-- What is used of a `struct amdxdna_drm_query_aie_metadata`. -/
structure AieMetadata where
  cols : UInt16
  rows : UInt16

/-- What is used of a `struct amdxdna_drm_query_clock_metadata`. -/
structure ClockMetadata where
  mpNpuMhz : UInt32
  hMhz : UInt32

/-- `struct amdxdna_drm_get_resource_info`. -/
structure ResourceInfo where
  npuClkMax : UInt64
  npuTopsMax : UInt64
  npuTaskMax : UInt64
  npuTopsCurr : UInt64
  npuTaskCurr : UInt64

/-- What the driver answers in one scrape; a query that fails has no answer. -/
structure Answers where
  firmwareVersion : Option FirmwareVersion
  aieVersion : Option AieVersion
  aieMetadata : Option AieMetadata
  /-- The answer while the identity is read. -/
  identityResources : Option ResourceInfo
  clockMetadata : Option ClockMetadata
  powerMode : Option UInt8
  resourceInfo : Option ResourceInfo
  hwContexts : Option GetArray
  /-- The memory from the array of contexts on. What lies behind the array is arbitrary. -/
  memory : ℕ → UInt8

/-! ### The source -/

/-- `struct npu`; the numbers that are not compiled in stay zero. -/
structure Npu where
  identified : Bool
  firmwareVersion : List Char
  aieVersion : List Char
  columns : UInt16
  rows : UInt16
  clkMaxMhz : UInt64
  topsMax : UInt64
  tasksMax : UInt64

/-- `struct npu state = {0}`. -/
def Npu.zero : Npu := ⟨false, [], [], 0, 0, 0, 0, 0⟩

variable (f : Features) (layout : EntryLayout)

/-- `read_identity`. -/
def readIdentity (a : Answers) (s : Npu) : Npu where
  identified := true
  firmwareVersion :=
    match a.firmwareVersion with
    | some fw => snprintf 32 (unsigned fw.major.toNat ++ '.' :: unsigned fw.minor.toNat ++
        '.' :: unsigned fw.patch.toNat ++ '.' :: unsigned fw.build.toNat)
    | none => snprintf 32 "unknown".toList
  aieVersion :=
    match a.aieVersion with
    | some aie => snprintf 16 (unsigned aie.major.toNat ++ '.' :: unsigned aie.minor.toNat)
    | none => snprintf 16 "unknown".toList
  columns := (a.aieMetadata.map AieMetadata.cols).getD s.columns
  rows := (a.aieMetadata.map AieMetadata.rows).getD s.rows
  clkMaxMhz :=
    if f.resourceInfo then (a.identityResources.map ResourceInfo.npuClkMax).getD s.clkMaxMhz
    else s.clkMaxMhz
  topsMax :=
    if f.resourceInfo then (a.identityResources.map ResourceInfo.npuTopsMax).getD s.topsMax
    else s.topsMax
  tasksMax :=
    if f.resourceInfo then (a.identityResources.map ResourceInfo.npuTaskMax).getD s.tasksMax
    else s.tasksMax

/-- A metric with one value and no labels. -/
def plain (metric help : String) (value : ℕ) : List Char :=
  header metric help "gauge" ++ (metric.toList ++ ' ' :: unsigned value ++ ['\n'])

/-- `emit_identity`. -/
def emitIdentity (s : Npu) : List Char :=
  header "amd_npu_info" "AMD XDNA NPU identity. Always 1." "gauge" ++
  ("amd_npu_info\x7bfirmware_version=\"".toList ++ s.firmwareVersion ++
    "\",aie_version=\"".toList ++ s.aieVersion ++ "\"\x7d 1\n".toList) ++
  (if s.columns ≠ 0 then
    plain "amd_npu_columns" "Total AIE array columns." s.columns.toNat ++
    plain "amd_npu_rows" "Total AIE array rows." s.rows.toNat
  else []) ++
  if f.resourceInfo ∧ s.clkMaxMhz ≠ 0 then
    header "amd_npu_clock_max_hertz" "Maximum H-clock frequency." "gauge" ++
    ("amd_npu_clock_max_hertz ".toList ++ Decimal.printG 8 (scaled s.clkMaxMhz.toNat 1000000) ++
      ['\n']) ++
    plain "amd_npu_tops_max" "Maximum NPU TOPs." s.topsMax.toNat ++
    plain "amd_npu_tasks_max" "Maximum concurrent NPU tasks." s.tasksMax.toNat
  else []

/-- `emit_clocks`. -/
def Npu.emitClocks (a : Answers) : List Char :=
  match a.clockMetadata with
  | none => []
  | some ck =>
    header "amd_npu_clock_hertz" "Current NPU clock frequency." "gauge" ++
    ("amd_npu_clock_hertz\x7bdomain=\"mp_npu\"\x7d ".toList ++
      Decimal.printG 8 (scaled ck.mpNpuMhz.toNat 1000000) ++ ['\n']) ++
    ("amd_npu_clock_hertz\x7bdomain=\"h\"\x7d ".toList ++
      Decimal.printG 8 (scaled ck.hMhz.toNat 1000000) ++ ['\n'])

/-- `emit_power_mode`. -/
def emitPowerMode (a : Answers) : List Char :=
  match a.powerMode with
  | none => []
  | some mode =>
    plain "amd_npu_power_mode" "Power mode: 0 default, 1 low, 2 medium, 3 high, 4 turbo."
      mode.toNat

/-- `emit_resource_load`. -/
def emitResourceLoad (a : Answers) : List Char :=
  match a.resourceInfo with
  | none => []
  | some ri =>
    plain "amd_npu_tops_current" "Currently available NPU TOPs." ri.npuTopsCurr.toNat ++
    plain "amd_npu_tasks_current" "NPU tasks currently scheduled." ri.npuTaskCurr.toNat

/-- `emit_all`; `time` is what the clock says. -/
def emitAll (time : ℕ) (a : Answers) (s : Npu) : List Char × Npu :=
  let s := if s.identified then s else readIdentity f a s
  (plain "amd_npu_up" "Whether the amdxdna NPU is present and responding." 1 ++
    plain "amd_npu_scrape_timestamp_seconds" "Unix time of the latest successful sample." time ++
    emitIdentity f s ++ Npu.emitClocks a ++
    (if f.powerMode then emitPowerMode a else []) ++
    (if f.resourceInfo then emitResourceLoad a else []) ++
    (if f.getArray then
      PythonText.unlines ((emitHwContexts layout a.hwContexts a.memory).map String.toList)
    else []), s)

/-- `emit_down`. -/
def emitDown : List Char :=
  plain "amd_npu_up" "Whether the amdxdna NPU is present and responding." 0

/-- A scrape: whether the device opens, and what the driver answers then. -/
inductive Scrape where
  | down
  | up (time : ℕ) (a : Answers)

/-- What a scrape prints, and the state it leaves. -/
def emitScrape (s : Npu) : Scrape → List Char × Npu
  | .down => (emitDown, s)
  | .up time a => emitAll f layout time a s

/-- What the scrapes of a run print. -/
def npuTexts (s : Npu) : List Scrape → List (List Char)
  | [] => []
  | scrape :: scrapes =>
    (emitScrape f layout s scrape).1 :: npuTexts (emitScrape f layout s scrape).2 scrapes

/-! ### Reports -/

/-- A family with one count. -/
def count (name help type : String) (n : ℕ) : Family Reading :=
  ⟨name.toList, help.toList, type.toList, [⟨[], .count n⟩]⟩

def upFamily (n : ℕ) : Family Reading :=
  count "amd_npu_up" "Whether the amdxdna NPU is present and responding." "gauge" n

def identityFamilies (s : Npu) : List (Family Reading) :=
  ⟨"amd_npu_info".toList, "AMD XDNA NPU identity. Always 1.".toList, "gauge".toList,
    [⟨[("firmware_version".toList, s.firmwareVersion), ("aie_version".toList, s.aieVersion)],
      .count 1⟩]⟩ ::
  (if s.columns ≠ 0 then
    [count "amd_npu_columns" "Total AIE array columns." "gauge" s.columns.toNat,
      count "amd_npu_rows" "Total AIE array rows." "gauge" s.rows.toNat]
  else []) ++
  if f.resourceInfo ∧ s.clkMaxMhz ≠ 0 then
    [⟨"amd_npu_clock_max_hertz".toList, "Maximum H-clock frequency.".toList, "gauge".toList,
        [⟨[], .scaled s.clkMaxMhz.toNat 1000000⟩]⟩,
      count "amd_npu_tops_max" "Maximum NPU TOPs." "gauge" s.topsMax.toNat,
      count "amd_npu_tasks_max" "Maximum concurrent NPU tasks." "gauge" s.tasksMax.toNat]
  else []

def clockFamilies (ck : ClockMetadata) : List (Family Reading) :=
  [⟨"amd_npu_clock_hertz".toList, "Current NPU clock frequency.".toList, "gauge".toList,
    [⟨[label "domain" "mp_npu"], .scaled ck.mpNpuMhz.toNat 1000000⟩,
      ⟨[label "domain" "h"], .scaled ck.hMhz.toNat 1000000⟩]⟩]

def powerModeFamilies (mode : UInt8) : List (Family Reading) :=
  [count "amd_npu_power_mode" "Power mode: 0 default, 1 low, 2 medium, 3 high, 4 turbo." "gauge"
    mode.toNat]

def resourceFamilies (ri : ResourceInfo) : List (Family Reading) :=
  [count "amd_npu_tops_current" "Currently available NPU TOPs." "gauge" ri.npuTopsCurr.toNat,
    count "amd_npu_tasks_current" "NPU tasks currently scheduled." "gauge" ri.npuTaskCurr.toNat]

def contextFamilies (t : HwContexts) : List (Family Reading) :=
  [count "amd_npu_hw_contexts" "Active NPU hardware contexts." "gauge" t.active.toNat,
    count "amd_npu_columns_in_use" "AIE columns bound to active contexts." "gauge"
      t.columnsInUse.toNat,
    count "amd_npu_command_submissions_total" "Commands submitted across contexts." "counter"
      t.submissions.toNat,
    count "amd_npu_command_completions_total" "Commands completed across contexts." "counter"
      t.completions.toNat,
    count "amd_npu_context_errors_total" "Context errors across contexts." "counter"
      t.errors.toNat]

/-- The families of an answer, if the query is compiled in and answered. -/
def answered {α : Type} (compiled : Bool) (families : α → List (Family Reading))
    (answer : Option α) : List (Family Reading) :=
  if compiled then answer.elim [] families else []

/-- The report of a scrape, for an NPU with an identity. -/
def report (time : ℕ) (a : Answers) (s : Npu) : List (Family Reading) :=
  upFamily 1 ::
  count "amd_npu_scrape_timestamp_seconds" "Unix time of the latest successful sample." "gauge"
    time ::
  identityFamilies f s ++ answered true clockFamilies a.clockMetadata ++
  answered f.powerMode powerModeFamilies a.powerMode ++
  answered f.resourceInfo resourceFamilies a.resourceInfo ++
  answered f.getArray (fun arr ↦ contextFamilies (arr.totals layout a.memory)) a.hwContexts

/-- The identity that the first scrape that finds the device reads. -/
def identity : List Scrape → Npu
  | [] => .zero
  | .down :: scrapes => identity scrapes
  | .up _ a :: _ => readIdentity f a .zero

/-- What a scrape reports of an NPU with an identity. -/
def scrapeReport (s : Npu) : Scrape → List (Family Reading)
  | .down => [upFamily 0]
  | .up time a => report f layout time a s

/-! ### What is printed is the report -/

section

variable {f : Features} {layout : EntryLayout}

theorem plain_eq (metric help : String) (n : ℕ) :
    plain metric help n = familyText (count metric help "gauge" n) := by
  rw [count, familyText_count, Exposition.braces, if_pos rfl, List.append_nil]
  rfl

theorem emitDown_eq : emitDown = [upFamily 0].flatMap familyText := by
  rw [List.flatMap_singleton]
  exact plain_eq _ _ _

/-- The line of `amd_npu_info`. -/
theorem npuInfoLine_eq (firmware aie : List Char) :
    "amd_npu_info\x7bfirmware_version=\"".toList ++ firmware ++ "\",aie_version=\"".toList ++ aie ++
        "\"\x7d 1\n".toList =
      "amd_npu_info".toList ++
        Exposition.braces [("firmware_version".toList, firmware), ("aie_version".toList, aie)] ++
        ' ' :: unsigned 1 ++ ['\n'] := by
  have h₁ : "amd_npu_info\x7bfirmware_version=\"".toList =
      "amd_npu_info".toList ++ '{' :: ("firmware_version".toList ++ ['=', '"']) := by decide
  have h₂ : "\",aie_version=\"".toList = '"' :: ',' :: ("aie_version".toList ++ ['=', '"']) := by
    decide
  have h₃ : "\"\x7d 1\n".toList = '"' :: '}' :: ' ' :: (unsigned 1 ++ ['\n']) := by decide
  rw [h₁, h₂, h₃, Exposition.braces, if_neg (List.cons_ne_nil _ _)]
  simp only [Exposition.writeLabels, List.append_assoc, List.cons_append, List.nil_append]

theorem familyText_scaled (name help type : String) (labels : List Label) (value : ℕ) (scale : ℚ) :
    familyText ⟨name.toList, help.toList, type.toList, [⟨labels, .scaled value scale⟩]⟩ =
      header name help type ++ (name.toList ++ Exposition.braces labels ++
        ' ' :: Decimal.printG 8 (scaled value scale) ++ ['\n']) := by
  rw [familyText_eq]
  exact congrArg (header name help type ++ ·) (List.flatMap_singleton _ _)

/-- The line of a number without labels. -/
theorem clockMaxLine_eq (text : List Char) :
    "amd_npu_clock_max_hertz ".toList ++ text ++ ['\n'] =
      "amd_npu_clock_max_hertz".toList ++ Exposition.braces [] ++ ' ' :: text ++ ['\n'] := by
  have h : "amd_npu_clock_max_hertz ".toList =
      "amd_npu_clock_max_hertz".toList ++ Exposition.braces [] ++ [' '] := by decide
  rw [h]
  simp only [List.append_assoc, List.cons_append, List.nil_append]

/-- The identity is printed as its families. -/
theorem emitIdentity_eq (s : Npu) :
    emitIdentity f s = (identityFamilies f s).flatMap familyText := by
  have hinfo := familyText_count "amd_npu_info" "AMD XDNA NPU identity. Always 1." "gauge"
    [("firmware_version".toList, s.firmwareVersion), ("aie_version".toList, s.aieVersion)] 1
  have hclock := familyText_scaled "amd_npu_clock_max_hertz" "Maximum H-clock frequency." "gauge" []
    s.clkMaxMhz.toNat 1000000
  rw [emitIdentity, npuInfoLine_eq, clockMaxLine_eq, identityFamilies, ← hinfo, ← hclock,
    List.flatMap_append, List.flatMap_cons]
  split_ifs <;> simp only [plain_eq, List.flatMap_cons, List.flatMap_nil, List.append_nil,
    List.append_assoc]

/-- The two lines of `amd_npu_clock_hertz`. -/
theorem clockLines_eq (first second : List Char) :
    "amd_npu_clock_hertz\x7bdomain=\"mp_npu\"\x7d ".toList ++ first ++ ['\n'] ++
        ("amd_npu_clock_hertz\x7bdomain=\"h\"\x7d ".toList ++ second ++ ['\n']) =
      "amd_npu_clock_hertz".toList ++ Exposition.braces [label "domain" "mp_npu"] ++ ' ' :: first ++
        ['\n'] ++ ("amd_npu_clock_hertz".toList ++ Exposition.braces [label "domain" "h"] ++
          ' ' :: second ++ ['\n']) := by
  have h₁ : "amd_npu_clock_hertz\x7bdomain=\"mp_npu\"\x7d ".toList =
      "amd_npu_clock_hertz".toList ++ Exposition.braces [label "domain" "mp_npu"] ++ [' '] := by
    decide
  have h₂ : "amd_npu_clock_hertz\x7bdomain=\"h\"\x7d ".toList =
      "amd_npu_clock_hertz".toList ++ Exposition.braces [label "domain" "h"] ++ [' '] := by decide
  rw [h₁, h₂]
  simp only [List.append_assoc, List.cons_append, List.nil_append]

/-- The text of an answer. -/
theorem ite_eq_answered {α : Type} (compiled : Bool) (families : α → List (Family Reading))
    (answer : Option α) {text : List Char} (hnone : answer = none → text = [])
    (hsome : ∀ x, answer = some x → text = (families x).flatMap familyText) :
    (if compiled then text else []) = (answered compiled families answer).flatMap familyText := by
  rw [answered]
  split_ifs
  · match answer with
    | none => exact hnone rfl
    | some x => exact hsome x rfl
  · rfl

theorem npu_emitClocks_eq (a : Answers) : Npu.emitClocks a =
    (answered true clockFamilies a.clockMetadata).flatMap familyText := by
  refine (if_pos rfl).symm.trans (ite_eq_answered true clockFamilies a.clockMetadata
    (fun h ↦ ?_) fun ck h ↦ ?_)
  · rw [Npu.emitClocks, h]
  rw [Npu.emitClocks, h, clockFamilies, List.flatMap_singleton, familyText_eq]
  show header _ _ _ ++ _ ++ _ = _
  rw [List.append_assoc, clockLines_eq, PythonText.unlines, List.map_cons, List.map_cons,
    List.map_nil, List.flatMap_cons, List.flatMap_singleton]
  rfl

/-- The lines of `metric` are those of a family with one count. -/
theorem unlines_metric (name help type : String) (n : ℕ) :
    PythonText.unlines ((metric name help type n).map String.toList) =
      familyText (count name help type n) := by
  have h₁ : "# HELP ".toList = ['#', ' ', 'H', 'E', 'L', 'P', ' '] := by decide
  have h₂ : "# TYPE ".toList = ['#', ' ', 'T', 'Y', 'P', 'E', ' '] := by decide
  have h₃ : " ".toList = [' '] := by decide
  have hlines : (metric name help type n).map String.toList =
      ["# HELP ".toList ++ name.toList ++ " ".toList ++ help.toList,
        "# TYPE ".toList ++ name.toList ++ " ".toList ++ type.toList,
        name.toList ++ " ".toList ++ unsigned n] := by
    simp only [metric, List.map_cons, List.map_nil, String.toList_append, String.toList_ofList]
    rfl
  rw [hlines, h₁, h₂, h₃, count, familyText_count, header, Exposition.braces, if_pos rfl,
    PythonText.unlines, List.flatMap_cons, List.flatMap_cons, List.flatMap_singleton]
  generalize unsigned n = digits
  simp only [List.append_assoc, List.cons_append, List.nil_append]

theorem unlines_lines (t : HwContexts) :
    PythonText.unlines (t.lines.map String.toList) = (contextFamilies t).flatMap familyText := by
  simp only [HwContexts.lines, List.map_append, contextFamilies, List.flatMap_cons,
    List.flatMap_nil, ← unlines_metric, PythonText.unlines, List.flatMap_append, List.append_nil,
    List.append_assoc]

/-- What a scrape that finds the device prints. -/
theorem emitAll_fst (time : ℕ) (a : Answers) (s : Npu) : (emitAll f layout time a s).1 =
    (report f layout time a (emitAll f layout time a s).2).flatMap familyText := by
  have hpower : (if f.powerMode then emitPowerMode a else []) = _ :=
    ite_eq_answered f.powerMode powerModeFamilies a.powerMode
      (fun h ↦ by rw [emitPowerMode, h]) fun mode h ↦ by
        rw [emitPowerMode, h, powerModeFamilies, List.flatMap_singleton]
        exact plain_eq _ _ _
  have hresource : (if f.resourceInfo then emitResourceLoad a else []) = _ :=
    ite_eq_answered f.resourceInfo resourceFamilies a.resourceInfo
      (fun h ↦ by rw [emitResourceLoad, h]) fun ri h ↦ by
        rw [emitResourceLoad, h, resourceFamilies, List.flatMap_cons, List.flatMap_singleton]
        show plain _ _ _ ++ plain _ _ _ = _
        rw [plain_eq, plain_eq]
  have hcontexts : (if f.getArray then PythonText.unlines
      ((emitHwContexts layout a.hwContexts a.memory).map String.toList) else []) = _ :=
    ite_eq_answered f.getArray (fun arr ↦ contextFamilies (GetArray.totals layout arr a.memory))
      a.hwContexts (fun h ↦ by rw [h]; rfl) fun arr h ↦ by rw [h]; exact unlines_lines _
  simp only [emitAll, report, hpower, hresource, hcontexts, emitIdentity_eq, npu_emitClocks_eq,
    plain_eq, upFamily, List.flatMap_append, List.flatMap_cons, List.append_assoc,
    List.cons_append]

end

/-! ### Every report is well formed -/

/-- Well-formed families whose names are, in order, among some names. -/
structure Fits (names : List (List Char)) (families : List (Family Reading)) : Prop where
  family : ∀ f ∈ families, f.WellFormed
  sublist : (families.map Family.name).Sublist names

namespace Fits

variable {names names' : List (List Char)} {families families' : List (Family Reading)}

theorem nil (names : List (List Char)) : Fits names [] := ⟨by simp, List.nil_sublist names⟩

theorem cons {f : Family Reading} (hf : f.WellFormed) (h : Fits names families) :
    Fits (f.name :: names) (f :: families) :=
  ⟨List.forall_mem_cons.2 ⟨hf, h.family⟩, h.sublist.cons_cons f.name⟩

theorem append (h : Fits names families) (h' : Fits names' families') :
    Fits (names ++ names') (families ++ families') := by
  refine ⟨List.forall_mem_append.2 ⟨h.family, h'.family⟩, ?_⟩
  rw [List.map_append]
  exact h.sublist.append h'.sublist

theorem ite {p : Prop} [Decidable p] (h : Fits names families) :
    Fits names (if p then families else []) := by
  split_ifs
  · exact h
  · exact nil names

theorem answered {α : Type} (compiled : Bool) {report : α → List (Family Reading)}
    {answer : Option α} (h : ∀ x, Fits names (report x)) :
    Fits names (Exporter.answered compiled report answer) := by
  rw [Exporter.answered]
  refine ite ?_
  match answer with
  | none => exact nil names
  | some x => exact h x

theorem wellFormed (h : Fits names families) (hnodup : names.Nodup) :
    Exposition.WellFormed families :=
  ⟨h.family, hnodup.sublist h.sublist⟩

end Fits

/-- The texts of an identity can be label values. -/
structure Npu.Ok (s : Npu) : Prop where
  firmwareVersion : s.firmwareVersion.all Exposition.isValueChar
  aieVersion : s.aieVersion.all Exposition.isValueChar

theorem all_snprintf (size : ℕ) {text : List Char} (h : text.all Exposition.isValueChar) :
    (snprintf size text).all Exposition.isValueChar :=
  List.all_eq_true.2 fun c hc ↦ List.all_eq_true.1 h c (List.mem_of_mem_take hc)

theorem ok_readIdentity (f : Features) (a : Answers) (s : Npu) : (readIdentity f a s).Ok := by
  constructor
  · rw [readIdentity]
    simp only
    split
    · refine all_snprintf 32 ?_
      simp [all_unsigned, Exposition.isValueChar]
    · exact all_snprintf 32 (by decide)
  · rw [readIdentity]
    simp only
    split
    · refine all_snprintf 16 ?_
      simp [all_unsigned, Exposition.isValueChar]
    · exact all_snprintf 16 (by decide)

/-- One family with one count. -/
theorem fits_count {name help type : String} (hname : Exposition.isName name.toList)
    (hhelp : help.toList.all Exposition.isHelpChar) (htype : Exposition.isType type.toList) (n : ℕ)
    {names : List (List Char)} {families : List (Family Reading)} (h : Fits names families) :
    Fits (name.toList :: names) (count name help type n :: families) :=
  Fits.cons (wellFormed_single hname hhelp htype (by decide)) h

theorem fits_identityFamilies (f : Features) {s : Npu} (hs : s.Ok) :
    Fits ("amd_npu_info".toList :: ["amd_npu_columns".toList, "amd_npu_rows".toList] ++
      ["amd_npu_clock_max_hertz".toList, "amd_npu_tops_max".toList, "amd_npu_tasks_max".toList])
      (identityFamilies f s) := by
  have hfirmware : Exposition.isName "firmware_version".toList := by decide
  have haie : Exposition.isName "aie_version".toList := by decide
  have hlabels : LabelsOk [("firmware_version".toList, s.firmwareVersion),
      ("aie_version".toList, s.aieVersion)] :=
    List.forall_mem_cons.2 ⟨⟨hfirmware, hs.firmwareVersion⟩,
      List.forall_mem_singleton.2 ⟨haie, hs.aieVersion⟩⟩
  have hinfo : Family.WellFormed ⟨"amd_npu_info".toList, "AMD XDNA NPU identity. Always 1.".toList,
      "gauge".toList, [⟨_, Reading.count 1⟩]⟩ :=
    wellFormed_single (by decide) (by decide) (by decide) hlabels
  have hmax : Family.WellFormed ⟨"amd_npu_clock_max_hertz".toList,
      "Maximum H-clock frequency.".toList, "gauge".toList,
      [⟨[], Reading.scaled s.clkMaxMhz.toNat 1000000⟩]⟩ :=
    wellFormed_single (by decide) (by decide) (by decide) (by decide)
  rw [identityFamilies]
  refine Fits.append (Fits.cons hinfo (Fits.ite ?_)) (Fits.ite ?_)
  · exact fits_count (by decide) (by decide) (by decide) _
      (fits_count (by decide) (by decide) (by decide) _ (Fits.nil []))
  · exact Fits.cons hmax (fits_count (by decide) (by decide) (by decide) _
      (fits_count (by decide) (by decide) (by decide) _ (Fits.nil [])))

theorem fits_clockFamilies (ck : ClockMetadata) :
    Fits ["amd_npu_clock_hertz".toList] (clockFamilies ck) := by
  have hname : Exposition.isName "amd_npu_clock_hertz".toList := by decide
  have hhelp : "Current NPU clock frequency.".toList.all Exposition.isHelpChar := by decide
  have htype : Exposition.isType "gauge".toList := by decide
  have hlabels : ∀ l ∈ [label "domain" "mp_npu", label "domain" "h"],
      Exposition.isName l.1 ∧ l.2.all Exposition.isValueChar := by decide
  have hdistinct : ¬ [label "domain" "mp_npu"].Perm [label "domain" "h"] := by decide
  have hclock : ∀ r r' : Reading, Family.WellFormed ⟨"amd_npu_clock_hertz".toList,
      "Current NPU clock frequency.".toList, "gauge".toList,
      [⟨[label "domain" "mp_npu"], r⟩, ⟨[label "domain" "h"], r'⟩]⟩ := by
    intro r r'
    refine ⟨hname, hhelp, htype, ?_, List.pairwise_pair.2 hdistinct⟩
    intro s hs l hl
    rcases List.mem_pair.1 hs with rfl | rfl
    · exact hlabels l (List.mem_pair.2 (Or.inl (List.mem_singleton.1 hl)))
    · exact hlabels l (List.mem_pair.2 (Or.inr (List.mem_singleton.1 hl)))
  exact Fits.cons (hclock _ _) (Fits.nil [])

theorem fits_powerModeFamilies (mode : UInt8) :
    Fits ["amd_npu_power_mode".toList] (powerModeFamilies mode) := by
  rw [powerModeFamilies]
  exact fits_count (by decide) (by decide) (by decide) _ (Fits.nil [])

theorem fits_resourceFamilies (ri : ResourceInfo) :
    Fits ["amd_npu_tops_current".toList, "amd_npu_tasks_current".toList] (resourceFamilies ri) := by
  rw [resourceFamilies]
  exact fits_count (by decide) (by decide) (by decide) _
    (fits_count (by decide) (by decide) (by decide) _ (Fits.nil []))

theorem fits_contextFamilies (t : HwContexts) :
    Fits ["amd_npu_hw_contexts".toList, "amd_npu_columns_in_use".toList,
      "amd_npu_command_submissions_total".toList, "amd_npu_command_completions_total".toList,
      "amd_npu_context_errors_total".toList] (contextFamilies t) := by
  rw [contextFamilies]
  exact fits_count (by decide) (by decide) (by decide) _
    (fits_count (by decide) (by decide) (by decide) _
      (fits_count (by decide) (by decide) (by decide) _
        (fits_count (by decide) (by decide) (by decide) _
          (fits_count (by decide) (by decide) (by decide) _ (Fits.nil [])))))

theorem fits_upFamily (n : ℕ) {names : List (List Char)} {families : List (Family Reading)}
    (h : Fits names families) : Fits ("amd_npu_up".toList :: names) (upFamily n :: families) := by
  rw [upFamily]
  exact fits_count (by decide) (by decide) (by decide) _ h

section

variable (f : Features) (layout : EntryLayout)

/-- **A report is well-formed**: no name is used twice, and no text breaks its line. -/
theorem wellFormed_report (time : ℕ) (a : Answers) {s : Npu} (hs : s.Ok) :
    Exposition.WellFormed (report f layout time a s) := by
  have htime : Fits _ (count "amd_npu_scrape_timestamp_seconds"
      "Unix time of the latest successful sample." "gauge" time :: identityFamilies f s) :=
    fits_count (by decide) (by decide) (by decide) time (fits_identityFamilies f hs)
  have hclocks : Fits _ (answered true clockFamilies a.clockMetadata) :=
    Fits.answered true fits_clockFamilies
  have hpower : Fits _ (answered f.powerMode powerModeFamilies a.powerMode) :=
    Fits.answered f.powerMode fits_powerModeFamilies
  have hresource : Fits _ (answered f.resourceInfo resourceFamilies a.resourceInfo) :=
    Fits.answered f.resourceInfo fits_resourceFamilies
  have hcontexts : Fits _ (answered f.getArray
      (fun arr ↦ contextFamilies (GetArray.totals layout arr a.memory)) a.hwContexts) :=
    Fits.answered f.getArray fun arr ↦ fits_contextFamilies _
  exact (((((fits_upFamily 1 htime).append hclocks).append hpower).append hresource).append
    hcontexts).wellFormed (by decide)

end

/-! ### Runs -/

section

variable {f : Features} {layout : EntryLayout} {s : Npu}

theorem read_emitDown : Exposition.read Decimal.read emitDown =
    some ([upFamily 0].map (Family.map Reading.value)) := by
  have h : Exposition.WellFormed [upFamily 0] :=
    (fits_upFamily 0 (Fits.nil [])).wellFormed (by decide)
  rw [emitDown_eq]
  exact read_flatMap_familyText h

/-- The text of a scrape is read back as its report. -/
theorem read_emitAll {time : ℕ} {a : Answers} (h : (emitAll f layout time a s).2.Ok) :
    Exposition.read Decimal.read (emitAll f layout time a s).1 =
      some ((report f layout time a (emitAll f layout time a s).2).map
        (Family.map Reading.value)) := by
  rw [emitAll_fst]
  exact read_flatMap_familyText (wellFormed_report f layout time a h)

/-- An identity is kept. -/
theorem emitScrape_of_identified (h : s.identified) (scrape : Scrape) :
    (emitScrape f layout s scrape).2 = s := by
  match scrape with
  | .down => rfl
  | .up _ _ => exact if_pos h

/-- A scrape of an NPU that has its identity. -/
theorem read_emitScrape (h : s.identified) (hs : s.Ok) (scrape : Scrape) :
    Exposition.read Decimal.read (emitScrape f layout s scrape).1 =
      some ((scrapeReport f layout s scrape).map (Family.map Reading.value)) := by
  match scrape with
  | .down => exact read_emitDown
  | .up time a =>
    have hkept : (emitAll f layout time a s).2 = s := if_pos h
    have hok : (emitAll f layout time a s).2.Ok := by
      rw [hkept]
      exact hs
    have hread := read_emitAll hok
    rwa [hkept] at hread

theorem read_npuTexts_of_identified (h : s.identified) (hs : s.Ok) (scrapes : List Scrape) :
    (npuTexts f layout s scrapes).map (Exposition.read Decimal.read) =
      scrapes.map fun scrape ↦
        some ((scrapeReport f layout s scrape).map (Family.map Reading.value)) := by
  induction scrapes with
  | nil => rfl
  | cons scrape scrapes ih =>
    rw [npuTexts, emitScrape_of_identified h, List.map_cons, List.map_cons,
      read_emitScrape h hs, ih]

end

/-- **The texts of a run** of scrapes with `--output`. Whatever the driver answers, every text is a
valid exposition; it is read as the report of its own scrape, and the identity in it is that of the
first scrape that found the device. Where a stride leads out of the array of contexts, what is read
there is whatever the memory behind the array holds. -/
theorem read_npuTexts (f : Features) (layout : EntryLayout) (scrapes : List Scrape) :
    (npuTexts f layout .zero scrapes).map (Exposition.read Decimal.read) =
      scrapes.map fun scrape ↦
        some ((scrapeReport f layout (identity f scrapes) scrape).map
          (Family.map Reading.value)) := by
  induction scrapes with
  | nil => rfl
  | cons scrape scrapes ih =>
    match scrape with
    | .down =>
      show Exposition.read Decimal.read emitDown :: (npuTexts f layout .zero scrapes).map _ = _
      rw [ih, read_emitDown]
      rfl
    | .up time a =>
      -- The first scrape that finds the device; from here on the identity is kept.
      have hok := ok_readIdentity f a .zero
      have hread : Exposition.read Decimal.read (emitAll f layout time a .zero).1 = _ :=
        read_emitAll hok
      show Exposition.read Decimal.read (emitAll f layout time a .zero).1 ::
        (npuTexts f layout (readIdentity f a .zero) scrapes).map _ = _
      rw [hread, read_npuTexts_of_identified rfl hok]
      rfl

end Exporter
