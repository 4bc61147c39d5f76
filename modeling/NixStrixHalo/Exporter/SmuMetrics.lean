import NixStrixHalo.Exporter.Printing
import NixStrixHalo.Exporter.Snapshot

/-!
# The metrics of the SMU exporter

`emit_metrics` prints the channels of an AMDGPU metrics table as text: a channel that the table
marks as absent is left out, every other one is scaled in floating point and printed with nine
significant digits. The text is a valid exposition, and what it is read as is the table
(`read_emitMetrics`): the channels that are present, in order, each with its number exactly where
that has nine digits at most.

## The table

The parts of `emit_metrics` are kept as the source has them, one definition each, and `smuGroups`
says the same as data: metrics with channels, each at an offset of the table with a scale and with
the numbers that mean that it is absent. Every part prints its groups (`emitTemperatures_eq` and its
like), and what follows is about channels and groups in general.

Nothing behind byte 255 of the table is looked at (`smuFamilies_congr`), so a longer table of the
same revision is read as its first 256 bytes.

## What a group needs

A family is well formed whatever the table says, if its name, its help text and the labels of its
channels are (`Group.Ok.wellFormed`). This is decided for the groups of the source once, and so is
what holds of the channels one by one (`Channel.Ok`).
-/

namespace Exporter

open Exposition (Label Family Sample)

/-! ### The source -/

/-- `read_le32`. -/
def readLe32 (data : Bytes) (offset : ℕ) : ℕ :=
  (data.getD offset 0).toNat + 256 * (data.getD (offset + 1) 0).toNat +
    65536 * (data.getD (offset + 2) 0).toNat + 16777216 * (data.getD (offset + 3) 0).toNat

/-- `"%s{%s} %.9g\n"`. -/
def scaledLine (metric label : List Char) (value : ℕ) (scale : ℚ) : List Char :=
  metric ++ '{' :: label ++ '}' :: ' ' :: Decimal.printG 8 (scaled value scale) ++ ['\n']

/-- `emit_u16_scaled`. -/
def emitU16Scaled (metric : String) (label : List Char) (value : ℕ) (scale : ℚ) : List Char :=
  if value ≠ 0xFFFF then scaledLine metric.toList label value scale else []

/-- `emit_u32_scaled`. -/
def emitU32Scaled (metric : String) (label : List Char) (value : ℕ) (scale : ℚ) : List Char :=
  if value ≠ 0xFFFFFFFF then scaledLine metric.toList label value scale else []

/-- `emit_temperature`. -/
def emitTemperature (label : List Char) (value : ℕ) : List Char :=
  if value ≠ 0 ∧ value ≠ 0xFFFF then
    scaledLine "amd_smu_temperature_celsius".toList label value 0.01
  else []

def clockDomains : List String := ["gfx", "soc", "vpe", "ipu", "fclk", "vcn", "memory", "mpipu"]

def throttleReasons : List String :=
  ["prochot", "spl", "fast_ppt", "slow_ppt", "thermal_core", "thermal_gfx", "thermal_soc"]

/-- The first part of `emit_metrics`, up to the timestamp; `time` is what the clock says. -/
def emitStatus (data : Bytes) (time : ℕ) : List Char :=
  let structureSize := readLe16 data 0
  header "amd_smu_exporter_up" "Whether a supported AMDGPU metrics table was read." "gauge" ++
  "amd_smu_exporter_up 1\n".toList ++
  header "amd_smu_metrics_info" "AMDGPU metrics table revision and size." "gauge" ++
  ("amd_smu_metrics_info\x7bformat_revision=\"".toList ++ unsigned (data.getD 2 0).toNat ++
    "\",content_revision=\"".toList ++ unsigned (data.getD 3 0).toNat ++
    "\",structure_size=\"".toList ++ unsigned structureSize ++ "\"\x7d 1\n".toList) ++
  header "amd_smu_metrics_timestamp_seconds" "Unix time of the latest successful sample." "gauge" ++
  ("amd_smu_metrics_timestamp_seconds ".toList ++ unsigned time ++ ['\n'])

section

variable (data : Bytes)

/-- The part of `emit_metrics` about temperatures; the other ones are below. -/
def emitTemperatures : List Char :=
  header "amd_smu_temperature_celsius" "Temperature reported by the SMU." "gauge" ++
  emitTemperature "domain=\"gfx\"".toList (readLe16 data 4) ++
  emitTemperature "domain=\"soc\"".toList (readLe16 data 6) ++
  ((List.range 16).flatMap fun core ↦
    emitTemperature (snprintf 32 ("domain=\"core\",core=\"".toList ++ unsigned core ++ ['"']))
      (readLe16 data (8 + core * 2))) ++
  emitTemperature "domain=\"skin\"".toList (readLe16 data 40)

def emitActivity : List Char :=
  header "amd_smu_activity_percent" "Time-filtered activity reported by the SMU." "gauge" ++
  emitU16Scaled "amd_smu_activity_percent" "domain=\"gfx\"".toList (readLe16 data 42) 1 ++
  emitU16Scaled "amd_smu_activity_percent" "domain=\"vcn\"".toList (readLe16 data 44) 1 ++
  ((List.range 8).flatMap fun domain ↦
    emitU16Scaled "amd_smu_activity_percent"
      (snprintf 32 ("domain=\"ipu\",unit=\"".toList ++ unsigned domain ++ ['"']))
      (readLe16 data (46 + domain * 2)) 1) ++
  (List.range 16).flatMap fun core ↦
    emitU16Scaled "amd_smu_activity_percent"
      (snprintf 32 ("domain=\"cpu_c0\",core=\"".toList ++ unsigned core ++ ['"']))
      (readLe16 data (62 + core * 2)) 1

def emitBandwidth : List Char :=
  header "amd_smu_dram_bandwidth_bytes_per_second" "Time-filtered DRAM traffic." "gauge" ++
  emitU16Scaled "amd_smu_dram_bandwidth_bytes_per_second" "direction=\"read\"".toList
    (readLe16 data 94) 1000000 ++
  emitU16Scaled "amd_smu_dram_bandwidth_bytes_per_second" "direction=\"write\"".toList
    (readLe16 data 96) 1000000

def emitPower : List Char :=
  header "amd_smu_power_watts" "Time-filtered power reported by the SMU." "gauge" ++
  emitU32Scaled "amd_smu_power_watts" "domain=\"socket\"".toList (readLe32 data 112) 0.001 ++
  emitU16Scaled "amd_smu_power_watts" "domain=\"ipu\"".toList (readLe16 data 116) 0.001 ++
  emitU32Scaled "amd_smu_power_watts" "domain=\"apu\"".toList (readLe32 data 120) 0.001 ++
  emitU32Scaled "amd_smu_power_watts" "domain=\"gfx\"".toList (readLe32 data 124) 0.001 ++
  emitU32Scaled "amd_smu_power_watts" "domain=\"dgpu\"".toList (readLe32 data 128) 0.001 ++
  emitU32Scaled "amd_smu_power_watts" "domain=\"cpu_cores\"".toList (readLe32 data 132) 0.001 ++
  ((List.range 16).flatMap fun core ↦
    emitU16Scaled "amd_smu_power_watts"
      (snprintf 32 ("domain=\"cpu_core\",core=\"".toList ++ unsigned core ++ ['"']))
      (readLe16 data (136 + core * 2)) 0.001) ++
  emitU16Scaled "amd_smu_power_watts" "domain=\"system\"".toList (readLe16 data 168) 0.001

def emitClocks : List Char :=
  header "amd_smu_clock_hertz" "Time-filtered target clock reported by the SMU." "gauge" ++
  ((List.range 8).flatMap fun domain ↦
    emitU16Scaled "amd_smu_clock_hertz"
      (snprintf 32 ("domain=\"".toList ++ (clockDomains.getD domain "").toList ++ ['"']))
      (readLe16 data (174 + domain * 2)) 1000000) ++
  (List.range 16).flatMap fun core ↦
    emitU16Scaled "amd_smu_clock_hertz"
      (snprintf 32 ("domain=\"cpu_core\",core=\"".toList ++ unsigned core ++ ['"']))
      (readLe16 data (190 + core * 2)) 1000000

def emitLimits : List Char :=
  header "amd_smu_frequency_limit_hertz" "Frequency limit currently enforced by firmware."
    "gauge" ++
  emitU16Scaled "amd_smu_frequency_limit_hertz" "domain=\"cpu\"".toList (readLe16 data 222)
    1000000 ++
  emitU16Scaled "amd_smu_frequency_limit_hertz" "domain=\"gfx\"".toList (readLe16 data 224)
    1000000

def emitThrottling : List Char :=
  header "amd_smu_throttle_residency_ticks_total"
    "Cumulative firmware PM timer ticks spent throttling." "counter" ++
  (List.range 7).flatMap fun domain ↦
    emitU32Scaled "amd_smu_throttle_residency_ticks_total"
      (snprintf 48 ("reason=\"".toList ++ (throttleReasons.getD domain "").toList ++ ['"']))
      (readLe32 data (228 + domain * 4)) 1

/-- `emit_metrics`. -/
def emitMetrics (time : ℕ) : List Char :=
  emitStatus data time ++ emitTemperatures data ++ emitActivity data ++ emitBandwidth data ++
    emitPower data ++ emitClocks data ++ emitLimits data ++ emitThrottling data

end

/-! ### The table -/

/-- Which numbers of a channel mean that it is absent. -/
inductive Kind where
  | u16
  | u32
  | temperature

/-- A channel of the metrics table. -/
structure Channel where
  labels : List Label
  kind : Kind
  offset : ℕ
  scale : ℚ

def Channel.raw (c : Channel) (data : Bytes) : ℕ :=
  match c.kind with
  | .u16 | .temperature => readLe16 data c.offset
  | .u32 => readLe32 data c.offset

def Channel.Absent (c : Channel) (data : Bytes) : Prop :=
  match c.kind with
  | .u16 => c.raw data = 0xFFFF
  | .u32 => c.raw data = 0xFFFFFFFF
  | .temperature => c.raw data = 0 ∨ c.raw data = 0xFFFF

instance (c : Channel) (data : Bytes) : Decidable (c.Absent data) := by
  unfold Channel.Absent
  split <;> infer_instance

def Channel.sample (data : Bytes) (c : Channel) : Option (Sample Reading) :=
  if c.Absent data then none else some ⟨c.labels, .scaled (c.raw data) c.scale⟩

/-- A metric and its channels. -/
structure Group where
  name : String
  help : String
  type : String
  channels : List Channel

def Group.family (data : Bytes) (g : Group) : Family Reading :=
  ⟨g.name.toList, g.help.toList, g.type.toList, g.channels.filterMap (Channel.sample data)⟩

def temperatureGroup : Group where
  name := "amd_smu_temperature_celsius"
  help := "Temperature reported by the SMU."
  type := "gauge"
  channels :=
    [⟨[label "domain" "gfx"], .temperature, 4, 0.01⟩,
      ⟨[label "domain" "soc"], .temperature, 6, 0.01⟩] ++
    ((List.range 16).map fun core ↦
      ⟨[label "domain" "core", index "core" core], .temperature, 8 + core * 2, 0.01⟩) ++
    [⟨[label "domain" "skin"], .temperature, 40, 0.01⟩]

def activityGroup : Group where
  name := "amd_smu_activity_percent"
  help := "Time-filtered activity reported by the SMU."
  type := "gauge"
  channels :=
    [⟨[label "domain" "gfx"], .u16, 42, 1⟩, ⟨[label "domain" "vcn"], .u16, 44, 1⟩] ++
    ((List.range 8).map fun domain ↦
      ⟨[label "domain" "ipu", index "unit" domain], .u16, 46 + domain * 2, 1⟩) ++
    (List.range 16).map fun core ↦
      ⟨[label "domain" "cpu_c0", index "core" core], .u16, 62 + core * 2, 1⟩

def bandwidthGroup : Group where
  name := "amd_smu_dram_bandwidth_bytes_per_second"
  help := "Time-filtered DRAM traffic."
  type := "gauge"
  channels :=
    [⟨[label "direction" "read"], .u16, 94, 1000000⟩,
      ⟨[label "direction" "write"], .u16, 96, 1000000⟩]

def powerGroup : Group where
  name := "amd_smu_power_watts"
  help := "Time-filtered power reported by the SMU."
  type := "gauge"
  channels :=
    [⟨[label "domain" "socket"], .u32, 112, 0.001⟩, ⟨[label "domain" "ipu"], .u16, 116, 0.001⟩,
      ⟨[label "domain" "apu"], .u32, 120, 0.001⟩, ⟨[label "domain" "gfx"], .u32, 124, 0.001⟩,
      ⟨[label "domain" "dgpu"], .u32, 128, 0.001⟩,
      ⟨[label "domain" "cpu_cores"], .u32, 132, 0.001⟩] ++
    ((List.range 16).map fun core ↦
      ⟨[label "domain" "cpu_core", index "core" core], .u16, 136 + core * 2, 0.001⟩) ++
    [⟨[label "domain" "system"], .u16, 168, 0.001⟩]

def clockGroup : Group where
  name := "amd_smu_clock_hertz"
  help := "Time-filtered target clock reported by the SMU."
  type := "gauge"
  channels :=
    ((List.range 8).map fun domain ↦
      ⟨[label "domain" (clockDomains.getD domain "")], .u16, 174 + domain * 2, 1000000⟩) ++
    (List.range 16).map fun core ↦
      ⟨[label "domain" "cpu_core", index "core" core], .u16, 190 + core * 2, 1000000⟩

def limitGroup : Group where
  name := "amd_smu_frequency_limit_hertz"
  help := "Frequency limit currently enforced by firmware."
  type := "gauge"
  channels :=
    [⟨[label "domain" "cpu"], .u16, 222, 1000000⟩, ⟨[label "domain" "gfx"], .u16, 224, 1000000⟩]

def throttleGroup : Group where
  name := "amd_smu_throttle_residency_ticks_total"
  help := "Cumulative firmware PM timer ticks spent throttling."
  type := "counter"
  channels :=
    (List.range 7).map fun domain ↦
      ⟨[label "reason" (throttleReasons.getD domain "")], .u32, 228 + domain * 4, 1⟩

/-- The channels of a metrics table. -/
def smuGroups : List Group :=
  [temperatureGroup, activityGroup, bandwidthGroup, powerGroup, clockGroup, limitGroup,
    throttleGroup]

/-- What says that there is a table, and which. -/
def statusFamilies (data : Bytes) (time : ℕ) : List (Family Reading) :=
  [ ⟨"amd_smu_exporter_up".toList, "Whether a supported AMDGPU metrics table was read.".toList,
      "gauge".toList, [⟨[], .count 1⟩]⟩,
    ⟨"amd_smu_metrics_info".toList, "AMDGPU metrics table revision and size.".toList,
      "gauge".toList,
      [⟨[index "format_revision" (data.getD 2 0).toNat,
          index "content_revision" (data.getD 3 0).toNat,
          index "structure_size" (readLe16 data 0)], .count 1⟩]⟩,
    ⟨"amd_smu_metrics_timestamp_seconds".toList,
      "Unix time of the latest successful sample.".toList, "gauge".toList, [⟨[], .count time⟩]⟩ ]

/-- What a metrics table says. -/
def smuFamilies (data : Bytes) (time : ℕ) : List (Family Reading) :=
  statusFamilies data time ++ smuGroups.map (Group.family data)

/-! ### What is printed is what the table says -/

section

variable {data : Bytes}

/-- The text of a channel. -/
def Channel.text (metric : String) (data : Bytes) (c : Channel) : List Char :=
  PythonText.unlines
    ((c.sample data).toList.map (Exposition.sampleLine Reading.print metric.toList))

theorem familyText_family (g : Group) : familyText (g.family data) =
    header g.name g.help g.type ++ g.channels.flatMap (Channel.text g.name data) := by
  rw [Group.family, familyText_eq]
  congr 1
  induction g.channels with
  | nil => rfl
  | cons c channels ih =>
    rw [List.flatMap_cons, ← ih, List.filterMap_cons, Channel.text]
    cases c.sample data with
    | none => rfl
    | some s => simp [PythonText.unlines]

theorem braces_append (metric labels text : List Char) :
    metric ++ ('{' :: labels ++ ['}']) ++ ' ' :: text ++ ['\n'] =
      metric ++ '{' :: labels ++ '}' :: ' ' :: text ++ ['\n'] := by
  simp only [List.append_assoc, List.cons_append, List.nil_append]

theorem text_of_not_absent (metric : String) {c : Channel} (hne : c.labels ≠ [])
    (h : ¬ c.Absent data) : c.text metric data =
      scaledLine metric.toList (Exposition.writeLabels c.labels) (c.raw data) c.scale := by
  have hprint : Reading.print (.scaled (c.raw data) c.scale) =
      Decimal.printG 8 (Exporter.scaled (c.raw data) c.scale) := rfl
  rw [Channel.text, Channel.sample, if_neg h, scaledLine]
  refine (List.flatMap_singleton _ _).trans ?_
  rw [Exposition.sampleLine, Exposition.braces, if_neg hne, hprint]
  exact braces_append _ _ _

/-- A channel without a value is not printed. -/
theorem text_of_absent (metric : String) {c : Channel} (h : c.Absent data) :
    c.text metric data = [] := by
  rw [Channel.text, Channel.sample, if_pos h]
  rfl

section

variable {metric : String} {text : List Char} {offset : ℕ} {scale : ℚ} (labels : List Label)
  (htext : text = Exposition.writeLabels labels) (hne : labels ≠ [])
include htext hne

theorem emitU16Scaled_eq : emitU16Scaled metric text (readLe16 data offset) scale =
    Channel.text metric data ⟨labels, .u16, offset, scale⟩ := by
  rw [emitU16Scaled, htext]
  split_ifs with h
  · exact (text_of_not_absent metric (c := ⟨labels, .u16, offset, scale⟩) hne h).symm
  · exact (text_of_absent metric (c := ⟨labels, .u16, offset, scale⟩) (not_not.1 h)).symm

theorem emitU32Scaled_eq : emitU32Scaled metric text (readLe32 data offset) scale =
    Channel.text metric data ⟨labels, .u32, offset, scale⟩ := by
  rw [emitU32Scaled, htext]
  split_ifs with h
  · exact (text_of_not_absent metric (c := ⟨labels, .u32, offset, scale⟩) hne h).symm
  · exact (text_of_absent metric (c := ⟨labels, .u32, offset, scale⟩) (not_not.1 h)).symm

theorem emitTemperature_eq : emitTemperature text (readLe16 data offset) =
    Channel.text "amd_smu_temperature_celsius" data ⟨labels, .temperature, offset, 0.01⟩ := by
  rw [emitTemperature, htext]
  split_ifs with h
  · exact (text_of_not_absent _ (c := ⟨labels, .temperature, offset, 0.01⟩) hne
      (not_or.2 h)).symm
  · exact (text_of_absent _ (c := ⟨labels, .temperature, offset, 0.01⟩)
      (by_contra fun habsent ↦ h (not_or.1 habsent))).symm

end

/-- The channels of a loop. -/
theorem flatMap_range_eq {n : ℕ} {emit : ℕ → List Char} {metric : String} {channel : ℕ → Channel}
    (h : ∀ k < n, emit k = (channel k).text metric data) :
    (List.range n).flatMap emit =
      ((List.range n).map channel).flatMap (Channel.text metric data) := by
  rw [List.flatMap_map]
  exact List.flatMap_congr fun k hk ↦ h k (List.mem_range.1 hk)

/-- The labels of the loops are not cut. -/
theorem snprintf_core : ∀ core < 16,
    snprintf 32 ("domain=\"core\",core=\"".toList ++ unsigned core ++ ['"']) =
      Exposition.writeLabels [label "domain" "core", index "core" core] := by
  decide

theorem snprintf_ipu : ∀ domain < 8,
    snprintf 32 ("domain=\"ipu\",unit=\"".toList ++ unsigned domain ++ ['"']) =
      Exposition.writeLabels [label "domain" "ipu", index "unit" domain] := by
  decide

theorem snprintf_cpuC0 : ∀ core < 16,
    snprintf 32 ("domain=\"cpu_c0\",core=\"".toList ++ unsigned core ++ ['"']) =
      Exposition.writeLabels [label "domain" "cpu_c0", index "core" core] := by
  decide

theorem snprintf_cpuCore : ∀ core < 16,
    snprintf 32 ("domain=\"cpu_core\",core=\"".toList ++ unsigned core ++ ['"']) =
      Exposition.writeLabels [label "domain" "cpu_core", index "core" core] := by
  decide

theorem snprintf_clockDomain : ∀ domain < 8,
    snprintf 32 ("domain=\"".toList ++ (clockDomains.getD domain "").toList ++ ['"']) =
      Exposition.writeLabels [label "domain" (clockDomains.getD domain "")] := by
  decide

theorem snprintf_throttleReason : ∀ domain < 7,
    snprintf 48 ("reason=\"".toList ++ (throttleReasons.getD domain "").toList ++ ['"']) =
      Exposition.writeLabels [label "reason" (throttleReasons.getD domain "")] := by
  decide

theorem emitTemperatures_eq :
    emitTemperatures data = familyText (temperatureGroup.family data) := by
  rw [familyText_family, emitTemperatures, emitTemperature_eq [label "domain" "gfx"],
    emitTemperature_eq [label "domain" "soc"], emitTemperature_eq [label "domain" "skin"],
    flatMap_range_eq fun core hcore ↦
      emitTemperature_eq _ (snprintf_core core hcore) (List.cons_ne_nil _ _)]
  · simp only [temperatureGroup, List.flatMap_append, List.flatMap_cons, List.flatMap_nil,
      List.append_nil, List.append_assoc]
  all_goals decide

theorem emitActivity_eq : emitActivity data = familyText (activityGroup.family data) := by
  rw [familyText_family, emitActivity, emitU16Scaled_eq [label "domain" "gfx"],
    emitU16Scaled_eq [label "domain" "vcn"],
    flatMap_range_eq fun domain hdomain ↦
      emitU16Scaled_eq _ (snprintf_ipu domain hdomain) (List.cons_ne_nil _ _),
    flatMap_range_eq fun core hcore ↦
      emitU16Scaled_eq _ (snprintf_cpuC0 core hcore) (List.cons_ne_nil _ _)]
  · simp only [activityGroup, List.flatMap_append, List.flatMap_cons, List.flatMap_nil,
      List.append_nil, List.append_assoc]
  all_goals decide

theorem emitBandwidth_eq : emitBandwidth data = familyText (bandwidthGroup.family data) := by
  rw [familyText_family, emitBandwidth, emitU16Scaled_eq [label "direction" "read"],
    emitU16Scaled_eq [label "direction" "write"]]
  · simp only [bandwidthGroup, List.flatMap_cons, List.flatMap_nil, List.append_nil,
      List.append_assoc]
  all_goals decide

theorem emitPower_eq : emitPower data = familyText (powerGroup.family data) := by
  rw [familyText_family, emitPower, emitU32Scaled_eq [label "domain" "socket"],
    emitU16Scaled_eq [label "domain" "ipu"], emitU32Scaled_eq [label "domain" "apu"],
    emitU32Scaled_eq [label "domain" "gfx"], emitU32Scaled_eq [label "domain" "dgpu"],
    emitU32Scaled_eq [label "domain" "cpu_cores"], emitU16Scaled_eq [label "domain" "system"],
    flatMap_range_eq fun core hcore ↦
      emitU16Scaled_eq _ (snprintf_cpuCore core hcore) (List.cons_ne_nil _ _)]
  · simp only [powerGroup, List.flatMap_append, List.flatMap_cons, List.flatMap_nil,
      List.append_nil, List.append_assoc]
  all_goals decide

theorem emitClocks_eq : emitClocks data = familyText (clockGroup.family data) := by
  rw [familyText_family, emitClocks,
    flatMap_range_eq fun domain hdomain ↦
      emitU16Scaled_eq _ (snprintf_clockDomain domain hdomain) (List.cons_ne_nil _ _),
    flatMap_range_eq fun core hcore ↦
      emitU16Scaled_eq _ (snprintf_cpuCore core hcore) (List.cons_ne_nil _ _)]
  simp only [clockGroup, List.flatMap_append, List.append_assoc]

theorem emitLimits_eq : emitLimits data = familyText (limitGroup.family data) := by
  rw [familyText_family, emitLimits, emitU16Scaled_eq [label "domain" "cpu"],
    emitU16Scaled_eq [label "domain" "gfx"]]
  · simp only [limitGroup, List.flatMap_cons, List.flatMap_nil, List.append_nil,
      List.append_assoc]
  all_goals decide

theorem emitThrottling_eq : emitThrottling data = familyText (throttleGroup.family data) := by
  rw [familyText_family, emitThrottling,
    flatMap_range_eq fun domain hdomain ↦
      emitU32Scaled_eq _ (snprintf_throttleReason domain hdomain) (List.cons_ne_nil _ _)]
  rfl

/-- The line of `amd_smu_metrics_info`. -/
theorem infoLine_eq (format content size : ℕ) :
    "amd_smu_metrics_info\x7bformat_revision=\"".toList ++ unsigned format ++
        "\",content_revision=\"".toList ++ unsigned content ++ "\",structure_size=\"".toList ++
        unsigned size ++ "\"\x7d 1\n".toList =
      "amd_smu_metrics_info".toList ++
        Exposition.braces [index "format_revision" format, index "content_revision" content,
          index "structure_size" size] ++ ' ' :: unsigned 1 ++ ['\n'] := by
  have h₁ : "amd_smu_metrics_info\x7bformat_revision=\"".toList =
      "amd_smu_metrics_info".toList ++ '{' :: ("format_revision".toList ++ ['=', '"']) := by decide
  have h₂ : "\",content_revision=\"".toList =
      '"' :: ',' :: ("content_revision".toList ++ ['=', '"']) := by decide
  have h₃ : "\",structure_size=\"".toList =
      '"' :: ',' :: ("structure_size".toList ++ ['=', '"']) := by decide
  have h₄ : "\"\x7d 1\n".toList = '"' :: '}' :: ' ' :: (unsigned 1 ++ ['\n']) := by decide
  rw [h₁, h₂, h₃, h₄, Exposition.braces, if_neg (List.cons_ne_nil _ _)]
  simp only [Exposition.writeLabels, index, List.append_assoc, List.cons_append, List.nil_append]

theorem emitStatus_eq (time : ℕ) :
    emitStatus data time = (statusFamilies data time).flatMap familyText := by
  have hup : "amd_smu_exporter_up 1\n".toList =
      "amd_smu_exporter_up".toList ++ Exposition.braces [] ++ ' ' :: unsigned 1 ++ ['\n'] := by
    decide
  have htime : "amd_smu_metrics_timestamp_seconds ".toList =
      "amd_smu_metrics_timestamp_seconds".toList ++ Exposition.braces [] ++ [' '] := by decide
  simp only [emitStatus, infoLine_eq, hup, htime, statusFamilies, List.flatMap_cons,
    List.flatMap_nil, familyText_count]
  simp only [List.append_assoc, List.cons_append, List.nil_append, List.append_nil]

theorem emitMetrics_eq (time : ℕ) :
    emitMetrics data time = (smuFamilies data time).flatMap familyText := by
  rw [smuFamilies, List.flatMap_append, ← emitStatus_eq, emitMetrics, emitTemperatures_eq,
    emitActivity_eq, emitBandwidth_eq, emitPower_eq, emitClocks_eq, emitLimits_eq,
    emitThrottling_eq]
  simp only [smuGroups, List.map_cons, List.map_nil, List.flatMap_cons, List.flatMap_nil,
    List.append_nil, List.append_assoc]

end

/-! ### The exposition is well formed -/

/-- What the family of a group needs, whatever the table says. -/
structure Group.Ok (g : Group) : Prop where
  name : Exposition.isName g.name.toList
  help : g.help.toList.all Exposition.isHelpChar
  type : Exposition.isType g.type.toList
  labels : ∀ c ∈ g.channels, LabelsOk c.labels
  distinct : g.channels.Pairwise fun c d ↦ ¬ c.labels.Perm d.labels

theorem ok_of_mem_smuGroups {g : Group} (hg : g ∈ smuGroups) : g.Ok := by
  simp only [smuGroups, List.mem_cons, List.not_mem_nil, or_false] at hg
  rcases hg with rfl | rfl | rfl | rfl | rfl | rfl | rfl <;> constructor <;> decide

section

variable {data : Bytes}

theorem labels_of_sample {c : Channel} {s : Sample Reading} (h : c.sample data = some s) :
    s.labels = c.labels := by
  rw [Channel.sample] at h
  split_ifs at h
  obtain rfl := Option.some.inj h
  rfl

theorem Group.Ok.wellFormed {g : Group} (h : g.Ok) : (g.family data).WellFormed where
  name := h.name
  help := h.help
  type := h.type
  labels s hs := by
    obtain ⟨c, hc, hsample⟩ := List.mem_filterMap.1 hs
    rw [labels_of_sample hsample]
    exact h.labels c hc
  distinct := by
    refine h.distinct.filterMap _ fun c d hcd s hs t ht ↦ ?_
    rwa [labels_of_sample hs, labels_of_sample ht]

theorem wellFormed_of_mem_statusFamilies {f : Family Reading} {time : ℕ}
    (hf : f ∈ statusFamilies data time) : f.WellFormed := by
  simp only [statusFamilies, List.mem_cons, List.not_mem_nil, or_false] at hf
  rcases hf with rfl | rfl | rfl
  · exact wellFormed_single (by decide) (by decide) (by decide) (by decide)
  · refine wellFormed_single (by decide) (by decide) (by decide) ?_
    exact List.forall_mem_cons.2 ⟨index_ok (by decide), List.forall_mem_cons.2
      ⟨index_ok (by decide), List.forall_mem_singleton.2 (index_ok (by decide))⟩⟩
  · exact wellFormed_single (by decide) (by decide) (by decide) (by decide)

theorem wellFormed_smuFamilies (data : Bytes) (time : ℕ) :
    Exposition.WellFormed (smuFamilies data time) where
  family f hf := by
    rcases List.mem_append.1 hf with hf | hf
    · exact wellFormed_of_mem_statusFamilies hf
    · obtain ⟨g, hg, rfl⟩ := List.mem_map.1 hf
      exact (ok_of_mem_smuGroups hg).wellFormed
  nodup := by
    show (["amd_smu_exporter_up", "amd_smu_metrics_info", "amd_smu_metrics_timestamp_seconds",
      "amd_smu_temperature_celsius", "amd_smu_activity_percent",
      "amd_smu_dram_bandwidth_bytes_per_second", "amd_smu_power_watts", "amd_smu_clock_hertz",
      "amd_smu_frequency_limit_hertz",
      "amd_smu_throttle_residency_ticks_total"].map String.toList).Nodup
    decide

end

/-! ### What is looked at -/

theorem readLe16_lt (data : Bytes) (offset : ℕ) : readLe16 data offset < 2 ^ 16 := by
  have h₀ := UInt8.toNat_lt (data.getD offset 0)
  have h₁ := UInt8.toNat_lt (data.getD (offset + 1) 0)
  rw [readLe16]
  omega

theorem readLe32_lt (data : Bytes) (offset : ℕ) : readLe32 data offset < 2 ^ 32 := by
  have h₀ := UInt8.toNat_lt (data.getD offset 0)
  have h₁ := UInt8.toNat_lt (data.getD (offset + 1) 0)
  have h₂ := UInt8.toNat_lt (data.getD (offset + 2) 0)
  have h₃ := UInt8.toNat_lt (data.getD (offset + 3) 0)
  rw [readLe32]
  omega

theorem Channel.raw_lt (c : Channel) (data : Bytes) : c.raw data < 2 ^ 32 := by
  have h16 := readLe16_lt data c.offset
  have h32 := readLe32_lt data c.offset
  rw [Channel.raw]
  split <;> omega

/-- What holds of the channels one by one: the last byte of a number is among the first 256, and the
scale is a power of ten. -/
structure Channel.Ok (c : Channel) : Prop where
  within : c.offset + (match c.kind with | .u16 | .temperature => 2 | .u32 => 4) ≤ 256
  scale : c.scale ∈ ([0.001, 0.01, 1, 1000000] : List ℚ)

theorem ok_of_mem_channels {g : Group} (hg : g ∈ smuGroups) {c : Channel} (hc : c ∈ g.channels) :
    c.Ok := by
  have hwithin : ∀ g ∈ smuGroups, ∀ c ∈ g.channels,
      c.offset + (match c.kind with | .u16 | .temperature => 2 | .u32 => 4) ≤ 256 := by decide
  refine ⟨hwithin g hg c hc, ?_⟩
  simp only [smuGroups, List.mem_cons, List.not_mem_nil, or_false] at hg
  rcases hg with rfl | rfl | rfl | rfl | rfl | rfl | rfl <;> revert c <;>
    simp [temperatureGroup, activityGroup, bandwidthGroup, powerGroup, clockGroup, limitGroup,
      throttleGroup, or_imp, forall_and]

section

variable {data data' : Bytes} (h : data.take 256 = data'.take 256)
include h

theorem getD_congr {i : ℕ} (hi : i < 256) : data.getD i 0 = data'.getD i 0 := by
  have hget := congrArg (fun bytes : Bytes ↦ bytes.getD i 0) h
  simpa [List.getD_eq_getElem?_getD, List.getElem?_take, hi] using hget

theorem readLe16_congr {offset : ℕ} (hoffset : offset + 2 ≤ 256) :
    readLe16 data offset = readLe16 data' offset := by
  rw [readLe16, readLe16, getD_congr h (by omega), getD_congr h (by omega)]

theorem readLe32_congr {offset : ℕ} (hoffset : offset + 4 ≤ 256) :
    readLe32 data offset = readLe32 data' offset := by
  rw [readLe32, readLe32, getD_congr h (by omega), getD_congr h (by omega),
    getD_congr h (by omega), getD_congr h (by omega)]

theorem Channel.raw_congr {c : Channel} (hc : c.Ok) : c.raw data = c.raw data' := by
  obtain ⟨labels, kind, offset, scale⟩ := c
  match kind with
  | .u16 => exact readLe16_congr h hc.within
  | .u32 => exact readLe32_congr h hc.within
  | .temperature => exact readLe16_congr h hc.within

theorem Channel.sample_congr {c : Channel} (hc : c.Ok) : c.sample data = c.sample data' := by
  have hraw := Channel.raw_congr h hc
  have habsent : c.Absent data ↔ c.Absent data' := by
    unfold Channel.Absent
    split <;> rw [hraw]
  rw [Channel.sample, Channel.sample, hraw]
  exact if_congr habsent rfl rfl

/-- Only the bytes of the table are read. -/
theorem smuFamilies_congr (time : ℕ) : smuFamilies data time = smuFamilies data' time := by
  have hstatus : statusFamilies data time = statusFamilies data' time := by
    rw [statusFamilies, statusFamilies, getD_congr h (by decide : 2 < 256),
      getD_congr h (by decide : 3 < 256), readLe16_congr h (by decide : 0 + 2 ≤ 256)]
  have hgroups : smuGroups.map (Group.family data) = smuGroups.map (Group.family data') := by
    refine List.map_congr_left fun g hg ↦ congrArg (Family.mk _ _ _) ?_
    exact List.filterMap_congr fun c hc ↦ Channel.sample_congr h (ok_of_mem_channels hg hc)
  rw [smuFamilies, smuFamilies, hstatus, hgroups]

end

/-- **What the exporter prints is what the metrics table says.** The text is read as the families of
the table: every channel that is not marked as absent, once, and no other; its number is off by a
relative `10 ^ -8` at most, and exact where it has nine digits. Only the first 256 bytes of the
table matter, all of which a table that is accepted has. -/
theorem read_emitMetrics (data : Bytes) (time : ℕ) :
    Exposition.read Decimal.read (emitMetrics data time) =
      some ((smuFamilies data time).map (Family.map Reading.value)) ∧
    (∀ g ∈ smuGroups, ∀ c ∈ g.channels,
      |(Reading.scaled (c.raw data) c.scale).value - c.raw data * c.scale| ≤
        c.raw data * c.scale / 10 ^ 8 ∧
      (c.raw data < 10 ^ 9 →
        (Reading.scaled (c.raw data) c.scale).value = c.raw data * c.scale)) ∧
    ∀ data' : Bytes, data'.take 256 = data.take 256 →
      emitMetrics data' time = emitMetrics data time := by
  refine ⟨?_, fun g hg c hc ↦ ?_, fun data' h ↦ ?_⟩
  · rw [emitMetrics_eq]
    exact read_flatMap_familyText (wellFormed_smuFamilies data time)
  · exact value_scaled (c.raw_lt data) (ok_of_mem_channels hg hc).scale
  · rw [emitMetrics_eq, emitMetrics_eq, smuFamilies_congr h]

end Exporter
