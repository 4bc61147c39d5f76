import NixStrixHalo.Library.Decimal
import NixStrixHalo.Library.Exposition

/-!
# Printing metrics

Both exporters print metrics with `fprintf`: counts with `%u` and its like, and numbers that are
scaled in floating point with `%.9g`. A number that is printed is read back (`read_print`).

## Scaled numbers

A channel holds an integer, which is multiplied with a power of ten in `double` and printed with
nine significant digits. The product is off by a rounding of the scale and one of the product
(`abs_scaled_sub_le`), which is too little to change nine digits: a number that has nine digits at
most is read back exactly, and any other one with a relative error of `10 ^ -8` at most
(`value_scaled`).

## Families

`familyText` is the text of a family as the exporters print it, header lines first, and it is the
one that `Exposition` writes (`familyText_eq`). Labels come from names of the source and from
numbers, none of which has a character that would have to be escaped (`LabelsOk`).
-/

namespace Exporter

open Exposition (Label Family Sample)

/-- The type `double`. -/
def double : BinaryFloat.Format := ⟨11, 52, 1023⟩

/-- `value * scale`; an integer is converted first. -/
def scaled (value : ℕ) (scale : ℚ) : ℚ :=
  double.nearest (double.nearest value * double.nearest scale)

/-- `%u`. -/
def unsigned (n : ℕ) : List Char := Nat.toDigits 10 n

/-- What `snprintf` leaves in a buffer. -/
def snprintf (size : ℕ) (text : List Char) : List Char := text.take (size - 1)

/-- The lines with the help text and the type of a metric. -/
def header (metric help type : String) : List Char :=
  '#' :: ' ' :: 'H' :: 'E' :: 'L' :: 'P' :: ' ' :: metric.toList ++ ' ' :: help.toList ++ '\n' ::
    '#' :: ' ' :: 'T' :: 'Y' :: 'P' :: 'E' :: ' ' :: metric.toList ++ ' ' :: type.toList ++ ['\n']

/-- A number as it is printed. -/
inductive Reading where
  | count (n : ℕ)
  | scaled (value : ℕ) (scale : ℚ)

def Reading.print : Reading → List Char
  | count n => unsigned n
  | scaled value scale => Decimal.printG 8 (Exporter.scaled value scale)

/-- The number that the text of a reading stands for. -/
def Reading.value : Reading → ℚ
  | count n => n
  | scaled value scale => Decimal.roundG 8 (Exporter.scaled value scale)

def label (name value : String) : Label := (name.toList, value.toList)

def index (name : String) (n : ℕ) : Label := (name.toList, unsigned n)

/-! ### Texts of families -/

/-- The text of a family. -/
def familyText (f : Family Reading) : List Char :=
  PythonText.unlines (Exposition.familyLines Reading.print f)

/-- The exposition of families is their texts one after the other. -/
theorem write_eq (families : List (Family Reading)) :
    Exposition.write Reading.print families = families.flatMap familyText :=
  List.flatMap_assoc

/-- The text of a family is its header and a line for each sample. -/
theorem familyText_eq {name help type : String} (samples : List (Sample Reading)) :
    familyText ⟨name.toList, help.toList, type.toList, samples⟩ =
      header name help type ++ PythonText.unlines
        (samples.map (Exposition.sampleLine Reading.print name.toList)) := by
  simp only [familyText, Exposition.familyLines, Exposition.helpLine, Exposition.typeLine, header,
    PythonText.unlines, List.flatMap_cons, List.append_assoc, List.cons_append, List.nil_append]

theorem familyText_count (name help type : String) (labels : List Label) (n : ℕ) :
    familyText ⟨name.toList, help.toList, type.toList, [⟨labels, .count n⟩]⟩ =
      header name help type ++
        (name.toList ++ Exposition.braces labels ++ ' ' :: unsigned n ++ ['\n']) := by
  rw [familyText_eq]
  exact congrArg (header name help type ++ ·) (List.flatMap_singleton _ _)

/-! ### What can be printed -/

/-- The labels of a sample can be written. -/
def LabelsOk (labels : List Label) : Prop :=
  ∀ l ∈ labels, Exposition.isName l.1 ∧ l.2.all Exposition.isValueChar

instance (labels : List Label) : Decidable (LabelsOk labels) :=
  inferInstanceAs (Decidable (∀ l ∈ labels, Exposition.isName l.1 ∧ l.2.all Exposition.isValueChar))

theorem all_unsigned (n : ℕ) : (unsigned n).all Exposition.isValueChar := by
  refine List.all_eq_true.2 fun c hc ↦ ?_
  have hdigit : c.isDigit := Nat.isDigit_of_mem_toDigits (by decide) le_rfl hc
  have hne : ∀ d : Char, d.isDigit = false → c ≠ d := fun _ ↦ PythonText.ne_of_class hdigit
  simp [Exposition.isValueChar, hne '"' rfl, hne '\\' rfl, hne '\n' rfl]

theorem index_ok {name : String} {n : ℕ} (h : Exposition.isName name.toList) :
    Exposition.isName (index name n).1 ∧ (index name n).2.all Exposition.isValueChar :=
  ⟨h, all_unsigned n⟩

/-- A family with one sample. -/
theorem wellFormed_single {name help type : String} {labels : List Label} {r : Reading}
    (hname : Exposition.isName name.toList) (hhelp : help.toList.all Exposition.isHelpChar)
    (htype : Exposition.isType type.toList) (hlabels : LabelsOk labels) :
    Family.WellFormed ⟨name.toList, help.toList, type.toList, [⟨labels, r⟩]⟩ :=
  ⟨hname, hhelp, htype, List.forall_mem_singleton.2 hlabels, List.pairwise_singleton _ _⟩

/-! ### Numbers -/

theorem scaled_nonneg (value : ℕ) (scale : ℚ) : 0 ≤ scaled value scale :=
  mul_nonneg (Nat.cast_nonneg _) (BinaryFloat.Format.unit_pos double).le

/-- A reading is read back. -/
theorem read_print (r : Reading) :
    Decimal.read r.print = some r.value ∧ '\n' ∉ r.print := by
  match r with
  | .count n =>
    have hdigits : '\n' ∉ Nat.toDigits 10 n := fun h ↦
      absurd (Nat.isDigit_of_mem_toDigits (by decide) le_rfl h) (by decide)
    exact ⟨Decimal.read_toDigits n, hdigits⟩
  | .scaled value scale =>
    refine ⟨Decimal.read_printG (scaled_nonneg value scale), fun h ↦ ?_⟩
    rcases Decimal.isNumberChar_of_mem_printG _ h with h | h <;> exact absurd h (by decide)

/-- The text of well-formed families is read as what they say. -/
theorem read_flatMap_familyText {families : List (Family Reading)}
    (h : Exposition.WellFormed families) :
    Exposition.read Decimal.read (families.flatMap familyText) =
      some (families.map (Family.map Reading.value)) := by
  rw [← write_eq]
  exact Exposition.read_write read_print h

/-! ### Scaled numbers -/

/-- A number in the middle of the range of `double` moves by half a unit in the last place at
most. -/
theorem abs_double_nearest_sub_le {q : ℚ} (hmin : 1 / 2 ^ 10 ≤ q) (hmax : q < 2 ^ 60) :
    |double.nearest q - q| ≤ q / 2 ^ 53 := by
  have hunit : double.unit = 2 ^ (-1074 : ℤ) := rfl
  refine BinaryFloat.Format.abs_nearest_sub_le (f := double) ?_ ?_
  · show 2 ^ 52 * double.unit ≤ q
    refine le_trans ?_ hmin
    rw [hunit, one_div, ← zpow_natCast, ← zpow_natCast, ← zpow_neg, ← zpow_add₀ two_ne_zero]
    exact zpow_le_zpow_right₀ one_le_two (by norm_num)
  · show q < 2 ^ (52 + 2045) * double.unit
    refine hmax.trans_le ?_
    rw [hunit, ← zpow_natCast, ← zpow_natCast, ← zpow_add₀ two_ne_zero]
    exact zpow_le_zpow_right₀ one_le_two (by norm_num)

/-- Integers of 53 bits are converted exactly. -/
theorem double_nearest_natCast {n : ℕ} (h : n < 2 ^ 53) : double.nearest n = n := by
  refine (BinaryFloat.Format.round_of_eq (f := double) (n := n) (s := 1074) h (by decide) ?_).2
  have hunit : double.unit = 2 ^ (-1074 : ℤ) := rfl
  rw [hunit, mul_assoc, ← zpow_natCast, ← zpow_add₀ two_ne_zero]
  simp

/-- The two roundings of `value * scale` are much finer than nine digits. -/
theorem abs_scaled_sub_le {value : ℕ} {scale : ℚ} (hvalue : value < 2 ^ 32)
    (hmin : 1 / 1000 ≤ scale) (hmax : scale ≤ 1000000) :
    |scaled value scale - value * scale| ≤ value * scale / 10 ^ 10 := by
  rw [scaled, double_nearest_natCast (by omega)]
  rcases Nat.eq_zero_or_pos value with rfl | hpos
  · have hzero := double_nearest_natCast (n := 0) (by decide)
    rw [Nat.cast_zero] at hzero
    simp [hzero]
  have hv : (1 : ℚ) ≤ value := by exact_mod_cast hpos
  have hv' : (value : ℚ) < 2 ^ 32 := by exact_mod_cast hvalue
  have hscale := abs_le.1 (abs_double_nearest_sub_le (q := scale) (by linarith) (by linarith))
  generalize double.nearest scale = s at hscale
  obtain ⟨hs₁, hs₂⟩ := hscale
  have hs : 1 / 1001 ≤ s := by linarith
  have hs' : s ≤ 1000001 := by linarith
  have hproduct := abs_le.1 (abs_double_nearest_sub_le (q := value * s)
    (by nlinarith) (by nlinarith))
  have hlow : -(value * scale / 2 ^ 53) ≤ value * s - value * scale := by nlinarith
  have hhigh : value * s - value * scale ≤ value * scale / 2 ^ 53 := by nlinarith
  have hnonneg : 0 ≤ value * scale := by nlinarith
  rw [abs_le]
  constructor <;> linarith

/-- **What a scaled number is read as**: the number with a relative error of `10 ^ -8` at most, and
the number itself where it has nine digits. -/
theorem value_scaled {value : ℕ} {scale : ℚ} (hvalue : value < 2 ^ 32)
    (hscale : scale ∈ ([0.001, 0.01, 1, 1000000] : List ℚ)) :
    |(Reading.scaled value scale).value - value * scale| ≤ value * scale / 10 ^ 8 ∧
      (value < 10 ^ 9 → (Reading.scaled value scale).value = value * scale) := by
  obtain ⟨k, hk, hmin, hmax⟩ : ∃ k : ℤ, scale = 10 ^ k ∧ 1 / 1000 ≤ scale ∧ scale ≤ 1000000 := by
    simp only [List.mem_cons, List.not_mem_nil, or_false] at hscale
    rcases hscale with rfl | rfl | rfl | rfl
    · exact ⟨-3, by norm_num, by norm_num, by norm_num⟩
    · exact ⟨-2, by norm_num, by norm_num, by norm_num⟩
    · exact ⟨0, by norm_num, by norm_num, by norm_num⟩
    · exact ⟨6, by norm_num, by norm_num, by norm_num⟩
  have hnear := abs_scaled_sub_le hvalue hmin hmax
  have hvalue : (Reading.scaled value scale).value = Decimal.roundG 8 (scaled value scale) := rfl
  rw [hvalue]
  constructor
  · have hround := abs_le.1 (Decimal.abs_roundG_sub_le (p := 8) (scaled_nonneg value scale))
    obtain ⟨hnear₁, hnear₂⟩ := abs_le.1 hnear
    have hnonneg : 0 ≤ value * scale := mul_nonneg (Nat.cast_nonneg _) (by linarith)
    rw [abs_le]
    constructor <;> linarith
  · intro hlt
    rw [hk] at hnear ⊢
    exact Decimal.roundG_of_near hlt hnear

end Exporter
