import Mathlib.Data.Int.Log
import Mathlib.Data.List.DropRight
import NixStrixHalo.Library.BinaryFloat
import NixStrixHalo.Library.PythonText

/-!
# Decimal numbers as `%g` prints them

`printG p` prints a nonnegative number with `p + 1` significant digits: in place where the exponent
is small, with an exponent otherwise, and without trailing zeros. What is read back is the number
rounded to those digits (`read_printG`).

## Rounding to digits

`scientific` gives a significand of `p + 1` digits and an exponent, where rounding up may carry into
one more digit. The rounded number is within half a unit of the last digit (`abs_roundG_sub_le`).

A number that has no more digits is left alone, even where what is printed is only close to it
(`roundG_of_near`): a computation in floating point that is off by less than half of the last digit
prints the digits of the exact result.
-/

namespace Decimal

open BinaryFloat (halfEven abs_halfEven_sub_le halfEven_mem_Icc halfEven_of_near)

/-! ### Rounding -/

/-- A significand of `p + 1` digits and the exponent of its first digit. -/
def scientific (p : ℕ) (x : ℚ) : ℕ × ℤ :=
  let e := Int.log 10 x
  let d := halfEven (x / 10 ^ (e - p))
  if d = 10 ^ (p + 1) then (10 ^ p, e + 1) else (d, e)

/-- A nonnegative number rounded to `p + 1` significant digits. -/
def roundG (p : ℕ) (x : ℚ) : ℚ :=
  if x = 0 then 0 else (scientific p x).1 * 10 ^ ((scientific p x).2 - p)

/-! ### Printing -/

/-- A fraction without its trailing zeros. -/
def fraction (digits : List Char) : List Char :=
  match digits.rdropWhile (· = '0') with
  | [] => []
  | digits => '.' :: digits

/-- An exponent, of two digits at least. -/
def exponent (e : ℤ) : List Char :=
  let digits := Nat.toDigits 10 e.natAbs
  'e' :: (if e < 0 then '-' else '+') :: if digits.length < 2 then '0' :: digits else digits

/-- `%.{p + 1}g`, for a nonnegative number. -/
def printG (p : ℕ) (x : ℚ) : List Char :=
  if x = 0 then ['0']
  else
    let (d, e) := scientific p x
    let digits := Nat.toDigits 10 d
    if 0 ≤ e ∧ e ≤ p then digits.take (e.toNat + 1) ++ fraction (digits.drop (e.toNat + 1))
    else if -4 ≤ e ∧ e < 0 then
      '0' :: fraction (List.replicate (-e - 1).toNat '0' ++ digits)
    else digits.take 1 ++ fraction (digits.drop 1) ++ exponent e

/-! ### Reading -/

/-- The number with some digits before and after its point, and an exponent. -/
def value (int frac : List Char) (e : ℤ) : ℚ :=
  Nat.ofDigitChars 10 (int ++ frac) 0 * 10 ^ (e - frac.length)

def readExponent : List Char → Option ℤ
  | [] => some 0
  | 'e' :: '+' :: digits =>
    if digits ≠ [] ∧ digits.all Char.isDigit then some (Nat.ofDigitChars 10 digits 0) else none
  | 'e' :: '-' :: digits =>
    if digits ≠ [] ∧ digits.all Char.isDigit then some (-Nat.ofDigitChars 10 digits 0) else none
  | _ => none

/-- A number without sign. -/
def read (text : List Char) : Option ℚ :=
  let (int, rest) := text.span Char.isDigit
  let (frac, rest) :=
    match rest with
    | '.' :: rest => rest.span Char.isDigit
    | rest => ([], rest)
  if int = [] then none else (readExponent rest).map (value int frac)

/-! ### The value of a text -/

section

variable {int frac digits : List Char} {e : ℤ}

/-- A zero at the end multiplies by ten. -/
theorem ofDigitChars_append_replicate (digits : List Char) (n : ℕ) :
    Nat.ofDigitChars 10 (digits ++ List.replicate n '0') 0 =
      Nat.ofDigitChars 10 digits 0 * 10 ^ n := by
  rw [Nat.ofDigitChars_append, Nat.ofDigitChars_replicate_zero, mul_comm]

/-- The zeros that a fraction ends with count for nothing. -/
theorem value_rdropWhile (int frac : List Char) (e : ℤ) :
    value int (frac.rdropWhile (· = '0')) e = value int frac e := by
  have hzeros : frac.rtakeWhile (· = '0') =
      List.replicate (frac.rtakeWhile (· = '0')).length '0' :=
    List.eq_replicate_of_mem fun c hc ↦ by simpa using List.mem_rtakeWhile_imp hc
  obtain ⟨n, hn⟩ : ∃ n, frac = frac.rdropWhile (· = '0') ++ List.replicate n '0' :=
    ⟨_, by rw [← hzeros, List.rdropWhile_append_rtakeWhile]⟩
  generalize frac.rdropWhile (· = '0') = kept at hn
  subst hn
  rw [value, value, ← List.append_assoc, ofDigitChars_append_replicate, List.length_append,
    List.length_replicate]
  push_cast
  rw [mul_assoc, ← zpow_natCast, ← zpow_add₀ (by norm_num)]
  congr 2
  ring

/-- Digits are left where zeros at the end are dropped. -/
theorem isDigit_of_mem_rdropWhile {c : Char} (h : ∀ c ∈ frac, c.isDigit)
    (hc : c ∈ frac.rdropWhile (· = '0')) : c.isDigit :=
  h c ((List.rdropWhile_prefix _ frac).subset hc)

/-- Reading digits, a fraction and what follows them. -/
theorem read_append (int frac tail : List Char) (hne : int ≠ []) (hint : ∀ c ∈ int, c.isDigit)
    (hfrac : ∀ c ∈ frac, c.isDigit) (htail : readExponent tail = some e)
    (hhead : tail = [] ∨ tail.head? = some 'e') :
    read (int ++ fraction frac ++ tail) = some (value int frac e) := by
  have hend : tail.head?.any Char.isDigit = false := by
    rcases hhead with rfl | h
    · rfl
    · rw [h]; rfl
  rw [← value_rdropWhile, fraction]
  have hdigits := fun c hc ↦ isDigit_of_mem_rdropWhile (c := c) hfrac hc
  generalize frac.rdropWhile (· = '0') = kept at hdigits
  -- without digits behind it the point is not printed
  match kept with
  | [] =>
    have hspan : (int ++ tail).span Char.isDigit = (int, tail) :=
      PythonText.span_append hint hend
    rw [List.append_nil, read, hspan]
    match tail with
    | [] => simp [hne, htail]
    | c :: tail =>
      obtain rfl : c = 'e' := by simpa using hhead
      simp [hne, htail]
  | d :: kept =>
    have hspan : (int ++ '.' :: (d :: kept ++ tail)).span Char.isDigit =
        (int, '.' :: (d :: kept ++ tail)) := PythonText.span_append hint rfl
    have hspan' : (d :: kept ++ tail).span Char.isDigit = (d :: kept, tail) :=
      PythonText.span_append hdigits hend
    show read (int ++ ('.' :: (d :: kept)) ++ tail) = _
    rw [List.append_assoc, List.cons_append, read, hspan]
    simp only [hspan', hne, htail, if_false, Option.map_some]

/-- A printed exponent is read back. -/
theorem readExponent_exponent (e : ℤ) : readExponent (exponent e) = some e := by
  have hread : ∀ digits : List Char, digits = Nat.toDigits 10 e.natAbs ∨
      digits = '0' :: Nat.toDigits 10 e.natAbs →
      (digits ≠ [] ∧ digits.all Char.isDigit) ∧ Nat.ofDigitChars 10 digits 0 = e.natAbs := by
    have hall : (Nat.toDigits 10 e.natAbs).all Char.isDigit :=
      List.all_eq_true.2 fun c hc ↦ Nat.isDigit_of_mem_toDigits (by decide) le_rfl hc
    rintro digits (rfl | rfl)
    · exact ⟨⟨Nat.toDigits_ne_nil, hall⟩, Nat.ofDigitChars_ten_toDigits⟩
    · refine ⟨⟨List.cons_ne_nil _ _, by simpa using hall⟩, ?_⟩
      rw [Nat.ofDigitChars_cons]
      exact Nat.ofDigitChars_ten_toDigits
  rw [exponent]
  generalize hpad : (if (Nat.toDigits 10 e.natAbs).length < 2 then
    '0' :: Nat.toDigits 10 e.natAbs else Nat.toDigits 10 e.natAbs) = digits
  obtain ⟨hdigits, hval⟩ := hread digits (by rw [← hpad]; split_ifs <;> simp)
  by_cases he : e < 0
  · simp only [if_pos he, readExponent, if_pos hdigits, hval]
    congr 1
    omega
  · simp only [if_neg he, readExponent, if_pos hdigits, hval]
    congr 1
    omega

/-- A natural number, as `%u` prints it. -/
theorem read_toDigits (n : ℕ) : read (Nat.toDigits 10 n) = some (n : ℚ) := by
  have hread := read_append (Nat.toDigits 10 n) [] [] Nat.toDigits_ne_nil
    (fun c hc ↦ Nat.isDigit_of_mem_toDigits (by decide) le_rfl hc) (by simp) rfl (.inl rfl)
  simpa [value, fraction] using hread

end

/-! ### What is printed is what is rounded -/

section

variable {p : ℕ} {x : ℚ}

/-- The scaled number that is rounded. -/
theorem scaled_bounds (hx : 0 < x) : 10 ^ p ≤ x / 10 ^ (Int.log 10 x - p) ∧
    x / 10 ^ (Int.log 10 x - p) < 10 ^ (p + 1) := by
  have hlow : (10 : ℚ) ^ Int.log 10 x ≤ x := Int.zpow_log_le_self (by decide) hx
  have hhigh : x < (10 : ℚ) ^ (Int.log 10 x + 1) := Int.lt_zpow_succ_log_self (by decide) x
  have hpow : ∀ k : ℕ, (10 : ℚ) ^ k * 10 ^ (Int.log 10 x - p) = 10 ^ (Int.log 10 x - p + k) := by
    intro k
    rw [zpow_add₀ (by norm_num), zpow_natCast, mul_comm]
  constructor
  · rw [le_div_iff₀ (by positivity), hpow, sub_add_cancel]
    exact hlow
  · have hexp : Int.log 10 x - p + (p + 1 : ℕ) = Int.log 10 x + 1 := by push_cast; ring
    rw [div_lt_iff₀ (by positivity), hpow, hexp]
    exact hhigh

/-- A significand has `p + 1` digits. -/
theorem scientific_bounds (hx : 0 < x) :
    10 ^ p ≤ (scientific p x).1 ∧ (scientific p x).1 < 10 ^ (p + 1) := by
  obtain ⟨hlow, hhigh⟩ := scaled_bounds (p := p) hx
  obtain ⟨hn₁, hn₂⟩ : 10 ^ p ≤ halfEven (x / 10 ^ (Int.log 10 x - p)) ∧
      halfEven (x / 10 ^ (Int.log 10 x - p)) ≤ 10 ^ (p + 1) :=
    halfEven_mem_Icc (by push_cast; exact hlow) (by push_cast; exact hhigh.le)
  simp only [scientific]
  split_ifs with h
  · exact ⟨le_rfl, Nat.pow_lt_pow_right (by decide) (Nat.lt_succ_self p)⟩
  · exact ⟨hn₁, lt_of_le_of_ne hn₂ h⟩

/-- The number of digits is told by the powers of ten around a number. -/
theorem length_toDigits {d : ℕ} (hlow : 10 ^ p ≤ d) (hhigh : d < 10 ^ (p + 1)) :
    (Nat.toDigits 10 d).length = p + 1 := by
  have hle : (Nat.toDigits 10 d).length ≤ p + 1 :=
    (Nat.length_toDigits_le_iff (by decide) (Nat.succ_pos p)).2 hhigh
  by_contra hne
  have hlt : d < 10 ^ p := by
    rcases p with _ | p
    · have := Nat.length_toDigits_pos (b := 10) (n := d)
      omega
    · exact (Nat.length_toDigits_le_iff (by decide) (Nat.succ_pos p)).1 (by omega)
  omega

/-- Reading digits with a point after `k` of them. -/
theorem read_take_drop {digits tail : List Char} {k : ℕ} {e : ℤ} (hne : digits.take k ≠ [])
    (hdigits : ∀ c ∈ digits, c.isDigit) (htail : readExponent tail = some e)
    (hhead : tail = [] ∨ tail.head? = some 'e') :
    read (digits.take k ++ fraction (digits.drop k) ++ tail) =
      some ((Nat.ofDigitChars 10 digits 0 : ℚ) * 10 ^ (e - (digits.length - k : ℕ))) := by
  rw [read_append _ _ _ hne (fun c hc ↦ hdigits c (List.mem_of_mem_take hc))
    (fun c hc ↦ hdigits c (List.mem_of_mem_drop hc)) htail hhead, value, List.take_append_drop,
    List.length_drop]

/-- What is read back is the number rounded to the digits that are printed. -/
theorem read_printG (hx : 0 ≤ x) : read (printG p x) = some (roundG p x) := by
  rcases hx.eq_or_lt with rfl | hx
  · simpa [printG, roundG] using read_toDigits 0
  obtain ⟨hlow, hhigh⟩ := scientific_bounds (p := p) hx
  have hlen := length_toDigits hlow hhigh
  rw [printG, if_neg hx.ne', roundG, if_neg hx.ne']
  generalize scientific p x = s at hlow hhigh hlen
  obtain ⟨d, e⟩ := s
  have hdigit : ∀ c ∈ Nat.toDigits 10 d, c.isDigit :=
    fun c hc ↦ Nat.isDigit_of_mem_toDigits (by decide) le_rfl hc
  have htake : ∀ k, 0 < k → (Nat.toDigits 10 d).take k ≠ [] := by
    intro k hk h
    have := congrArg List.length h
    rw [List.length_take, hlen, List.length_nil] at this
    omega
  simp only
  -- the point is among the digits, before all of them, or behind the first one with an exponent
  split_ifs with hfixed hsmall
  · have hread := read_take_drop (htake (e.toNat + 1) (Nat.succ_pos _)) hdigit rfl (.inl rfl)
    rw [List.append_nil] at hread
    rw [hread, Nat.ofDigitChars_ten_toDigits, hlen]
    congr 3
    omega
  · have hpadded : ∀ c ∈ List.replicate (-e - 1).toNat '0' ++ Nat.toDigits 10 d, c.isDigit := by
      intro c hc
      rcases List.mem_append.1 hc with hc | hc
      · rw [List.eq_of_mem_replicate hc]
        rfl
      · exact hdigit c hc
    have hread := read_append ['0'] _ [] (by simp) (by decide) hpadded rfl (.inl rfl)
    rw [List.append_nil] at hread
    refine hread.trans (congrArg some ?_)
    have hzeros : Nat.ofDigitChars 10 (['0'] ++ List.replicate (-e - 1).toNat '0') 0 = 0 :=
      Nat.ofDigitChars_replicate_zero (n := (-e - 1).toNat + 1)
    rw [value, ← List.append_assoc, Nat.ofDigitChars_append, hzeros,
      Nat.ofDigitChars_ten_toDigits, List.length_append, hlen, List.length_replicate]
    congr 2
    omega
  · rw [read_take_drop (htake 1 one_pos) hdigit (readExponent_exponent e) (.inr rfl),
      Nat.ofDigitChars_ten_toDigits, hlen]
    rfl

/-- The characters of what is printed. -/
def IsNumberChar (c : Char) : Prop := c.isDigit ∨ c ∈ ['.', 'e', '+', '-']

/-- A fraction is printed in number characters. -/
theorem isNumberChar_of_mem_fraction {digits : List Char} (h : ∀ c ∈ digits, c.isDigit) :
    ∀ c ∈ fraction digits, IsNumberChar c := by
  intro c hc
  have hkept := fun c hc ↦ isDigit_of_mem_rdropWhile (c := c) h hc
  rw [fraction] at hc
  generalize digits.rdropWhile (· = '0') = kept at hc hkept
  match kept with
  | [] => exact absurd hc List.not_mem_nil
  | d :: kept =>
    rcases List.mem_cons.1 hc with rfl | hc
    · exact .inr List.mem_cons_self
    · exact .inl (hkept c hc)

/-- An exponent is printed in number characters. -/
theorem isNumberChar_of_mem_exponent {e : ℤ} : ∀ c ∈ exponent e, IsNumberChar c := by
  have hdigits : ∀ c ∈ Nat.toDigits 10 e.natAbs, IsNumberChar c :=
    fun c hc ↦ .inl (Nat.isDigit_of_mem_toDigits (by decide) le_rfl hc)
  rw [exponent]
  refine List.forall_mem_cons.2 ⟨.inr (by decide), List.forall_mem_cons.2 ⟨.inr ?_, ?_⟩⟩
  · split_ifs <;> decide
  · split_ifs
    · exact List.forall_mem_cons.2 ⟨.inl (by decide), hdigits⟩
    · exact hdigits

/-- `%g` prints number characters. -/
theorem isNumberChar_of_mem_printG : ∀ c ∈ printG p x, IsNumberChar c := by
  have hdigits : ∀ {d : ℕ} {c : Char}, c ∈ Nat.toDigits 10 d → c.isDigit :=
    fun hc ↦ Nat.isDigit_of_mem_toDigits (by decide) le_rfl hc
  rw [printG]
  split_ifs
  · exact List.forall_mem_singleton.2 (.inl (by decide))
  · generalize scientific p x = s
    obtain ⟨d, e⟩ := s
    simp only
    split_ifs
    · refine List.forall_mem_append.2 ⟨fun c hc ↦ .inl (hdigits (List.mem_of_mem_take hc)),
        isNumberChar_of_mem_fraction fun c hc ↦ hdigits (List.mem_of_mem_drop hc)⟩
    · refine List.forall_mem_cons.2 ⟨.inl (by decide), isNumberChar_of_mem_fraction ?_⟩
      refine List.forall_mem_append.2 ⟨fun c hc ↦ ?_, fun c hc ↦ hdigits hc⟩
      rw [List.eq_of_mem_replicate hc]
      rfl
    · refine List.forall_mem_append.2 ⟨List.forall_mem_append.2
        ⟨fun c hc ↦ .inl (hdigits (List.mem_of_mem_take hc)),
          isNumberChar_of_mem_fraction fun c hc ↦ hdigits (List.mem_of_mem_drop hc)⟩,
        isNumberChar_of_mem_exponent⟩

/-! ### How near it is -/

/-- The rounded number, whichever way its significand has been carried. -/
theorem roundG_eq (hx : 0 < x) : roundG p x =
    halfEven (x / 10 ^ (Int.log 10 x - p)) * 10 ^ (Int.log 10 x - p) := by
  rw [roundG, if_neg hx.ne', scientific]
  split_ifs with h
  · rw [h]
    push_cast
    rw [← zpow_natCast, ← zpow_natCast, ← zpow_add₀ (by norm_num), ← zpow_add₀ (by norm_num)]
    congr 1
    push_cast
    ring
  · rfl

/-- Rounding to `p + 1` digits moves a number by half a unit of the last of them at most. -/
theorem abs_roundG_sub_le (hx : 0 ≤ x) : |roundG p x - x| ≤ x / (2 * 10 ^ p) := by
  rcases hx.eq_or_lt with rfl | hx
  · simp [roundG]
  obtain ⟨hlow, -⟩ := scaled_bounds (p := p) hx
  have hround := abs_halfEven_sub_le ((by positivity : (0 : ℚ) ≤ 10 ^ p).trans hlow)
  rw [roundG_eq hx]
  have hpos : (0 : ℚ) < 10 ^ (Int.log 10 x - p) := by positivity
  generalize (10 : ℚ) ^ (Int.log 10 x - p) = u at hround hlow hpos
  have hexact : x = x / u * u := (div_mul_cancel₀ x hpos.ne').symm
  calc |halfEven (x / u) * u - x| = |((halfEven (x / u) : ℚ) - x / u) * u| := by
        congr 1; linear_combination -hexact
    _ = |(halfEven (x / u) : ℚ) - x / u| * u := by rw [abs_mul, abs_of_pos hpos]
    _ ≤ 1 / 2 * u := mul_le_mul_of_nonneg_right hround hpos.le
    _ ≤ x / (2 * 10 ^ p) := by
        rw [le_div_iff₀ (by positivity)]
        rw [le_div_iff₀ hpos] at hlow
        linarith

/-- A positive number with at most `p + 1` digits, scaled by the exponent of its first one. -/
theorem exists_scaled {n : ℕ} (k : ℤ) (hn : 0 < n) (hlt : n < 10 ^ (p + 1)) :
    ∃ (m : ℕ) (e : ℤ), 10 ^ p ≤ m ∧ m < 10 ^ (p + 1) ∧ (n : ℚ) * 10 ^ k = m * 10 ^ (e - p) := by
  have hlog : Nat.log 10 n ≤ p := Nat.lt_succ_iff.1 (Nat.log_lt_of_lt_pow hn.ne' hlt)
  refine ⟨n * 10 ^ (p - Nat.log 10 n), Nat.log 10 n + k, ?_, ?_, ?_⟩
  · calc 10 ^ p = 10 ^ Nat.log 10 n * 10 ^ (p - Nat.log 10 n) := by
          rw [← pow_add, Nat.add_sub_cancel' hlog]
      _ ≤ n * 10 ^ (p - Nat.log 10 n) := Nat.mul_le_mul_right _ (Nat.pow_log_le_self 10 hn.ne')
  · calc n * 10 ^ (p - Nat.log 10 n) < 10 ^ (Nat.log 10 n + 1) * 10 ^ (p - Nat.log 10 n) :=
          Nat.mul_lt_mul_of_pos_right (Nat.lt_pow_succ_log_self (by decide) n) (by positivity)
      _ = 10 ^ (p + 1) := by
          rw [← pow_add]
          congr 1
          omega
  · push_cast
    rw [mul_assoc, ← zpow_natCast, ← zpow_add₀ (by norm_num)]
    congr 2
    push_cast [hlog]
    ring

/-- The decimal exponent is told by the powers of ten around a number. -/
theorem log_eq {e : ℤ} (hlow : (10 : ℚ) ^ e ≤ x) (hhigh : x < 10 ^ (e + 1)) :
    Int.log 10 x = e := by
  have hx : 0 < x := (by positivity : (0 : ℚ) < 10 ^ e).trans_le hlow
  refine le_antisymm ?_ ((Int.zpow_le_iff_le_log (by decide) hx).1 (by exact_mod_cast hlow))
  exact Int.lt_add_one_iff.1
    ((Int.lt_zpow_iff_log_lt (by decide) hx).1 (by exact_mod_cast hhigh))

/-- The exponent of what is close to a significand times `u`, and what it is rounded to. -/
theorem roundG_of_significand {m : ℕ} {e : ℤ} (hlow : (10 : ℚ) ^ p ≤ x / 10 ^ (e - p))
    (hhigh : x / 10 ^ (e - p) < 10 ^ (p + 1)) (hnear : |x / 10 ^ (e - p) - m| < 1 / 2) :
    roundG p x = m * 10 ^ (e - p) := by
  have hnonneg : 0 ≤ x / 10 ^ (e - p) := (by positivity : (0 : ℚ) ≤ 10 ^ p).trans hlow
  have hlog : Int.log 10 x = e := by
    refine log_eq ?_ ?_
    · rw [le_div_iff₀ (by positivity), ← zpow_natCast, ← zpow_add₀ (by norm_num)] at hlow
      rwa [add_sub_cancel] at hlow
    · have hexp : ((p + 1 : ℕ) : ℤ) + (e - p) = e + 1 := by push_cast; ring
      rwa [div_lt_iff₀ (by positivity), ← zpow_natCast, ← zpow_add₀ (by norm_num), hexp] at hhigh
  have hx : 0 < x := by
    have hpos : (0 : ℚ) < x / 10 ^ (e - p) := (by positivity : (0 : ℚ) < 10 ^ p).trans_le hlow
    exact (div_pos_iff_of_pos_right (by positivity)).1 hpos
  rw [roundG_eq hx, hlog, halfEven_of_near hnonneg hnear]

/-- **What is close to a number of at most `p + 1` digits is rounded to it.** -/
theorem roundG_of_near {n : ℕ} {k : ℤ} (hlt : n < 10 ^ (p + 1))
    (hnear : |x - n * 10 ^ k| ≤ n * 10 ^ k / 10 ^ (p + 2)) : roundG p x = n * 10 ^ k := by
  rcases Nat.eq_zero_or_pos n with rfl | hn
  · obtain rfl : x = 0 := by simpa using hnear
    simp [roundG]
  obtain ⟨m, e, hm₁, hm₂, heq⟩ := exists_scaled k hn hlt
  rw [heq] at hnear ⊢
  have hm₁' : (10 : ℚ) ^ p ≤ m := by exact_mod_cast hm₁
  have hm₂' : (m : ℚ) + 1 ≤ 10 ^ (p + 1) := by exact_mod_cast hm₂
  have hpow : (1 : ℚ) ≤ 10 ^ p := one_le_pow₀ (by norm_num)
  obtain ⟨y, hy⟩ : ∃ y, x = y * 10 ^ (e - p) :=
    ⟨x / 10 ^ (e - p), (div_mul_cancel₀ x (by positivity)).symm⟩
  have hu : (0 : ℚ) < 10 ^ (e - p) := by positivity
  have hclose : |y - m| ≤ m / 10 ^ (p + 2) := by
    rw [hy, ← sub_mul, abs_mul, abs_of_pos hu, mul_div_right_comm] at hnear
    exact le_of_mul_le_mul_right hnear hu
  have htenth : (m : ℚ) / 10 ^ (p + 2) ≤ 1 / 10 := by
    rw [div_le_iff₀ (by positivity), pow_succ]
    linarith
  obtain ⟨hclose₁, hclose₂⟩ := abs_le.1 (hclose.trans htenth)
  have hscaled : x / 10 ^ (e - p) = y := by rw [hy, mul_div_cancel_right₀ _ hu.ne']
  rcases le_or_gt ((10 : ℚ) ^ p) y with hle | hgt
  · refine roundG_of_significand (by rwa [hscaled]) (by rw [hscaled]; linarith) ?_
    rw [hscaled, abs_lt]
    constructor <;> linarith
  · -- Just below a power of ten the first digit is one place further down, and there is a carry.
    obtain rfl : m = 10 ^ p := by
      have : (m : ℚ) < (10 ^ p + 1 : ℕ) := by push_cast; linarith
      exact le_antisymm (Nat.lt_succ_iff.1 (by exact_mod_cast this)) hm₁
    have hhundredth : ((10 ^ p : ℕ) : ℚ) / 10 ^ (p + 2) = 1 / 100 := by
      rw [div_eq_div_iff (by positivity) (by norm_num), pow_add]
      push_cast
      ring
    obtain ⟨hnear₁, hnear₂⟩ := abs_le.1 (hhundredth ▸ hclose)
    push_cast at hnear₁ hnear₂
    have hunit : (10 : ℚ) ^ (e - p) = 10 * 10 ^ (e - 1 - p) := by
      rw [← zpow_one_add₀ (by norm_num)]
      congr 1
      ring
    have hscaled' : x / 10 ^ (e - 1 - p) = 10 * y := by
      rw [hy, hunit, ← mul_assoc, mul_div_cancel_right₀ _ (by positivity), mul_comm]
    have hcarry := roundG_of_significand (p := p) (x := x) (m := 10 ^ (p + 1)) (e := e - 1)
      (by rw [hscaled']; push_cast at hclose₁; linarith)
      (by rw [hscaled', pow_succ]; linarith)
      (by
        rw [hscaled', abs_lt]
        constructor <;> push_cast [pow_succ] <;> linarith)
    rw [hcarry, hunit]
    push_cast
    ring

end

end Decimal
