import Mathlib.Data.List.Basic

/-!
# Hexadecimal digits and base64

Bytes read from pairs of hexadecimal digits, and bytes written in groups of three as four letters,
with padding behind the last group.

The digits are of either case, and an odd number of them is no list of bytes
(`isSome_fromhex_iff`). The letters determine the bytes (`encode_injective`): the padding tells how
many bytes the last group has, and a group of letters is the base-64 representation of its bytes.
-/

namespace Base64

/-- The value of a hexadecimal digit of either case. -/
def hexValue (c : Char) : Option ℕ :=
  if '0' ≤ c ∧ c ≤ '9' then some (c.toNat - 48)
  else if 'A' ≤ c ∧ c ≤ 'F' then some (c.toNat - 55)
  else if 'a' ≤ c ∧ c ≤ 'f' then some (c.toNat - 87)
  else none

/-- The bytes of pairs of digits. -/
def fromhex : List Char → Option (List ℕ)
  | [] => some []
  | [_] => none
  | a :: b :: cs => do
    let high ← hexValue a
    let low ← hexValue b
    let bytes ← fromhex cs
    some ((16 * high + low) :: bytes)

/-- The letter of six bits. -/
def letter (n : ℕ) : Char :=
  if n < 26 then Char.ofNat (n + 65)
  else if n < 52 then Char.ofNat (n + 71)
  else if n < 62 then Char.ofNat (n - 4)
  else if n = 62 then '+'
  else '/'

/-- The letters of a list of bytes. -/
def encode : List ℕ → List Char
  | a :: b :: c :: bytes =>
    letter (a / 4) :: letter (a % 4 * 16 + b / 16) :: letter (b % 16 * 4 + c / 64) ::
      letter (c % 64) :: encode bytes
  | [a, b] => [letter (a / 4), letter (a % 4 * 16 + b / 16), letter (b % 16 * 4), '=']
  | [a] => [letter (a / 4), letter (a % 4 * 16), '=', '=']
  | [] => []

/-! ### Digits -/

/-- A hexadecimal digit is less than sixteen. -/
theorem hexValue_lt {c : Char} {n : ℕ} (h : hexValue c = some n) : n < 16 := by
  simp only [hexValue, Char.le_def, UInt32.le_iff_toNat_le] at h
  split_ifs at h with h0 hA ha
  · obtain rfl := Option.some.inj h
    have hle : c.toNat ≤ 57 := h0.2
    omega
  · obtain rfl := Option.some.inj h
    have hle : c.toNat ≤ 70 := hA.2
    omega
  · obtain rfl := Option.some.inj h
    have hle : c.toNat ≤ 102 := ha.2
    omega

/-- The codes of hexadecimal digits lie between those of `0` and `f`. -/
theorem toNat_of_isSome_hexValue {c : Char} (h : (hexValue c).isSome) :
    48 ≤ c.toNat ∧ c.toNat ≤ 102 := by
  simp only [hexValue, Char.le_def, UInt32.le_iff_toNat_le] at h
  split_ifs at h with h0 hA ha
  · have hrange : 48 ≤ c.toNat ∧ c.toNat ≤ 57 := h0
    omega
  · have hrange : 65 ≤ c.toNat ∧ c.toNat ≤ 70 := hA
    omega
  · have hrange : 97 ≤ c.toNat ∧ c.toNat ≤ 102 := ha
    omega
  · cases h

/-- Pairs of digits are bytes, and an odd digit is refused. -/
theorem isSome_fromhex_iff {cs : List Char} (h : ∀ c ∈ cs, (hexValue c).isSome) :
    (fromhex cs).isSome ↔ 2 ∣ cs.length := by
  induction cs using fromhex.induct with
  | case1 => simp [fromhex]
  | case2 c => simp [fromhex]
  | case3 a b cs ih =>
    obtain ⟨ha, hb, hcs⟩ : (hexValue a).isSome ∧ (hexValue b).isSome ∧
        ∀ c ∈ cs, (hexValue c).isSome := by simpa [or_imp, forall_and] using h
    obtain ⟨high, hhigh⟩ := Option.isSome_iff_exists.1 ha
    obtain ⟨low, hlow⟩ := Option.isSome_iff_exists.1 hb
    have hbytes : (fromhex (a :: b :: cs)).isSome = (fromhex cs).isSome := by
      rcases hrest : fromhex cs with _ | bytes
      · simp [fromhex, hhigh, hlow, hrest]
      · simp [fromhex, hhigh, hlow, hrest]
    rw [hbytes, ih hcs, List.length_cons, List.length_cons]
    omega

/-- `bytes.fromhex` gives bytes. -/
theorem lt_of_mem_fromhex {cs : List Char} {bytes : List ℕ} (h : fromhex cs = some bytes) :
    ∀ n ∈ bytes, n < 256 := by
  induction cs using fromhex.induct generalizing bytes with
  | case1 => simp_all [fromhex]
  | case2 c => cases h
  | case3 a b cs ih =>
    simp only [fromhex, Option.bind_eq_bind, Option.bind_eq_some_iff, Option.some.injEq] at h
    obtain ⟨high, hhigh, low, hlow, rest, hrest, rfl⟩ := h
    have h1 := hexValue_lt hhigh
    have h2 := hexValue_lt hlow
    exact List.forall_mem_cons.2 ⟨by omega, ih hrest⟩

/-! ### Letters -/

/-- The letters are five runs of codes. -/
theorem toNat_letter {n : ℕ} (hn : n < 64) :
    (letter n).toNat =
      if n < 26 then n + 65 else if n < 52 then n + 71 else if n < 62 then n - 4
      else if n = 62 then 43 else 47 := by
  have hall : ∀ i < 64, (letter i).toNat =
      if i < 26 then i + 65 else if i < 52 then i + 71 else if i < 62 then i - 4
      else if i = 62 then 43 else 47 := by decide +kernel
  exact hall n hn

/-- Different values have different letters. -/
theorem letter_inj {m n : ℕ} (hm : m < 64) (hn : n < 64) : letter m = letter n ↔ m = n := by
  refine ⟨fun h ↦ ?_, congrArg letter⟩
  have hcode := congrArg Char.toNat h
  rw [toNat_letter hm, toNat_letter hn] at hcode
  split_ifs at hcode <;> omega

/-- No letter is the padding. -/
theorem letter_ne_pad {n : ℕ} (hn : n < 64) : letter n ≠ '=' := by
  intro h
  have hcode := congrArg Char.toNat h
  rw [toNat_letter hn, show '='.toNat = 61 from rfl] at hcode
  split_ifs at hcode <;> omega

/-- **The letters determine the bytes.** -/
theorem encode_injective {l l' : List ℕ} (hl : ∀ n ∈ l, n < 256) (hl' : ∀ n ∈ l', n < 256)
    (h : encode l = encode l') : l = l' := by
  -- a shorter last group has padding where a longer one has a letter
  induction l using encode.induct generalizing l' with
  | case1 a b c bytes ih =>
    simp only [List.mem_cons, forall_eq_or_imp] at hl
    obtain ⟨ha, hb, hc, hbytes⟩ := hl
    rcases l' with _ | ⟨a', _ | ⟨b', _ | ⟨c', bytes'⟩⟩⟩
    · cases h
    · simp only [encode, List.cons.injEq] at h
      exact absurd h.2.2.2.1 (letter_ne_pad (by omega))
    · simp only [encode, List.cons.injEq] at h
      exact absurd h.2.2.2.1 (letter_ne_pad (by omega))
    · simp only [List.mem_cons, forall_eq_or_imp] at hl'
      obtain ⟨ha', hb', hc', hbytes'⟩ := hl'
      simp (disch := omega) only [encode, List.cons.injEq, letter_inj] at h
      obtain ⟨h1, h2, h3, h4, h⟩ := h
      obtain ⟨rfl, rfl, rfl⟩ : a = a' ∧ b = b' ∧ c = c' := by omega
      rw [ih hbytes hbytes' h]
  | case2 a b =>
    simp only [List.mem_cons, forall_eq_or_imp] at hl
    obtain ⟨ha, hb, -⟩ := hl
    rcases l' with _ | ⟨a', _ | ⟨b', _ | ⟨c', bytes'⟩⟩⟩
    · cases h
    · simp only [encode, List.cons.injEq] at h
      exact absurd h.2.2.1 (letter_ne_pad (by omega))
    · simp only [List.mem_cons, forall_eq_or_imp] at hl'
      obtain ⟨ha', hb', -⟩ := hl'
      simp (disch := omega) only [encode, List.cons.injEq, letter_inj] at h
      obtain ⟨h1, h2, h3, -⟩ := h
      obtain ⟨rfl, rfl⟩ : a = a' ∧ b = b' := by omega
      rfl
    · simp only [encode, List.cons.injEq] at h
      exact absurd h.2.2.2.1.symm (letter_ne_pad (by omega))
  | case3 a =>
    have ha : a < 256 := hl a List.mem_cons_self
    rcases l' with _ | ⟨a', _ | ⟨b', _ | ⟨c', bytes'⟩⟩⟩
    · cases h
    · have ha' : a' < 256 := hl' a' List.mem_cons_self
      simp (disch := omega) only [encode, List.cons.injEq, letter_inj] at h
      obtain ⟨h1, h2, -⟩ := h
      obtain rfl : a = a' := by omega
      rfl
    · simp only [encode, List.cons.injEq] at h
      exact absurd h.2.2.1.symm (letter_ne_pad (by omega))
    · simp only [encode, List.cons.injEq] at h
      exact absurd h.2.2.2.1.symm (letter_ne_pad (by omega))
  | case4 =>
    rcases l' with _ | ⟨a', _ | ⟨b', _ | ⟨c', bytes'⟩⟩⟩
    · rfl
    · cases h
    · cases h
    · cases h

end Base64
