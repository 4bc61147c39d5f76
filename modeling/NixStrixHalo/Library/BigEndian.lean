import Mathlib.Data.List.Basic
import Mathlib.Tactic.Ring

/-!
# Big-endian byte strings

Fixed-width big-endian encoding of natural numbers: `encode w n` writes the low `8 * w` bits of
`n`, most significant byte first, and `decode` reads a byte string of any length. The two are
inverse to each other on widths (`decode_encode`, `encode_decode`), which is all a frame codec needs
of them.

Numbers are unbounded and encoding keeps what fits (`encode_mod`), as a conversion to an unsigned
type of `w` bytes does, so a program that stores such a conversion needs no bound on the number.
-/

namespace BigEndian

/-- The `w` low bytes of `n`, most significant first. -/
def encode : ℕ → ℕ → List UInt8
  | 0, _ => []
  | w + 1, n => UInt8.ofNat (n / 256 ^ w) :: encode w n

/-- The number a byte string denotes, most significant byte first. -/
def decode (bs : List UInt8) : ℕ :=
  bs.foldl (fun acc b ↦ acc * 256 + b.toNat) 0

/-- A number takes as many bytes as its width says. -/
@[simp] theorem length_encode (w n : ℕ) : (encode w n).length = w := by
  induction w with
  | zero => rfl
  | succ w ih => simp [encode, ih]

@[simp] theorem decode_nil : decode [] = 0 := rfl

/-- Reading on from an accumulator shifts it past the bytes read. -/
theorem foldl_eq_add_decode (bs : List UInt8) (a : ℕ) :
    bs.foldl (fun acc b ↦ acc * 256 + b.toNat) a = a * 256 ^ bs.length + decode bs := by
  induction bs generalizing a with
  | nil => simp
  | cons b bs ih =>
    simp only [decode, List.foldl_cons, List.length_cons]
    rw [ih, ih (0 * 256 + b.toNat)]
    ring

/-- The first byte counts for all the places behind it. -/
theorem decode_cons (b : UInt8) (bs : List UInt8) :
    decode (b :: bs) = b.toNat * 256 ^ bs.length + decode bs := by
  rw [decode, List.foldl_cons, foldl_eq_add_decode]
  ring

/-- The bytes of a width hold less than its bound. -/
theorem decode_lt (bs : List UInt8) : decode bs < 256 ^ bs.length := by
  induction bs with
  | nil => simp
  | cons b bs ih =>
    have hb : b.toNat + 1 ≤ 256 := b.toNat_lt
    calc decode (b :: bs) = b.toNat * 256 ^ bs.length + decode bs := decode_cons b bs
      _ < (b.toNat + 1) * 256 ^ bs.length := by rw [Nat.succ_mul]; omega
      _ ≤ 256 * 256 ^ bs.length := Nat.mul_le_mul_right _ hb
      _ = 256 ^ (b :: bs).length := by rw [List.length_cons, pow_succ']

/-- **Reading back what was written** gives the low bytes. -/
theorem decode_encode (w n : ℕ) : decode (encode w n) = n % 256 ^ w := by
  induction w with
  | zero => simp [encode, Nat.mod_one]
  | succ w ih =>
    have hb : (UInt8.ofNat (n / 256 ^ w)).toNat = n / 256 ^ w % 256 := UInt8.toNat_ofNat'
    rw [encode, decode_cons, length_encode, ih, hb, pow_succ, Nat.mod_mul]
    ring

/-- Writing depends on the low bytes only. -/
theorem encode_mod (w n m : ℕ) : encode w (n + 256 ^ w * m) = encode w n := by
  induction w generalizing m with
  | zero => rfl
  | succ w ih =>
    have hdiv : (n + 256 ^ (w + 1) * m) / 256 ^ w = n / 256 ^ w + 256 * m := by
      rw [pow_succ, Nat.mul_assoc, Nat.add_mul_div_left _ _ (Nat.pow_pos (by omega))]
    have hbyte : UInt8.ofNat (n / 256 ^ w + 256 * m) = UInt8.ofNat (n / 256 ^ w) := by
      apply UInt8.toNat_inj.mp
      simp [UInt8.toNat_ofNat']
    rw [encode, encode, hdiv, hbyte, pow_succ, Nat.mul_assoc, ih]

/-- **Writing back what was read** restores the bytes. -/
theorem encode_decode (bs : List UInt8) : encode bs.length (decode bs) = bs := by
  induction bs with
  | nil => rfl
  | cons b bs ih =>
    have hlt := decode_lt bs
    have hdiv : decode (b :: bs) / 256 ^ bs.length = b.toNat := by
      rw [decode_cons, Nat.mul_comm, Nat.mul_add_div (Nat.pow_pos (by omega)), Nat.div_eq_of_lt hlt,
        Nat.add_zero]
    rw [List.length_cons, encode, hdiv, UInt8.ofNat_toNat, decode_cons, Nat.add_comm,
      Nat.mul_comm, encode_mod, ih]

end BigEndian
