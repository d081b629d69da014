import Mathlib.Data.Nat.Bitwise
import Mathlib.Tactic.Ring

/-! Fixed-width little-endian numerals as byte lists. -/
namespace LittleEndian

/-- The `w` low base-256 digits of `n`, least significant first. -/
def encode : ℕ → ℕ → List UInt8
  | 0, _ => []
  | w + 1, n => UInt8.ofNat n :: encode w (n / 256)

/-- The number whose base-256 digits are the given bytes. -/
def decode : List UInt8 → ℕ
  | [] => 0
  | b :: bs => b.toNat + 256 * decode bs

@[simp] theorem encode_length (w n : ℕ) : (encode w n).length = w := by
  induction w generalizing n with
  | zero => rfl
  | succ w ih => simp [encode, ih]

@[simp] theorem decode_encode (w n : ℕ) : decode (encode w n) = n % 256 ^ w := by
  induction w generalizing n with
  | zero => simp [encode, decode, Nat.mod_one]
  | succ w ih =>
    have hd : (UInt8.ofNat n).toNat = n % 256 := by simp
    rw [encode, decode, ih, hd, pow_succ, Nat.mul_comm (256 ^ w), Nat.mod_mul]

theorem decode_encode_of_lt {w n : ℕ} (h : n < 256 ^ w) : decode (encode w n) = n := by
  rw [decode_encode, Nat.mod_eq_of_lt h]

/-- Encoding is onto: every byte list is the numeral of its value. -/
theorem encode_decode (bs : List UInt8) : encode bs.length (decode bs) = bs := by
  induction bs with
  | nil => rfl
  | cons b bs ih =>
    have hb := b.toNat_lt
    have hdiv : (b.toNat + 256 * decode bs) / 256 = decode bs := by omega
    have hlow : UInt8.ofNat (b.toNat + 256 * decode bs) = b := by
      apply UInt8.toNat_inj.mp
      simp only [UInt8.toNat_ofNat']
      omega
    rw [List.length_cons, decode, encode, hdiv, ih, hlow]

theorem encode_append (w w' n : ℕ) :
    encode (w + w') n = encode w n ++ encode w' (n / 256 ^ w) := by
  induction w generalizing n with
  | zero => simp [encode]
  | succ w ih =>
    rw [Nat.succ_add, encode, encode, ih, Nat.div_div_eq_div_mul,
      pow_succ', List.cons_append]

theorem encode_mod (w n : ℕ) : encode w (n % 256 ^ w) = encode w n := by
  have hsame := encode_decode (encode w n)
  rwa [encode_length, decode_encode] at hsame

theorem decode_lt (bs : List UInt8) : decode bs < 256 ^ bs.length := by
  induction bs with
  | nil => decide
  | cons b bs ih =>
    have hb := b.toNat_lt
    rw [decode, List.length_cons, pow_succ]
    omega

/-- Low bits and high digits of a number occupy disjoint positions. -/
theorem or_shift_eq_add {s a : ℕ} (b : ℕ) (h : a < 2 ^ s) : a ||| (b <<< s) = a + b * 2 ^ s := by
  rw [Nat.or_comm, ← Nat.shiftLeft_add_eq_or_of_lt h, Nat.shiftLeft_eq, Nat.add_comm]

end LittleEndian
