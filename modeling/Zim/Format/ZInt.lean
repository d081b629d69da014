import Zim.Lib.Streams
import Mathlib.Tactic.IntervalCases

/-! `ZIntStream`: the variable-length integer code of zimlib (zintstream.cpp). -/
namespace Zim.ZInt
open Cxx LittleEndian

/-- Local variables of `get` while the set high bits of the first byte are counted. -/
structure Prefix where
  N : ℕ
  s : ℕ
  add : ℕ
  ubound : ℕ
  mask : ℕ
  deriving DecidableEq, Repr

def Prefix.init : Prefix := ⟨0, 7, 0, 0x80, 0x7f⟩

/-- One turn of `while (ch & 0x80)`. `s` and `N` are 16-bit, `add` and `mask` 32-bit,
`ubound` 64-bit variables. -/
def Prefix.step (p : Prefix) : Prefix :=
  ⟨(p.N + 1) % 2 ^ 16, (p.s + (2 ^ 16 - 1)) % 2 ^ 16, (p.add + p.ubound) % 2 ^ 32,
    (p.ubound <<< 7) % 2 ^ 64, p.mask >>> 1⟩

/-- `while (ch & 0x80)`; `ch <<= 1` empties the byte after eight turns. -/
def prefixLoop : ℕ → UInt8 → Prefix → Prefix
  | 0, _, p => p
  | fuel + 1, ch, p =>
    if ch &&& 0x80 ≠ 0 then prefixLoop fuel (ch <<< 1) p.step else p

/-- `while (N-- && _istream->get(ch))`. The shift count of a 32-bit value is taken
modulo 32, as the hardware does for the counts the language leaves undefined. -/
def tailLoop : ℕ → ℕ → ℕ → IStream → ℕ × IStream
  | 0, _, uuvalue, s => (uuvalue, s)
  | N + 1, sh, uuvalue, s =>
    match s.get with
    | (none, s) => (uuvalue, s)
    | (some ch, s) =>
      tailLoop N ((sh + 8) % 2 ^ 16) (uuvalue ||| (ch.toNat <<< (sh % 32)) % 2 ^ 32) s

/-- `ZIntStream::get`. On a failed first extraction `return *this` converts the failed
stream to 0; the test `if (_istream)` at the end is on a pointer and always succeeds. -/
def get (s : IStream) : UInt32 × IStream :=
  match s.get with
  | (none, s) => (0, s)
  | (some ch, s) =>
    let s := if ch = 0xff then s.setFail else s
    let p := prefixLoop 8 ch Prefix.init
    let (uuvalue, s) := tailLoop p.N p.s (ch.toNat &&& p.mask) s
    (UInt32.ofNat (uuvalue + p.add), s)

/-- Local variables of `put`; none of them can wrap. -/
structure PutState where
  value : ℕ
  nmask : ℕ
  mask : ℕ
  ubound : ℕ
  N : ℕ
  deriving DecidableEq, Repr

def PutState.init (value : ℕ) : PutState := ⟨value, 0, 0x7f, 0x80, 0⟩

/-- `while (value >= ubound)`; a 32-bit value is below the fifth bound. -/
def putLoop : ℕ → PutState → PutState
  | 0, p => p
  | fuel + 1, p =>
    if p.ubound ≤ p.value then
      putLoop fuel ⟨p.value - p.ubound, (p.nmask >>> 1) ||| 0x80, p.mask >>> 1, p.ubound <<< 7,
        p.N + 1⟩
    else p

/-- `while (N--)`. -/
def putTail : ℕ → ℕ → Bytes
  | 0, _ => []
  | N + 1, value => UInt8.ofNat (value &&& 0xff) :: putTail N (value >>> 8)

/-- `ZIntStream::put`: the bytes appended to the output stream. -/
def put (value : UInt32) : Bytes :=
  let p := putLoop 5 (PutState.init value.toNat)
  UInt8.ofNat (p.nmask ||| (p.value &&& p.mask)) :: putTail p.N (p.value >>> (7 - p.N))

/-- The least value written with `k` additional bytes. -/
def base : ℕ → ℕ
  | 0 => 0
  | k + 1 => base k + 2 ^ (7 * (k + 1))

/-- The number of additional bytes the format uses for a value. -/
def extra (v : UInt32) : ℕ :=
  if v.toNat < base 1 then 0
  else if v.toNat < base 2 then 1
  else if v.toNat < base 3 then 2
  else if v.toNat < base 4 then 3
  else 4

theorem extra_le (v : UInt32) : extra v ≤ 4 := by
  unfold extra
  split_ifs <;> omega

theorem base_extra_le (v : UInt32) : base (extra v) ≤ v.toNat := by
  unfold extra
  split_ifs <;> simp only [base] at * <;> omega

theorem lt_base_extra (v : UInt32) : v.toNat < base (extra v) + 2 ^ (7 * (extra v + 1)) := by
  have hv := v.toNat_lt
  unfold extra
  split_ifs <;> simp only [base] at * <;> omega

theorem putTail_eq (N value : ℕ) : putTail N value = encode N value := by
  induction N generalizing value with
  | zero => rfl
  | succ N ih =>
    have hb : UInt8.ofNat (value &&& 0xff) = UInt8.ofNat value := by
      apply UInt8.toNat_inj.mp
      have := Nat.and_two_pow_sub_one_eq_mod value 8
      norm_num at this
      simp [this]
    rw [putTail, encode, hb, ih, Nat.shiftRight_eq_div_pow]

/-- The high bits of the first byte for `k` additional bytes. -/
def marker : ℕ → ℕ
  | 0 => 0
  | k + 1 => (marker k >>> 1) ||| 0x80

/-- The variables of `put` after `k` turns of its loop. -/
def PutState.after (value k : ℕ) : PutState :=
  ⟨value - base k, marker k, 0x7f >>> k, 2 ^ (7 * (k + 1)), k⟩

theorem putLoop_turn {value k : ℕ} (fuel : ℕ) (h : base (k + 1) ≤ value) :
    putLoop (fuel + 1) (.after value k) = putLoop fuel (.after value (k + 1)) := by
  have hb : 2 ^ (7 * (k + 1)) ≤ value - base k := by
    simp only [base] at h
    omega
  have hu : 2 ^ (7 * (k + 1)) <<< 7 = 2 ^ (7 * (k + 1 + 1)) := by
    rw [Nat.shiftLeft_eq, ← pow_add]
    ring_nf
  have hv : value - base k - 2 ^ (7 * (k + 1)) = value - base (k + 1) := by
    simp only [base]
    omega
  simp only [putLoop, PutState.after, hb, if_true, hu, hv, marker, Nat.shiftRight_add]

theorem putLoop_exit {value k : ℕ} (fuel : ℕ) (h : value < base (k + 1)) :
    putLoop fuel (.after value k) = .after value k := by
  have hb : ¬ 2 ^ (7 * (k + 1)) ≤ value - base k := by
    have := Nat.two_pow_pos (7 * (k + 1))
    simp only [base] at h
    omega
  cases fuel with
  | zero => rfl
  | succ fuel => simp only [putLoop, PutState.after, hb, if_false]

/-- The loop of `put` stops in the class of the value. -/
theorem putLoop_eq (v : UInt32) :
    putLoop 5 (PutState.init v.toNat) = .after v.toNat (extra v) := by
  have hv : v.toNat < base 5 := v.toNat_lt.trans (by decide)
  rw [show PutState.init v.toNat = .after v.toNat 0 from rfl]
  unfold extra
  split_ifs with h0 h1 h2 h3
  · exact putLoop_exit _ h0
  · rw [putLoop_turn _ (Nat.not_lt.mp h0), putLoop_exit _ h1]
  · rw [putLoop_turn _ (Nat.not_lt.mp h0), putLoop_turn _ (Nat.not_lt.mp h1), putLoop_exit _ h2]
  · rw [putLoop_turn _ (Nat.not_lt.mp h0), putLoop_turn _ (Nat.not_lt.mp h1),
      putLoop_turn _ (Nat.not_lt.mp h2), putLoop_exit _ h3]
  · rw [putLoop_turn _ (Nat.not_lt.mp h0), putLoop_turn _ (Nat.not_lt.mp h1),
      putLoop_turn _ (Nat.not_lt.mp h2), putLoop_turn _ (Nat.not_lt.mp h3), putLoop_exit _ hv]

/-- The first byte of a code: the marker of its class and the low bits of the offset. -/
def firstByte (v : UInt32) : UInt8 :=
  UInt8.ofNat (marker (extra v) + (v.toNat - base (extra v)) % 2 ^ (7 - extra v))

/-- The code of a value: the first byte, then the other bits of the offset from the base
of its class as a little-endian number. -/
theorem put_eq (v : UInt32) : put v =
    firstByte v :: encode (extra v) ((v.toNat - base (extra v)) / 2 ^ (7 - extra v)) := by
  have hk := extra_le v
  have hmask : 0x7f >>> extra v = 2 ^ (7 - extra v) - 1 := by
    interval_cases extra v <;> rfl
  have hor : ∀ r < 2 ^ (7 - extra v), marker (extra v) ||| r = marker (extra v) + r := by
    interval_cases extra v <;> decide
  simp only [put, putLoop_eq, PutState.after, putTail_eq, firstByte, hmask,
    Nat.and_two_pow_sub_one_eq_mod, Nat.shiftRight_eq_div_pow]
  rw [hor _ (Nat.mod_lt _ (Nat.two_pow_pos _))]

@[simp] theorem put_length (v : UInt32) : (put v).length = extra v + 1 := by
  rw [put_eq, List.length_cons, encode_length]

/-- The variables of `get` behind a first byte with `k` additional bytes, `k` at most 4. -/
def Prefix.after (k : ℕ) : Prefix := ⟨k, 7 - k, base k % 2 ^ 32, 2 ^ (7 * (k + 1)), 0x7f >>> k⟩

theorem prefixLoop_first {k r : ℕ} (hk : k ≤ 4) (hr : r < 2 ^ (7 - k)) :
    prefixLoop 8 (UInt8.ofNat (marker k + r)) Prefix.init = .after k := by
  have h : ∀ k < 5, ∀ r < 2 ^ (7 - k),
      prefixLoop 8 (UInt8.ofNat (marker k + r)) Prefix.init = .after k := by decide
  exact h k (by omega) r hr

theorem tailLoop_encode (k : ℕ) {sh v n : ℕ} (rest : Bytes) (hv : v < 2 ^ sh)
    (hn : n < 256 ^ k) (hfit : n * 2 ^ sh < 2 ^ 32) (hsh : sh + 8 * k < 40) :
    tailLoop k sh v ⟨encode k n ++ rest, false⟩ = (v + n * 2 ^ sh, ⟨rest, false⟩) := by
  induction k generalizing sh v n with
  | zero =>
    obtain rfl : n = 0 := by simpa using hn
    simp [tailLoop, encode]
  | succ k ih =>
    have hdigit : (UInt8.ofNat n).toNat = n % 256 := by simp
    have hsplit : n = n % 256 + 256 * (n / 256) := (Nat.mod_add_div n 256).symm
    have hpow : 2 ^ (sh + 8) = 256 * 2 ^ sh := by rw [pow_add]; ring
    have hle : n % 256 * 2 ^ sh ≤ n * 2 ^ sh := Nat.mul_le_mul_right _ (Nat.mod_le n 256)
    have hlow : v ||| (n % 256) <<< sh = v + n % 256 * 2 ^ sh := or_shift_eq_add _ hv
    have hshift : ((n % 256) <<< sh) % 2 ^ 32 = (n % 256) <<< sh := by
      rw [Nat.shiftLeft_eq, Nat.mod_eq_of_lt (by omega)]
    have hv' : v + n % 256 * 2 ^ sh < 2 ^ (sh + 8) := by
      have : n % 256 * 2 ^ sh ≤ 255 * 2 ^ sh := Nat.mul_le_mul_right _ (by omega)
      omega
    have hn' : n / 256 < 256 ^ k := by
      rw [Nat.div_lt_iff_lt_mul (by decide), ← pow_succ]
      exact hn
    have hsum : n % 256 * 2 ^ sh + n / 256 * 2 ^ (sh + 8) = n * 2 ^ sh := by
      conv_rhs => rw [hsplit]
      rw [hpow]
      ring
    have h16 : (sh + 8) % 2 ^ 16 = sh + 8 := Nat.mod_eq_of_lt (by omega)
    have h32 : sh % 32 = sh := Nat.mod_eq_of_lt (by omega)
    rw [encode, List.cons_append, tailLoop, IStream.get_cons]
    simp only [hdigit, h16, h32, hshift, hlow]
    rw [ih hv' hn' (by omega) (by omega), Nat.add_assoc, hsum]

/-- The reader meets the end of the stream inside the additional bytes. -/
theorem tailLoop_short (k sh v : ℕ) (bs : Bytes) (h : bs.length < k) :
    (tailLoop k sh v ⟨bs, false⟩).2 = ⟨[], true⟩ := by
  induction k generalizing sh v bs with
  | zero => omega
  | succ k ih =>
    cases bs with
    | nil => rfl
    | cons b bs =>
      rw [tailLoop, IStream.get_cons]
      exact ih _ _ _ (by simpa using h)

theorem firstByte_ne (v : UInt32) : firstByte v ≠ 0xff := by
  have h : ∀ k < 5, ∀ r < 2 ^ (7 - k), UInt8.ofNat (marker k + r) ≠ 0xff := by decide
  exact h _ (by have := extra_le v; omega) _ (Nat.mod_lt _ (Nat.two_pow_pos _))

theorem firstByte_and_mask (v : UInt32) : (firstByte v).toNat &&& (0x7f >>> extra v) =
    (v.toNat - base (extra v)) % 2 ^ (7 - extra v) := by
  have h : ∀ k < 5, ∀ r < 2 ^ (7 - k),
      (UInt8.ofNat (marker k + r)).toNat &&& (0x7f >>> k) = r := by decide
  exact h _ (by have := extra_le v; omega) _ (Nat.mod_lt _ (Nat.two_pow_pos _))

/-- What `get` does behind the first byte of a code. -/
theorem get_firstByte (v : UInt32) (bs : Bytes) : get ⟨firstByte v :: bs, false⟩ =
    let r := tailLoop (extra v) (7 - extra v)
      ((v.toNat - base (extra v)) % 2 ^ (7 - extra v)) ⟨bs, false⟩
    (UInt32.ofNat (r.1 + base (extra v) % 2 ^ 32), r.2) := by
  have hp : prefixLoop 8 (firstByte v) Prefix.init = .after (extra v) :=
    prefixLoop_first (extra_le v) (Nat.mod_lt _ (Nat.two_pow_pos _))
  simp only [get, IStream.get_cons, firstByte_ne, if_false, hp, Prefix.after, firstByte_and_mask]

/-- Reading back a code returns the value and consumes exactly the code. -/
theorem get_put (v : UInt32) (rest : Bytes) :
    get ⟨put v ++ rest, false⟩ = (v, ⟨rest, false⟩) := by
  have hk := extra_le v
  have hb := base_extra_le v
  have hlt := lt_base_extra v
  have hv := v.toNat_lt
  set k := extra v with hkdef
  set w := v.toNat - base k with hw
  have hpos : 0 < 2 ^ (7 - k) := Nat.two_pow_pos _
  have hsplit : w % 2 ^ (7 - k) + w / 2 ^ (7 - k) * 2 ^ (7 - k) = w := by
    rw [Nat.mul_comm, Nat.mod_add_div]
  have hexp : 2 ^ (7 * (k + 1)) = 256 ^ k * 2 ^ (7 - k) := by
    interval_cases k <;> rfl
  have hn : w / 2 ^ (7 - k) < 256 ^ k := by
    rw [Nat.div_lt_iff_lt_mul hpos, ← hexp]
    omega
  have hbase : base k < 2 ^ 32 := by omega
  rw [put_eq, List.cons_append, get_firstByte, ← hkdef, ← hw,
    tailLoop_encode k rest (Nat.mod_lt _ hpos) hn (by omega) (by omega), hsplit,
    Nat.mod_eq_of_lt hbase]
  simp only [Prod.mk.injEq, and_true]
  apply UInt32.toNat_inj.mp
  simp only [UInt32.toNat_ofNat']
  omega

/-- A code cut short fails the stream. -/
theorem get_put_take (v : UInt32) {j : ℕ} (h : j < (put v).length) :
    (get ⟨(put v).take j, false⟩).2 = ⟨[], true⟩ := by
  cases j with
  | zero => rfl
  | succ j =>
    rw [put_eq, List.take_succ_cons, get_firstByte]
    apply tailLoop_short
    simp only [put_length] at h
    simp only [List.length_take, encode_length]
    omega

theorem tailLoop_rest_le (k sh v : ℕ) (s : IStream) :
    (tailLoop k sh v s).2.rest.length ≤ s.rest.length := by
  induction k generalizing sh v s with
  | zero => exact le_refl _
  | succ k ih =>
    obtain ⟨rest, fail⟩ := s
    cases fail with
    | true => rw [tailLoop, IStream.get_of_fail rfl]
    | false =>
      cases rest with
      | nil => exact le_refl _
      | cons b rest => exact (ih _ _ ⟨rest, false⟩).trans (Nat.le_succ _)

/-- An extraction that succeeds takes at least one byte. -/
theorem get_consumes {s : IStream} (h : (get s).2.fail = false) :
    (get s).2.rest.length < s.rest.length := by
  obtain ⟨rest, fail⟩ := s
  cases fail with
  | true => simp [get, IStream.get_of_fail] at h
  | false =>
    cases rest with
    | nil => cases h
    | cons b rest =>
      apply Nat.lt_succ_of_le
      simp only [get, IStream.get_cons]
      refine (tailLoop_rest_le _ _ _ _).trans (le_of_eq ?_)
      split_ifs <;> rfl

@[simp] theorem get_nil : get ⟨[], false⟩ = (0, ⟨[], true⟩) := rfl

example : put 16512 = [0xc0, 0, 0] ∧ get ⟨[0xc0, 0, 0, 7], false⟩ = (16512, ⟨[7], false⟩) := by
  decide

end Zim.ZInt
