import Zim.Format.ZInt
import Mathlib.Order.Bounds.Basic

/-! The code of `ZIntStream` as a whole: sequences of values, and what `get` accepts. -/
namespace Zim.ZInt
open Cxx LittleEndian

/-- The bytes of one `put` after another. -/
def puts (values : List UInt32) : Bytes := values.flatMap put

/-- One `get` after another. -/
def gets : ℕ → IStream → List UInt32 × IStream
  | 0, s => ([], s)
  | n + 1, s =>
    let (value, s) := get s
    let (values, s) := gets n s
    (value :: values, s)

theorem gets_puts (values : List UInt32) (rest : Bytes) :
    gets values.length ⟨puts values ++ rest, false⟩ = (values, ⟨rest, false⟩) := by
  induction values with
  | nil => rfl
  | cons value values ih =>
    have hcons : puts (value :: values) ++ rest = put value ++ (puts values ++ rest) := by
      simp [puts]
    simp only [List.length_cons, hcons, gets, get_put, ih]

/-- The ranges of the format: what is written in `n` bytes. -/
def InFormatRange (n : ℕ) (value : UInt32) : Prop :=
  match n with
  | 1 => value.toNat ≤ 127
  | 2 => 128 ≤ value.toNat ∧ value.toNat ≤ 16511
  | 3 => 16512 ≤ value.toNat ∧ value.toNat ≤ 2113663
  | 4 => 2113664 ≤ value.toNat ∧ value.toNat ≤ 270549119
  | 5 => 270549119 < value.toNat
  | _ => False

/-- The ranges are disjoint, and a value lies in that of its class. -/
theorem inFormatRange_iff (n : ℕ) (value : UInt32) :
    InFormatRange n value ↔ n = extra value + 1 := by
  have hvalue : InFormatRange (extra value + 1) value := by
    unfold extra
    split_ifs <;> simp only [InFormatRange, base] at * <;> omega
  constructor
  · intro h
    have hclass := extra_le value
    have hn : n ≤ 5 := by
      by_contra hn
      obtain ⟨m, rfl⟩ : ∃ m, n = m + 6 := ⟨n - 6, by omega⟩
      exact h
    interval_cases n <;> interval_cases extra value <;>
      simp only [InFormatRange] at h hvalue ⊢ <;> omega
  · intro h
    rw [h]
    exact hvalue

theorem put_length_least (value : UInt32) :
    IsLeast {n | InFormatRange n value} (put value).length := by
  constructor
  · exact (inFormatRange_iff _ _).mpr (put_length value)
  · intro n hn
    rw [put_length, (inFormatRange_iff _ _).mp hn]

/-- Reading a sequence of codes gives the values back, takes all of the bytes and leaves
nothing for one more `get`; and no value could be written in fewer bytes. -/
theorem gets_round_trip (values : List UInt32) :
    (gets values.length (.ofBytes (puts values))).1 = values ∧
      (gets values.length (.ofBytes (puts values))).2 = .ofBytes [] ∧
      (get (gets values.length (.ofBytes (puts values))).2).2.fail = true ∧
      ∀ value, IsLeast {n | InFormatRange n value} (put value).length := by
  have h := gets_puts values []
  rw [List.append_nil] at h
  rw [IStream.ofBytes, h]
  exact ⟨rfl, rfl, rfl, put_length_least⟩

/-- The set bits in front of the first clear one. -/
def marks (ch : UInt8) : ℕ := ((List.range 8).takeWhile fun i => ch.toNat.testBit (7 - i)).length

/-- The number the format gives to the code at the front of some bytes. -/
def formatValue : Bytes → ℕ
  | [] => 0
  | ch :: bs =>
    base (marks ch) + ch.toNat % 2 ^ (7 - marks ch) +
      2 ^ (7 - marks ch) * decode (bs.take (marks ch))

/-- What `get` takes from a stream. -/
def consumed (s : IStream) : Bytes := s.rest.take (s.rest.length - (get s).2.rest.length)

/-- The counts of the shifts in the second loop of `get`, along the turns of `tailLoop`. -/
def tailShifts : ℕ → ℕ → IStream → List ℕ
  | 0, _, _ => []
  | N + 1, sh, s =>
    match s.get with
    | (none, _) => []
    | (some _, s) => sh :: tailShifts N ((sh + 8) % 2 ^ 16) s

/-- The counts of the shifts `get` makes in its 32-bit result. -/
def shifts (s : IStream) : List ℕ :=
  match s.get with
  | (none, _) => []
  | (some ch, s) =>
    let s := if ch = 0xff then s.setFail else s
    let p := prefixLoop 8 ch Prefix.init
    tailShifts p.N p.s s

/-- A `get` that reads what `put` writes: its value has the bytes taken as its code, no shift
is too wide for the result type, and the value is the one the format gives to the bytes. -/
structure Faithful (s : IStream) : Prop where
  code : put (get s).1 = consumed s
  shifts : ∀ sh ∈ shifts s, sh < 32
  value : (get s).1.toNat = formatValue (consumed s)

/-- A fact about all bytes, checked one by one. -/
theorem forall_byte {p : UInt8 → Prop} (h : ∀ n < 256, p (UInt8.ofNat n)) (ch : UInt8) : p ch := by
  have hch := h ch.toNat ch.toNat_lt
  rwa [UInt8.ofNat_toNat] at hch

theorem prefixLoop_N (ch : UInt8) : (prefixLoop 8 ch Prefix.init).N = marks ch := by
  apply forall_byte (p := fun ch => (prefixLoop 8 ch Prefix.init).N = marks ch)
  decide +kernel

/-- A first byte with at most four marks is one that `put` can write. -/
theorem eq_marker_add {ch : UInt8} (h : marks ch ≤ 4) :
    ch = UInt8.ofNat (marker (marks ch) + ch.toNat % 2 ^ (7 - marks ch)) := by
  apply forall_byte (p := fun ch => marks ch ≤ 4 →
    ch = UInt8.ofNat (marker (marks ch) + ch.toNat % 2 ^ (7 - marks ch))) _ ch h
  decide +kernel

theorem base_mono : Monotone base := by
  apply monotone_nat_of_le_succ
  intro k
  exact Nat.le_add_right _ _

/-- Five marks announce more than a 32-bit value. -/
theorem marks_le_of_fits {ch : UInt8} {bs : Bytes} (h : formatValue (ch :: bs) < 2 ^ 32) :
    marks ch ≤ 4 := by
  by_contra hmarks
  have hbase : base 5 ≤ base (marks ch) := base_mono (by omega)
  have hbig : 2 ^ 32 ≤ base 5 := by decide
  simp only [formatValue] at h
  omega

theorem tailLoop_fail (k sh v : ℕ) {s : IStream} (h : s.fail = true) :
    tailLoop k sh v s = (v, s) := by
  cases k with
  | zero => rfl
  | succ k => rw [tailLoop, IStream.get_of_fail h]

theorem tailLoop_rest {k : ℕ} (sh v : ℕ) {bs : Bytes} (h : k ≤ bs.length) :
    (tailLoop k sh v ⟨bs, false⟩).2 = ⟨bs.drop k, false⟩ := by
  induction k generalizing sh v bs with
  | zero => rfl
  | succ k ih =>
    cases bs with
    | nil => exact absurd h (Nat.not_succ_le_zero k)
    | cons b bs =>
      rw [tailLoop, IStream.get_cons, List.drop_succ_cons]
      exact ih _ _ (Nat.le_of_succ_le_succ h)

/-- A `get` that succeeds found its first byte and all that this byte announces. -/
theorem get_ok {s : IStream} (h : (get s).2.fail = false) :
    ∃ ch bs, s = ⟨ch :: bs, false⟩ ∧ ch ≠ 0xff ∧ marks ch ≤ bs.length ∧
      (get s).2 = ⟨bs.drop (marks ch), false⟩ := by
  obtain ⟨rest, fail⟩ := s
  cases fail with
  | true => simp [get, IStream.get_of_fail] at h
  | false =>
    cases rest with
    | nil => cases h
    | cons ch bs =>
      have hff : ch ≠ 0xff := by
        rintro rfl
        simp only [get, IStream.get_cons, if_true] at h
        rw [tailLoop_fail _ _ _ (IStream.setFail_fail _)] at h
        exact absurd h (by simp)
      have hlen : marks ch ≤ bs.length := by
        by_contra hshort
        have hN := prefixLoop_N ch
        simp [get, hff, hN, tailLoop_short _ _ _ _ (Nat.lt_of_not_le hshort)] at h
      refine ⟨ch, bs, rfl, hff, hlen, ?_⟩
      simp only [get, IStream.get_cons, if_neg hff, prefixLoop_N]
      exact tailLoop_rest _ _ hlen

theorem consumed_eq {ch : UInt8} {bs : Bytes} (hlen : marks ch ≤ bs.length)
    (hrest : (get ⟨ch :: bs, false⟩).2 = ⟨bs.drop (marks ch), false⟩) :
    consumed ⟨ch :: bs, false⟩ = ch :: bs.take (marks ch) := by
  have hcount : (ch :: bs).length - (bs.drop (marks ch)).length = marks ch + 1 := by
    rw [List.length_cons, List.length_drop]
    omega
  rw [consumed, hrest]
  simp only [hcount, List.take_succ_cons]

/-- The number given to some bytes depends only on the bytes of the code. -/
theorem formatValue_take (ch : UInt8) (bs : Bytes) :
    formatValue (ch :: bs.take (marks ch)) = formatValue (ch :: bs) := by
  simp only [formatValue, List.take_take, Nat.min_self]

theorem extra_eq {value : UInt32} {k : ℕ} (hlow : base k ≤ value.toNat)
    (hhigh : value.toNat < base (k + 1)) : extra value = k := by
  have hlow' := base_extra_le value
  have hhigh' : value.toNat < base (extra value + 1) := lt_base_extra value
  rcases Nat.lt_trichotomy (extra value) k with h | h | h
  · have := base_mono (show extra value + 1 ≤ k from h)
    omega
  · exact h
  · have := base_mono (show k + 1 ≤ extra value from h)
    omega

theorem formatValue_put (value : UInt32) : formatValue (put value) = value.toNat := by
  have hbyte : ∀ k < 5, ∀ r < 2 ^ (7 - k), marks (UInt8.ofNat (marker k + r)) = k ∧
      (UInt8.ofNat (marker k + r)).toNat % 2 ^ (7 - k) = r := by decide +kernel
  have hpos : 0 < 2 ^ (7 - extra value) := Nat.two_pow_pos _
  obtain ⟨hmarks, hlow⟩ := hbyte (extra value) (Nat.lt_succ_of_le (extra_le value)) _
    (Nat.mod_lt (value.toNat - base (extra value)) hpos)
  have hexp : 2 ^ (7 * (extra value + 1)) = 2 ^ (7 - extra value) * 256 ^ extra value := by
    have hk := extra_le value
    interval_cases extra value <;> rfl
  have hdigits : (value.toNat - base (extra value)) / 2 ^ (7 - extra value) <
      256 ^ extra value := by
    have hhigh := lt_base_extra value
    rw [hexp] at hhigh
    apply Nat.div_lt_of_lt_mul
    have := base_extra_le value
    omega
  have hbase := base_extra_le value
  rw [put_eq]
  simp only [formatValue, firstByte, hmarks, hlow]
  rw [List.take_of_length_le (encode_length _ _).le, decode_encode_of_lt hdigits, Nat.add_assoc,
    Nat.mod_add_div]
  omega

theorem tailShifts_lt {k sh n : ℕ} {s : IStream} (h : sh + 8 * k < 40)
    (hn : n ∈ tailShifts k sh s) : n < 32 := by
  induction k generalizing sh s with
  | zero => exact absurd hn List.not_mem_nil
  | succ k ih =>
    rw [tailShifts] at hn
    split at hn
    · exact absurd hn List.not_mem_nil
    · rw [Nat.mod_eq_of_lt (by omega)] at hn
      rcases List.mem_cons.mp hn with rfl | hn
      · omega
      · exact ih (by omega) hn

/-- What `get` returns for a code whose number fits the result type. -/
theorem get_of_fits {ch : UInt8} {bs : Bytes} (hff : ch ≠ 0xff) (hlen : marks ch ≤ bs.length)
    (hfits : formatValue (ch :: bs) < 2 ^ 32) :
    (get ⟨ch :: bs, false⟩).1 = UInt32.ofNat (formatValue (ch :: bs)) ∧
      put (UInt32.ofNat (formatValue (ch :: bs))) = ch :: bs.take (marks ch) := by
  have hk := marks_le_of_fits hfits
  have hch := eq_marker_add hk
  generalize hn : decode (bs.take (marks ch)) = n
  generalize hr : ch.toNat % 2 ^ (7 - marks ch) = r at hch
  have hval : formatValue (ch :: bs) = base (marks ch) + r + 2 ^ (7 - marks ch) * n := by
    rw [formatValue, hn, hr]
  have htail : bs.take (marks ch) = encode (marks ch) n := by
    have h := encode_decode (bs.take (marks ch))
    rw [List.length_take_of_le hlen, hn] at h
    exact h.symm
  have hpos : 0 < 2 ^ (7 - marks ch) := Nat.two_pow_pos _
  have hr' : r < 2 ^ (7 - marks ch) := hr ▸ Nat.mod_lt _ hpos
  have hn' : n < 256 ^ marks ch := by
    have h := decode_lt (bs.take (marks ch))
    rwa [List.length_take_of_le hlen, hn] at h
  have hcomm : 2 ^ (7 - marks ch) * n = n * 2 ^ (7 - marks ch) := Nat.mul_comm _ _
  generalize hF : formatValue (ch :: bs) = F at hfits hval
  have hvalue : (UInt32.ofNat F).toNat = F := UInt32.toNat_ofNat_of_lt' hfits
  constructor
  · have hp : prefixLoop 8 ch Prefix.init = .after (marks ch) := by
      conv_lhs => rw [hch]
      exact prefixLoop_first hk hr'
    have hmask : ch.toNat &&& (0x7f >>> marks ch) = r := by
      have hand : 0x7f >>> marks ch = 2 ^ (7 - marks ch) - 1 := by
        interval_cases marks ch <;> rfl
      rw [hand, Nat.and_two_pow_sub_one_eq_mod, hr]
    have hloop := tailLoop_encode (marks ch) (bs.drop (marks ch)) hr' hn' (by omega) (by omega)
    rw [← htail, List.take_append_drop] at hloop
    simp only [get, IStream.get_cons, if_neg hff, hp, Prefix.after, hmask, hloop]
    apply congrArg UInt32.ofNat
    rw [Nat.mod_eq_of_lt (by omega)]
    omega
  · have hexp : 2 ^ (7 * (marks ch + 1)) = 2 ^ (7 - marks ch) * 256 ^ marks ch := by
      interval_cases marks ch <;> rfl
    have hdigits : r + 2 ^ (7 - marks ch) * n < 2 ^ (7 * (marks ch + 1)) := by
      rw [hexp]
      calc r + 2 ^ (7 - marks ch) * n < 2 ^ (7 - marks ch) * (n + 1) := by
            rw [Nat.mul_succ]
            omega
        _ ≤ 2 ^ (7 - marks ch) * 256 ^ marks ch := Nat.mul_le_mul_left _ hn'
    have hclass : extra (UInt32.ofNat F) = marks ch := by
      apply extra_eq
      · omega
      · simp only [base]
        omega
    have hoffset : F - base (marks ch) = r + 2 ^ (7 - marks ch) * n := by omega
    rw [put_eq, firstByte, hclass, hvalue, hoffset, Nat.add_mul_mod_self_left,
      Nat.mod_eq_of_lt hr', ← hch, Nat.add_mul_div_left _ _ hpos, Nat.div_eq_of_lt hr',
      Nat.zero_add, htail]

/-- A `get` that succeeds reads what `put` writes exactly when the number the format gives to
the bytes fits the 32 bits of the result; and where it does not, `put` writes other bytes. -/
theorem get_faithful_iff {s : IStream} (h : (get s).2.fail = false) :
    (Faithful s ↔ formatValue s.rest < 2 ^ 32) ∧
      (put (get s).1 = consumed s ↔ formatValue s.rest < 2 ^ 32) := by
  obtain ⟨ch, bs, rfl, hff, hlen, hrest⟩ := get_ok h
  have hconsumed := consumed_eq hlen hrest
  have hfaithful (hfits : formatValue (ch :: bs) < 2 ^ 32) : Faithful ⟨ch :: bs, false⟩ := by
    obtain ⟨hvalue, hcode⟩ := get_of_fits hff hlen hfits
    refine ⟨?_, ?_, ?_⟩
    · rw [hvalue, hcode, hconsumed]
    · intro sh hsh
      have hk := marks_le_of_fits hfits
      have hp : prefixLoop 8 ch Prefix.init = .after (marks ch) := by
        conv_lhs => rw [eq_marker_add hk]
        exact prefixLoop_first hk (Nat.mod_lt _ (Nat.two_pow_pos _))
      simp only [shifts, IStream.get_cons, if_neg hff, hp, Prefix.after] at hsh
      exact tailShifts_lt (by omega) hsh
    · rw [hvalue, hconsumed, formatValue_take, UInt32.toNat_ofNat_of_lt' hfits]
  have hfits (hcode : put (get ⟨ch :: bs, false⟩).1 = consumed ⟨ch :: bs, false⟩) :
      formatValue (ch :: bs) < 2 ^ 32 := by
    rw [← formatValue_take, ← hconsumed, ← hcode, formatValue_put]
    exact UInt32.toNat_lt _
  exact ⟨⟨fun hs => hfits hs.code, hfaithful⟩, ⟨hfits, fun hs => (hfaithful hs).code⟩⟩

/-- Two bytes, which is what `put` writes for 128. -/
theorem get_faithful_iff_two :
    (get (.ofBytes [0x80, 0])).2.fail = false ∧ Faithful (.ofBytes [0x80, 0]) := by
  have h : (get (.ofBytes [0x80, 0])).2.fail = false := by decide
  exact ⟨h, (get_faithful_iff h).1.mpr (by decide)⟩

/-- A first byte with five marks and the five bytes it announces. -/
def wideCode : IStream := .ofBytes [0xf8, 0, 0, 0, 0, 1]

/-- A code of the length of the longest ones `put` writes, but for a larger number. -/
def cutCode : IStream := .ofBytes [0xf0, 0, 0, 0, 0x20]

/-- Five marks lead to a shift by 34, and four may lose the upper bits of the last byte. -/
theorem get_not_faithful :
    ((get wideCode).2.fail = false ∧ 34 ∈ shifts wideCode ∧
        put (get wideCode).1 ≠ consumed wideCode) ∧
      (get cutCode).2.fail = false ∧ (get cutCode).1 = 270549120 ∧
        put (get cutCode).1 ≠ consumed cutCode := by
  decide

end Zim.ZInt
