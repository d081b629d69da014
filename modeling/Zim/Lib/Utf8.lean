import Mathlib.Data.List.Basic
import Mathlib.Tactic.NormNum
import Zim.Lib.Streams

/-! The UTF-8 encoding of characters, as digits of their numbers behind a first byte. -/
namespace Utf8
open Cxx

/-- The valid UTF-8 strings are the encodings of lists of characters. -/
def encode (cs : List Char) : Bytes := cs.flatMap String.utf8EncodeChar

/-- The byte that carries six bits of a number. -/
def continuation (d : ℕ) : UInt8 := UInt8.ofNat (d + 0x80)

/-- A number with six more bits for each digit. -/
def assemble (v : ℕ) (ds : List ℕ) : ℕ := ds.foldl (fun v d => 64 * v + d) v

theorem assemble_cons (v d : ℕ) (ds : List ℕ) : assemble v (d :: ds) = assemble (64 * v + d) ds :=
  rfl

@[simp] theorem encode_nil : encode [] = [] := rfl

@[simp] theorem encode_cons (c : Char) (cs : List Char) :
    encode (c :: cs) = String.utf8EncodeChar c ++ encode cs := rfl

@[simp] theorem encode_append (cs cs' : List Char) : encode (cs ++ cs') = encode cs ++ encode cs' :=
  List.flatMap_append

/-- The first byte of a character of several bytes, with the number of the bytes behind it and
the upper bits of the character in the byte. -/
inductive Lead : UInt8 → ℕ → ℕ → Prop
  | two {v : ℕ} : v < 0x20 → Lead (UInt8.ofNat (v + 0xc0)) 1 v
  | three {v : ℕ} : v < 0x10 → Lead (UInt8.ofNat (v + 0xe0)) 2 v
  | four {v : ℕ} : v < 0x08 → Lead (UInt8.ofNat (v + 0xf0)) 3 v

/-- The encoding of a character that is not an ASCII one. -/
structure Multibyte (c : Char) (lead : UInt8) (v : ℕ) (ds : List ℕ) : Prop where
  encode : String.utf8EncodeChar c = lead :: ds.map continuation
  lead : Lead lead ds.length v
  digit : ∀ d ∈ ds, d < 64
  value : assemble v ds = c.val.toNat

theorem ascii {c : Char} (h : c.val.toNat < 0x80) :
    String.utf8EncodeChar c = [UInt8.ofNat c.toNat] := by
  have hle : c.val.toNat ≤ 0x7f := by omega
  simp only [String.utf8EncodeChar, if_pos hle]
  rfl

theorem multibyte {c : Char} (h : 0x80 ≤ c.val.toNat) : ∃ lead v ds, Multibyte c lead v ds := by
  have hc : c.val.toNat < 0x110000 := by
    have := c.valid
    simp only [UInt32.isValidChar, Nat.isValidChar] at this
    omega
  generalize hn : c.val.toNat = n at h hc
  have h1 : ¬ n ≤ 0x7f := by omega
  by_cases h2 : n ≤ 0x7ff
  · refine ⟨_, n / 64 % 0x20, [n % 0x40], ?_, .two (by omega), ?_, ?_⟩
    · simp only [String.utf8EncodeChar, hn, if_neg h1, if_pos h2]
      rfl
    · simp only [List.mem_singleton, forall_eq]
      omega
    · simp only [assemble, List.foldl_cons, List.foldl_nil, hn]
      omega
  by_cases h3 : n ≤ 0xffff
  · refine ⟨_, n / 4096 % 0x10, [n / 64 % 0x40, n % 0x40], ?_, .three (by omega), ?_, ?_⟩
    · simp only [String.utf8EncodeChar, hn, if_neg h1, if_neg h2, if_pos h3]
      rfl
    · simp only [List.mem_cons, List.not_mem_nil, or_false, forall_eq_or_imp, forall_eq]
      omega
    · simp only [assemble, List.foldl_cons, List.foldl_nil, hn]
      omega
  · refine ⟨_, n / 262144 % 0x08, [n / 4096 % 0x40, n / 64 % 0x40, n % 0x40], ?_,
      .four (by omega), ?_, ?_⟩
    · simp only [String.utf8EncodeChar, hn, if_neg h1, if_neg h2, if_neg h3]
      rfl
    · simp only [List.mem_cons, List.not_mem_nil, or_false, forall_eq_or_imp, forall_eq]
      omega
    · simp only [assemble, List.foldl_cons, List.foldl_nil, hn]
      omega

theorem encode_injective : Function.Injective encode := by
  intro cs cs' h
  have hbytes : cs.utf8Encode = cs'.utf8Encode := congrArg List.toByteArray h
  have hdecode := congrArg ByteArray.utf8Decode? hbytes
  simpa using hdecode

/-- A byte of ASCII stands for itself only. -/
theorem eq_of_mem_ascii {c : Char} {b : UInt8} (hb : b.toNat < 0x80)
    (h : b ∈ String.utf8EncodeChar c) : c.toNat = b.toNat := by
  by_cases hc : c.val.toNat < 0x80
  · rw [ascii hc, List.mem_singleton] at h
    rw [h, UInt8.toNat_ofNat_of_lt' (show c.toNat < 256 from hc.trans (by decide))]
  · obtain ⟨lead, v, ds, hm⟩ := multibyte (Nat.le_of_not_lt hc)
    have hlarge : 0x80 ≤ b.toNat := by
      rw [hm.encode] at h
      rcases List.mem_cons.mp h with rfl | h
      · have hlead := hm.lead
        generalize ds.length = k at hlead
        cases hlead <;> simp only [UInt8.toNat_ofNat'] <;> omega
      · obtain ⟨d, hd, rfl⟩ := List.mem_map.mp h
        have hd := hm.digit d hd
        simp only [continuation, UInt8.toNat_ofNat']
        omega
    omega

/-- Characters are told apart from their later bytes: every encoding begins exactly one. -/
def isFirst (b : UInt8) : Bool := b >>> 6 ≠ 2

theorem isFirst_continuation {d : ℕ} (h : d < 64) : isFirst (continuation d) = false := by
  have hall : ∀ d < 64, isFirst (continuation d) = false := by decide
  exact hall d h

theorem Lead.isFirst {b : UInt8} {k v : ℕ} (h : Lead b k v) : isFirst b = true := by
  have h2 : ∀ v < 0x20, Utf8.isFirst (UInt8.ofNat (v + 0xc0)) = true := by decide
  have h3 : ∀ v < 0x10, Utf8.isFirst (UInt8.ofNat (v + 0xe0)) = true := by decide
  have h4 : ∀ v < 0x08, Utf8.isFirst (UInt8.ofNat (v + 0xf0)) = true := by decide
  cases h with
  | two hv => exact h2 _ hv
  | three hv => exact h3 _ hv
  | four hv => exact h4 _ hv

theorem countP_utf8EncodeChar (c : Char) : (String.utf8EncodeChar c).countP isFirst = 1 := by
  by_cases h : c.val.toNat < 0x80
  · have hall : ∀ n < 0x80, isFirst (UInt8.ofNat n) = true := by decide
    have hfirst : isFirst (UInt8.ofNat c.toNat) = true := hall _ h
    rw [ascii h, List.countP_singleton, if_pos hfirst]
  · obtain ⟨lead, v, ds, hm⟩ := multibyte (Nat.le_of_not_lt h)
    have hrest : (ds.map continuation).countP isFirst = 0 := by
      apply List.countP_eq_zero.mpr
      intro b hb
      obtain ⟨d, hd, rfl⟩ := List.mem_map.mp hb
      simp [isFirst_continuation (hm.digit d hd)]
    rw [hm.encode, List.countP_cons_of_pos hm.lead.isFirst, hrest]

/-- The number of characters in an encoding. -/
theorem countP_encode (cs : List Char) : (encode cs).countP isFirst = cs.length := by
  induction cs with
  | nil => rfl
  | cons c cs ih =>
    rw [encode_cons, List.countP_append, countP_utf8EncodeChar, ih, List.length_cons, Nat.add_comm]

end Utf8
