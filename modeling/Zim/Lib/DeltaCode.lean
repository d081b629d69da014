import Mathlib.Algebra.Group.Basic
import Mathlib.Data.List.Chain
import Mathlib.Tactic.SplitIfs

/-! Difference coding of a list of key-value pairs: every key is stored as its difference
to the previous key, and a value as its difference to the previous value when the key
repeats. -/
namespace DeltaCode
variable {G : Type*} [AddCommGroup G] [DecidableEq G]

def encode (lastKey lastVal : G) : List (G × G) → List (G × G)
  | [] => []
  | (k, v) :: rest =>
    (k - lastKey, if k - lastKey = 0 then v - lastVal else v) :: encode k v rest

def decode (lastKey lastVal : G) : List (G × G) → List (G × G)
  | [] => []
  | (d, v) :: rest =>
    if d = 0 then (lastKey, v + lastVal) :: decode lastKey (v + lastVal) rest
    else (d + lastKey, v) :: decode (d + lastKey) v rest

/-- A decoder that sums up the keys and takes every value as it is stored. -/
def decodeKeys (lastKey : G) : List (G × G) → List (G × G)
  | [] => []
  | (d, v) :: rest => (lastKey + d, v) :: decodeKeys (lastKey + d) rest

@[simp] theorem encode_length (a b : G) (l : List (G × G)) : (encode a b l).length = l.length := by
  induction l generalizing a b with
  | nil => rfl
  | cons p rest ih => simp [encode, ih]

theorem decode_encode (a b : G) (l : List (G × G)) : decode a b (encode a b l) = l := by
  induction l generalizing a b with
  | nil => rfl
  | cons p rest ih =>
    obtain ⟨k, v⟩ := p
    by_cases h : k - a = 0
    · obtain rfl : k = a := sub_eq_zero.mp h
      simp [encode, decode, ih]
    · simp [encode, decode, h, ih]

/-- Taking stored values as they are is right exactly when every value before a repeated
key is zero. -/
theorem decodeKeys_encode_eq_iff (a b : G) (l : List (G × G)) :
    decodeKeys a (encode a b l) = l ↔
      ((a, b) :: l).IsChain (fun p q => p.1 = q.1 → p.2 = 0) := by
  induction l generalizing a b with
  | nil => simp [encode, decodeKeys]
  | cons p rest ih =>
    obtain ⟨k, v⟩ := p
    have hk : a + (k - a) = k := by rw [add_comm, sub_add_cancel]
    rw [List.isChain_cons_cons, ← ih k v]
    simp only [encode, decodeKeys, hk, List.cons.injEq, Prod.mk.injEq, true_and]
    refine and_congr ?_ Iff.rfl
    split_ifs with h
    · simp [(sub_eq_zero.mp h).symm]
    · exact iff_of_true rfl fun h' => absurd (sub_eq_zero.mpr h'.symm) h

end DeltaCode
