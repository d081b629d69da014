import Mathlib.Data.List.Basic
import Mathlib.Data.List.TakeDrop
import Mathlib.Algebra.Group.Nat.Even

/-! Dictionary compression: parts of a history are repeated from a distance, and a circular buffer
keeps the end of the history. -/
namespace Lz77
variable {α : Type} {z a : α} {h h' buf xs : List α} {d n m pos : ℕ}

/-- The element that lies `d` elements in front of the last one, or `z` where there is none. -/
def back (z : α) (h : List α) (d : ℕ) : α := (h.reverse[d]?).getD z

/-- The history behind `n` elements that are repeated one by one from distance `d`. -/
def extend (z : α) (h : List α) (d : ℕ) : ℕ → List α
  | 0 => h
  | n + 1 => extend z (h ++ [back z h d]) d n

theorem back_nil : back z [] d = z := rfl

theorem back_of_lt (hd : d < h.length) : back z h d = h[h.length - 1 - d] := by
  rw [back, List.getElem?_reverse hd, List.getElem?_eq_getElem (by omega), Option.getD_some]

theorem extend_length : (extend z h d n).length = h.length + n := by
  induction n generalizing h with
  | zero => rfl
  | succ n ih =>
    rw [extend, ih, List.length_append, List.length_singleton]
    omega

theorem extend_add : extend z h d (n + m) = extend z (extend z h d n) d m := by
  induction n generalizing h with
  | zero => rw [Nat.zero_add, extend]
  | succ n ih => rw [Nat.add_right_comm, extend, ih, extend]

theorem extend_succ : extend z h d (n + 1) = extend z h d n ++ [back z (extend z h d n) d] := by
  rw [extend_add, extend, extend]

theorem extend_append (z : α) (h : List α) (d n : ℕ) :
    ∃ xs, extend z h d n = h ++ xs ∧ xs.length = n := by
  induction n with
  | zero => exact ⟨[], (List.append_nil h).symm, rfl⟩
  | succ n ih =>
    obtain ⟨xs, hxs, hlen⟩ := ih
    refine ⟨xs ++ [back z (extend z h d n) d], ?_, ?_⟩
    · rw [extend_succ, ← List.append_assoc, ← hxs]
    · rw [List.length_append, hlen, List.length_singleton]

/-- At most as many elements as lie in the distance are one piece of the history. -/
theorem extend_of_le (hd : d < h.length) (hn : n ≤ d + 1) :
    extend z h d n = h ++ (h.drop (h.length - 1 - d)).take n := by
  induction n with
  | zero => rw [extend, List.take_zero, List.append_nil]
  | succ n ih =>
    have hlt : n < (h.drop (h.length - 1 - d)).length := by
      rw [List.length_drop]
      omega
    rw [extend_succ, ih (by omega), List.take_succ_eq_append_getElem hlt, ← List.append_assoc]
    congr 2
    have hlen : (h ++ (h.drop (h.length - 1 - d)).take n).length = h.length + n := by
      rw [List.length_append, List.length_take, Nat.min_eq_left (by omega)]
    rw [back_of_lt (by omega)]
    rw [List.getElem_append_left (by omega), List.getElem_drop]
    congr 1
    omega

/-- Elements that all repeat what lies at the distance are what `extend` gives. -/
theorem extend_take {data : List α} {p : ℕ} (hle : p + n ≤ data.length) (hd : d < p)
    (hrep : ∀ i, p ≤ i → (hi : i < p + n) → data[i] = data[i - d - 1]) :
    extend z (data.take p) d n = data.take (p + n) := by
  induction n with
  | zero => rfl
  | succ n ih =>
    have hlen : (data.take (p + n)).length = p + n := by
      rw [List.length_take, Nat.min_eq_left (by omega)]
    rw [extend_succ, ih (by omega) fun i hp hi => hrep i hp (by omega), ← Nat.add_assoc,
      List.take_succ_eq_append_getElem (show p + n < data.length by omega),
      back_of_lt (by omega), List.getElem_take, hrep (p + n) (by omega) (by omega)]
    congr 3
    omega

/-- The place in a circular buffer of the given size that lies `d` elements in front of the last
one written. -/
def slot (size pos d : ℕ) : ℕ := if d < pos then pos - d - 1 else pos + size - d - 1

/-- The buffer with some elements stored from `pos` on. -/
def store (buf : List α) (pos : ℕ) (xs : List α) : List α :=
  buf.take pos ++ xs ++ buf.drop (pos + xs.length)

theorem store_length (hle : pos + xs.length ≤ buf.length) :
    (store buf pos xs).length = buf.length := by
  simp only [store, List.length_append, List.length_take, List.length_drop]
  omega

theorem getElem?_store_left {i : ℕ} (hi : i < pos) (hle : pos ≤ buf.length) :
    (store buf pos xs)[i]? = buf[i]? := by
  rw [store, List.append_assoc, List.getElem?_append_left (by rw [List.length_take]; omega),
    List.getElem?_take_of_lt hi]

theorem getElem?_store_mid {i : ℕ} (hi : i < xs.length) (hle : pos ≤ buf.length) :
    (store buf pos xs)[pos + i]? = xs[i]? := by
  have hlen : (buf.take pos).length = pos := by rw [List.length_take, Nat.min_eq_left hle]
  rw [store, List.append_assoc, List.getElem?_append_right (by omega),
    List.getElem?_append_left (by omega), hlen, Nat.add_sub_cancel_left]

theorem getElem?_store_right {i : ℕ} (hi : pos + xs.length ≤ i) (hle : pos ≤ buf.length) :
    (store buf pos xs)[i]? = buf[i]? := by
  have hlen : (buf.take pos ++ xs).length = pos + xs.length := by
    rw [List.length_append, List.length_take, Nat.min_eq_left hle]
  rw [store, List.getElem?_append_right (by omega), hlen, List.getElem?_drop]
  congr 1
  omega

/-- The buffer, of which `pos` is the place of the next element, holds the end of the history. -/
structure Keeps (buf : List α) (pos : ℕ) (h : List α) : Prop where
  pos_le : pos ≤ buf.length
  pos_mod : ∃ k, h.length = k * buf.length + pos
  slots : ∀ d, d < h.length → d < buf.length → buf[slot buf.length pos d]? = h[h.length - 1 - d]?

namespace Keeps

theorem nil : Keeps buf 0 [] := ⟨Nat.zero_le _, ⟨0, by simp⟩, fun d hd => absurd hd (by simp)⟩

theorem pos_le_length (hk : Keeps buf pos h) : pos ≤ h.length := by
  obtain ⟨k, hk⟩ := hk.pos_mod
  exact hk ▸ Nat.le_add_left _ _

/-- A distance that goes back beyond the start of the buffer is only there once the buffer is
full. -/
theorem full (hk : Keeps buf pos h) (hd : d < h.length) (hpos : pos ≤ d) :
    buf.length ≤ h.length := by
  obtain ⟨k, hk⟩ := hk.pos_mod
  cases k with
  | zero => omega
  | succ k =>
    rw [hk, Nat.succ_mul]
    omega

theorem wrap (hk : Keeps buf buf.length h) : Keeps buf 0 h := by
  obtain ⟨k, hlen⟩ := hk.pos_mod
  refine ⟨Nat.zero_le _, ⟨k + 1, by rw [hlen, Nat.succ_mul, Nat.add_zero]⟩, fun d hd hsize => ?_⟩
  rw [← hk.slots d hd hsize]
  unfold slot
  rw [if_neg (Nat.not_lt_zero d), if_pos hsize, Nat.zero_add]

theorem get (hk : Keeps buf pos h) (hd : d < h.length) (hsize : d < buf.length) :
    (buf[slot buf.length pos d]?).getD z = back z h d := by
  rw [hk.slots d hd hsize, back, List.getElem?_reverse hd]

/-- Elements stored behind the last one. -/
theorem store (hk : Keeps buf pos h) (xs : List α) (hle : pos + xs.length ≤ buf.length) :
    Keeps (store buf pos xs) (pos + xs.length) (h ++ xs) := by
  obtain ⟨k, hlen⟩ := hk.pos_mod
  have hsize := store_length hle
  refine ⟨by rw [hsize]; exact hle, ⟨k, ?_⟩, fun d hd hd' => ?_⟩
  · rw [hsize, List.length_append, hlen, Nat.add_assoc]
  rw [hsize] at hd' ⊢
  rw [List.length_append] at hd ⊢
  by_cases hnew : d < xs.length
  · -- one of the elements that were stored
    have hslot : slot buf.length (pos + xs.length) d = pos + (xs.length - 1 - d) := by
      unfold slot
      rw [if_pos (by omega)]
      omega
    rw [hslot, getElem?_store_mid (by omega) hk.pos_le, List.getElem?_append_right (by omega)]
    congr 1
    omega
  · have hold : slot buf.length (pos + xs.length) d = slot buf.length pos (d - xs.length) := by
      unfold slot
      split_ifs <;> omega
    have hget := hk.slots (d - xs.length) (by omega) (by omega)
    have hkept : (Lz77.store buf pos xs)[slot buf.length pos (d - xs.length)]? =
        buf[slot buf.length pos (d - xs.length)]? := by
      by_cases hpos : d - xs.length < pos
      · apply getElem?_store_left _ hk.pos_le
        unfold slot
        rw [if_pos hpos]
        omega
      · apply getElem?_store_right _ hk.pos_le
        unfold slot
        rw [if_neg hpos]
        omega
    rw [hold, hkept, hget, List.getElem?_append_left (by omega)]
    congr 1
    omega

/-- A piece of the buffer that begins `d` elements in front of the last one, and does not reach over
it, is a piece of the history. -/
theorem piece (hk : Keeps buf pos h) (hd : d < h.length) (hsize : d < buf.length)
    (hn : n ≤ d + 1) (hle : slot buf.length pos d + n ≤ buf.length) :
    (buf.drop (slot buf.length pos d)).take n = (h.drop (h.length - 1 - d)).take n := by
  apply List.ext_getElem?
  intro i
  by_cases hi : i < n
  · rw [List.getElem?_take_of_lt hi, List.getElem?_take_of_lt hi, List.getElem?_drop,
      List.getElem?_drop]
    have hslot : slot buf.length pos d + i = slot buf.length pos (d - i) := by
      have hpos := hk.pos_le
      unfold slot at hle ⊢
      split_ifs at hle ⊢ <;> omega
    rw [hslot, hk.slots (d - i) (by omega) (by omega)]
    congr 1
    omega
  · rw [List.getElem?_eq_none (by rw [List.length_take]; omega),
      List.getElem?_eq_none (by rw [List.length_take]; omega)]

/-- Storing such a piece repeats a part of the history. -/
theorem store_piece (hk : Keeps buf pos h) (hd : d < h.length) (hsize : d < buf.length)
    (hn : n ≤ d + 1) (hle : slot buf.length pos d + n ≤ buf.length) (hroom : pos + n ≤ buf.length) :
    Keeps (Lz77.store buf pos ((buf.drop (slot buf.length pos d)).take n)) (pos + n)
      (extend z h d n) := by
  have hlen : ((buf.drop (slot buf.length pos d)).take n).length = n := by
    rw [List.length_take, List.length_drop]
    omega
  have hstore := hk.store ((buf.drop (slot buf.length pos d)).take n) (by omega)
  rw [hlen, hk.piece hd hsize hn hle, ← extend_of_le hd hn] at hstore
  rw [hk.piece hd hsize hn hle]
  exact hstore

end Keeps

end Lz77
