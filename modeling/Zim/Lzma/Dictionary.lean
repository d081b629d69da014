import Zim.Lib.Lz77
import Zim.Lib.Streams
import Mathlib.Algebra.Group.Nat.Even

/-! The dictionary of the LZ-based decoders (lz/lz_decoder.h of liblzma), a circular buffer. It
holds the end of everything that was decoded so far. -/
namespace Lzma
open Cxx Lz77

/-- `lzma_dict`. -/
structure Dict where
  buf : Bytes
  pos : ℕ
  full : ℕ
  limit : ℕ
  size : ℕ
  needReset : Bool
  deriving DecidableEq, Repr

namespace Dict

def dictGet (dict : Dict) (distance : UInt32) : UInt8 :=
  let i := if distance.toNat < dict.pos then dict.pos - distance.toNat - 1
    else dict.pos + dict.size - distance.toNat - 1
  (dict.buf[i]?).getD 0

def dictIsDistanceValid (dict : Dict) (distance : UInt32) : Bool := distance.toNat < dict.full

/-- The loop of `dict_repeat` for areas that overlap. -/
def repeatLoop (distance : UInt32) : ℕ → Dict → Dict
  | 0, dict => dict
  | left + 1, dict =>
    repeatLoop distance left
      { dict with buf := dict.buf.set dict.pos (dict.dictGet distance), pos := dict.pos + 1 }

/-- `memcpy` or `memmove` of `n` bytes from `buf + i` to `buf + pos`, and `pos += n`. -/
def copy (dict : Dict) (i n : ℕ) : Dict :=
  { dict with
    buf := store dict.buf dict.pos ((dict.buf.drop i).take n)
    pos := dict.pos + n }

/-- Returns whether a part of the length is left over, and the length that is left. -/
def dictRepeat (dict : Dict) (distance len : UInt32) : Bool × UInt32 × Dict :=
  let dictAvail := dict.limit - dict.pos
  let left := min dictAvail len.toNat
  let len := len - UInt32.ofNat left
  let dict :=
    if distance.toNat < left then repeatLoop distance left dict
    else if distance.toNat < dict.pos then dict.copy (dict.pos - distance.toNat - 1) left
    else
      let copyPos := dict.pos + dict.size - distance.toNat - 1
      let copySize := dict.size - copyPos
      if copySize < left then (dict.copy copyPos copySize).copy 0 (left - copySize)
      else dict.copy copyPos left
  (len ≠ 0, len, { dict with full := max dict.full dict.pos })

/-- Returns whether there was no room. -/
def dictPut (dict : Dict) (byte : UInt8) : Bool × Dict :=
  if dict.pos = dict.limit then (true, dict)
  else (false, { dict with
    buf := dict.buf.set dict.pos byte
    pos := dict.pos + 1
    full := max dict.full (dict.pos + 1) })

/-- The dictionary holds the end of the given history. -/
structure Holds (dict : Dict) (h : Bytes) : Prop where
  size_eq : dict.buf.length = dict.size
  size_pos : 0 < dict.size
  keeps : Keeps dict.buf dict.pos h
  full_eq : dict.full = min h.length dict.size
  pos_le : dict.pos ≤ dict.limit
  limit_le : dict.limit ≤ dict.size
  last : h = [] → dict.buf[dict.size - 1]? = some 0

variable {dict : Dict} {h : Bytes} {distance : UInt32}

theorem dictGet_eq_slot (hsize : dict.buf.length = dict.size) :
    dict.dictGet distance =
      (dict.buf[slot dict.buf.length dict.pos distance.toNat]?).getD 0 := by
  rw [dictGet, slot, hsize]

namespace Holds

theorem valid_iff (hh : dict.Holds h) : dict.dictIsDistanceValid distance = true ↔
    distance.toNat < h.length ∧ distance.toNat < dict.size := by
  rw [dictIsDistanceValid, hh.full_eq, decide_eq_true_eq, Nat.lt_min]

theorem dictGet (hh : dict.Holds h) (hvalid : dict.dictIsDistanceValid distance = true) :
    dict.dictGet distance = back 0 h distance.toNat := by
  obtain ⟨hlt, hsize⟩ := hh.valid_iff.mp hvalid
  rw [dictGet_eq_slot hh.size_eq]
  exact hh.keeps.get hlt (by rw [hh.size_eq]; exact hsize)

/-- The byte in front, which is 0 where there is none. -/
theorem dictGet_zero (hh : dict.Holds h) : dict.dictGet 0 = back 0 h 0 := by
  by_cases hnil : h = []
  · subst hnil
    have hpos : dict.pos = 0 := Nat.le_zero.mp hh.keeps.pos_le_length
    have hlast := hh.last rfl
    rw [back_nil, Dict.dictGet, hpos]
    show (dict.buf[0 + dict.size - 0 - 1]?).getD 0 = 0
    rw [Nat.zero_add, Nat.sub_zero, hlast, Option.getD_some]
  · apply hh.dictGet
    rw [hh.valid_iff]
    exact ⟨List.length_pos_of_ne_nil hnil, hh.size_pos⟩

theorem pos_mod {k : ℕ} (hh : dict.Holds h) (hk : k ∣ dict.size) :
    dict.pos % k = h.length % k := by
  obtain ⟨n, hlen⟩ := hh.keeps.pos_mod
  obtain ⟨m, hm⟩ := hk
  rw [hlen, hh.size_eq, hm, Nat.mul_left_comm, Nat.mul_add_mod]

end Holds

/-- A dictionary that was written to at its position. -/
theorem Holds.written {buf : Bytes} (hh : dict.Holds h) (xs : Bytes) (hbuf : buf.length = dict.size)
    (hkeeps : Keeps buf (dict.pos + xs.length) (h ++ xs))
    (hroom : dict.pos + xs.length ≤ dict.limit)
    (hlast : h = [] → xs = [] → buf = dict.buf) :
    Holds { dict with
      buf := buf
      pos := dict.pos + xs.length
      full := max dict.full (dict.pos + xs.length) } (h ++ xs) := by
  refine ⟨hbuf, hh.size_pos, hkeeps, ?_, hroom, hh.limit_le, fun hnil => ?_⟩
  · have hlimit := hh.limit_le
    have hfull := hh.full_eq
    have hle := hh.keeps.pos_le_length
    have hxs := hkeeps.pos_le_length
    obtain ⟨k, hk⟩ := hh.keeps.pos_mod
    rw [hh.size_eq] at hk
    show max dict.full (dict.pos + xs.length) = min (h ++ xs).length dict.size
    rw [List.length_append] at hxs ⊢
    cases k with
    | zero => omega
    | succ k =>
      rw [Nat.succ_mul] at hk
      omega
  · obtain ⟨rfl, hxs⟩ := List.append_eq_nil_iff.mp hnil
    show buf[dict.size - 1]? = some 0
    rw [hlast rfl hxs]
    exact hh.last rfl

theorem set_eq_store {buf : Bytes} {pos : ℕ} {byte : UInt8} (hlt : pos < buf.length) :
    buf.set pos byte = store buf pos [byte] := by
  rw [store, List.set_eq_take_append_cons_drop, if_pos hlt, List.append_assoc]
  rfl

theorem Holds.dictPut (hh : dict.Holds h) (byte : UInt8) (hroom : dict.pos < dict.limit) :
    ∃ dict', dict.dictPut byte = (false, dict') ∧ dict'.Holds (h ++ [byte]) ∧
      dict'.pos = dict.pos + 1 ∧ dict'.limit = dict.limit ∧ dict'.size = dict.size ∧
      dict'.needReset = dict.needReset := by
  have hlimit := hh.limit_le
  have hlt : dict.pos < dict.buf.length := by
    rw [hh.size_eq]
    omega
  have hkeeps := hh.keeps.store [byte] (by rw [List.length_singleton]; omega)
  rw [← set_eq_store hlt] at hkeeps
  have hwritten := hh.written [byte] (by rw [List.length_set]; exact hh.size_eq) hkeeps
    hroom (fun _ hnil => absurd hnil (List.cons_ne_nil _ _))
  unfold Dict.dictPut
  rw [if_neg hroom.ne]
  exact ⟨_, rfl, hwritten, rfl, rfl, rfl, rfl⟩

/-- The loop repeats the bytes one by one. -/
theorem keeps_repeatLoop (dict : Dict) {left : ℕ} (hsize : dict.buf.length = dict.size)
    (hkeeps : Keeps dict.buf dict.pos h) (hvalid : distance.toNat < h.length)
    (hdict : distance.toNat < dict.size) (hroom : dict.pos + left ≤ dict.size) :
    ∃ buf, repeatLoop distance left dict = { dict with buf := buf, pos := dict.pos + left } ∧
      buf.length = dict.size ∧ Keeps buf (dict.pos + left) (extend 0 h distance.toNat left) := by
  induction left generalizing dict h with
  | zero => exact ⟨dict.buf, rfl, hsize, hkeeps⟩
  | succ left ih =>
    have hget : dict.dictGet distance = back 0 h distance.toNat := by
      rw [dictGet_eq_slot hsize]
      exact hkeeps.get hvalid (by rw [hsize]; exact hdict)
    have hstore := hkeeps.store [back 0 h distance.toNat]
      (by rw [List.length_singleton]; omega)
    rw [← set_eq_store (by omega), ← hget] at hstore
    obtain ⟨buf, hloop, hbuf, hlast⟩ := ih
      { dict with buf := dict.buf.set dict.pos (dict.dictGet distance), pos := dict.pos + 1 }
      (by rw [List.length_set]; exact hsize) hstore
      (by rw [List.length_append]; exact Nat.lt_add_right _ hvalid) hdict
      (by dsimp only; omega)
    refine ⟨buf, ?_, hbuf, ?_⟩
    · rw [repeatLoop, hloop]
      dsimp only
      rw [Nat.add_right_comm, Nat.add_assoc]
    · rw [extend, ← hget, Nat.add_comm left, ← Nat.add_assoc]
      exact hlast

/-- A piece of the buffer that is copied repeats a part of the history. -/
theorem keeps_copy (dict : Dict) {i n : ℕ} (hsize : dict.buf.length = dict.size)
    (hkeeps : Keeps dict.buf dict.pos h) (hvalid : distance.toNat < h.length)
    (hdict : distance.toNat < dict.size) (hi : i = slot dict.size dict.pos distance.toNat)
    (hn : n ≤ distance.toNat + 1) (hle : i + n ≤ dict.size) (hroom : dict.pos + n ≤ dict.size) :
    ∃ buf, dict.copy i n = { dict with buf := buf, pos := dict.pos + n } ∧
      buf.length = dict.size ∧ Keeps buf (dict.pos + n) (extend 0 h distance.toNat n) := by
  subst hi
  rw [← hsize] at hdict hle hroom
  have hpiece := hkeeps.store_piece (z := 0) hvalid hdict hn hle hroom
  rw [hsize] at hpiece
  refine ⟨_, rfl, ?_, hpiece⟩
  rw [store_length, hsize]
  rw [List.length_take, List.length_drop]
  omega

/-- The wrapped copy: the end of the buffer first, then its start. -/
theorem keeps_copy_wrapped (dict : Dict) {left : ℕ} (hsize : dict.buf.length = dict.size)
    (hkeeps : Keeps dict.buf dict.pos h) (hvalid : distance.toNat < h.length)
    (hdict : distance.toNat < dict.size) (hfront : ¬ distance.toNat < dict.pos)
    (hoverlap : ¬ distance.toNat < left) (hroom : dict.pos + left ≤ dict.size)
    (hwrap : dict.size - (dict.pos + dict.size - distance.toNat - 1) < left) :
    ∃ buf, (dict.copy (dict.pos + dict.size - distance.toNat - 1)
        (dict.size - (dict.pos + dict.size - distance.toNat - 1))).copy 0
        (left - (dict.size - (dict.pos + dict.size - distance.toNat - 1))) =
        { dict with buf := buf, pos := dict.pos + left } ∧ buf.length = dict.size ∧
      Keeps buf (dict.pos + left) (extend 0 h distance.toNat left) := by
  have hslot : dict.pos + dict.size - distance.toNat - 1 =
      slot dict.size dict.pos distance.toNat := by
    rw [slot, if_neg hfront]
  have hend : dict.size - (dict.pos + dict.size - distance.toNat - 1) =
      distance.toNat + 1 - dict.pos := by omega
  rw [hend] at hwrap ⊢
  obtain ⟨buf, hcopy, hbuf, hkeeps⟩ := keeps_copy dict
    (n := distance.toNat + 1 - dict.pos) hsize hkeeps hvalid hdict hslot (by omega)
    (by omega) (by omega)
  rw [hcopy]
  obtain ⟨buf', hcopy', hbuf', hkeeps'⟩ := keeps_copy
    { dict with buf := buf, pos := dict.pos + (distance.toNat + 1 - dict.pos) }
    (i := 0) (n := left - (distance.toNat + 1 - dict.pos)) hbuf hkeeps
    (by rw [extend_length]; omega) hdict
    (by rw [slot, if_pos (by dsimp only; omega)]; dsimp only; omega) (by omega)
    (by dsimp only; omega) (by dsimp only; omega)
  have hsum : distance.toNat + 1 - dict.pos + (left - (distance.toNat + 1 - dict.pos)) =
      left := by omega
  refine ⟨buf', ?_, hbuf', ?_⟩
  · rw [hcopy']
    dsimp only
    rw [Nat.add_assoc, hsum]
  · rw [← extend_add] at hkeeps'
    dsimp only at hkeeps'
    rw [Nat.add_assoc, hsum] at hkeeps'
    exact hkeeps'

/-- In each of the cases of `dict_repeat` the bytes are repeated one after another. -/
theorem keeps_copied (dict : Dict) {left : ℕ} (hsize : dict.buf.length = dict.size)
    (hkeeps : Keeps dict.buf dict.pos h) (hvalid : distance.toNat < h.length)
    (hdict : distance.toNat < dict.size) (hroom : dict.pos + left ≤ dict.size) :
    ∃ buf, (if distance.toNat < left then repeatLoop distance left dict
      else if distance.toNat < dict.pos then dict.copy (dict.pos - distance.toNat - 1) left
      else if dict.size - (dict.pos + dict.size - distance.toNat - 1) < left then
        (dict.copy (dict.pos + dict.size - distance.toNat - 1)
          (dict.size - (dict.pos + dict.size - distance.toNat - 1))).copy 0
          (left - (dict.size - (dict.pos + dict.size - distance.toNat - 1)))
      else dict.copy (dict.pos + dict.size - distance.toNat - 1) left) =
        { dict with buf := buf, pos := dict.pos + left } ∧ buf.length = dict.size ∧
      Keeps buf (dict.pos + left) (extend 0 h distance.toNat left) := by
  split_ifs with hoverlap hfront hwrap
  · exact keeps_repeatLoop dict hsize hkeeps hvalid hdict hroom
  · have hslot : dict.pos - distance.toNat - 1 = slot dict.size dict.pos distance.toNat := by
      rw [slot, if_pos hfront]
    exact keeps_copy dict hsize hkeeps hvalid hdict hslot (by omega) (by omega) hroom
  · exact keeps_copy_wrapped dict hsize hkeeps hvalid hdict hfront hoverlap hroom hwrap
  · have hslot : dict.pos + dict.size - distance.toNat - 1 =
        slot dict.size dict.pos distance.toNat := by
      rw [slot, if_neg hfront]
    exact keeps_copy dict hsize hkeeps hvalid hdict hslot (by omega) (by omega) hroom

theorem toNat_leftOver (len : UInt32) {left : ℕ} (hle : left ≤ len.toNat) :
    (len - UInt32.ofNat left).toNat = len.toNat - left := by
  have hofNat : (UInt32.ofNat left).toNat = left := by
    rw [UInt32.toNat_ofNat', Nat.mod_eq_of_lt (Nat.lt_of_le_of_lt hle len.toNat_lt)]
  rw [UInt32.toNat_sub_of_le, hofNat]
  rw [UInt32.le_iff_toNat_le, hofNat]
  exact hle

/-- Some of the length is left over as long as not all of it was taken. -/
theorem leftOver_iff (len : UInt32) {left : ℕ} (hle : left ≤ len.toNat) :
    len - UInt32.ofNat left ≠ 0 ↔ left ≠ len.toNat := by
  rw [ne_eq, ne_eq, not_iff_not, ← UInt32.toNat_inj, toNat_leftOver len hle]
  show len.toNat - left = 0 ↔ _
  omega

/-- `dict_repeat` repeats the bytes one after another, as far as there is room. -/
theorem Holds.dictRepeat (hh : dict.Holds h) (len : UInt32)
    (hvalid : dict.dictIsDistanceValid distance = true) :
    ∃ dict', dict.dictRepeat distance len =
        (decide (min (dict.limit - dict.pos) len.toNat ≠ len.toNat),
          len - UInt32.ofNat (min (dict.limit - dict.pos) len.toNat), dict') ∧
      dict'.Holds (extend 0 h distance.toNat (min (dict.limit - dict.pos) len.toNat)) ∧
      dict'.pos = dict.pos + min (dict.limit - dict.pos) len.toNat ∧
      dict'.limit = dict.limit ∧ dict'.size = dict.size ∧ dict'.needReset = dict.needReset := by
  have hlimit := hh.limit_le
  have hpos := hh.pos_le
  obtain ⟨hlt, hdict⟩ := hh.valid_iff.mp hvalid
  unfold Dict.dictRepeat
  dsimp only
  generalize hleft : min (dict.limit - dict.pos) len.toNat = left
  obtain ⟨buf, hcopied, hbuf, hkeeps⟩ :=
    keeps_copied dict hh.size_eq hh.keeps hlt hdict (show dict.pos + left ≤ dict.size by omega)
  rw [hcopied, decide_eq_decide.mpr (leftOver_iff len (show left ≤ len.toNat by omega))]
  obtain ⟨xs, hextend, rfl⟩ := extend_append 0 h distance.toNat left
  rw [hextend] at hkeeps ⊢
  have hwritten := hh.written xs hbuf hkeeps (by omega) fun hnil =>
    absurd (hnil ▸ hlt) (Nat.not_lt_zero _)
  exact ⟨_, rfl, hwritten, rfl, rfl, rfl, rfl⟩

end Dict
end Lzma
