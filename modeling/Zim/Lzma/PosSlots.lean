import Zim.Lzma.LzmaCommon

/-! The position slots of lzma/fastpos.h of liblzma: the table and the shifts give, for every
distance, the slot in which it lies, and the decoder finds the start of the slot again. -/
namespace Lzma

/-- The first distance of a slot from 2 on. -/
def slotStart (slot : ℕ) : ℕ := (2 + slot % 2) * 2 ^ (slot / 2 - 1)

/-- The distance lies in the slot. -/
structure InSlot (distance slot : ℕ) : Prop where
  two_le : 2 ≤ slot
  start_le : slotStart slot ≤ distance
  lt : distance < slotStart (slot + 1)

theorem slotStart_succ {slot : ℕ} (h : 2 ≤ slot) :
    slotStart (slot + 1) = slotStart slot + 2 ^ (slot / 2 - 1) := by
  unfold slotStart
  obtain ⟨k, rfl | rfl⟩ := Nat.even_or_odd' slot
  · rw [show (2 * k + 1) % 2 = 1 by omega, show (2 * k + 1) / 2 = k by omega,
      show 2 * k % 2 = 0 by omega, show 2 * k / 2 = k by omega]
    omega
  · obtain ⟨k, rfl⟩ := Nat.exists_eq_add_of_le' (show 1 ≤ k by omega)
    rw [show (2 * (k + 1) + 1 + 1) % 2 = 0 by omega,
      show (2 * (k + 1) + 1 + 1) / 2 - 1 = k + 1 by omega,
      show (2 * (k + 1) + 1) % 2 = 1 by omega, show (2 * (k + 1) + 1) / 2 - 1 = k by omega,
      pow_succ]
    omega

/-- Two slots further on the distances are twice as large. -/
theorem slotStart_add {slot : ℕ} (h : 2 ≤ slot) (k : ℕ) :
    slotStart (slot + 2 * k) = slotStart slot * 2 ^ k := by
  unfold slotStart
  rw [Nat.add_mul_mod_self_left, Nat.add_mul_div_left _ _ (by decide),
    Nat.sub_add_comm (by omega), pow_add, Nat.mul_assoc]

/-- The entries of the slots in front of slot `n + 2`. -/
def slotEntries (n : ℕ) : List ℕ :=
  (List.range n).flatMap fun i => List.replicate (2 ^ ((i + 2) / 2 - 1)) (i + 2)

theorem slotEntries_succ (n : ℕ) :
    slotEntries (n + 1) = slotEntries n ++ List.replicate (2 ^ ((n + 2) / 2 - 1)) (n + 2) := by
  rw [slotEntries, List.range_succ, List.flatMap_append, List.flatMap_singleton, ← slotEntries]

theorem slotEntries_length (n : ℕ) : (slotEntries n).length + 2 = slotStart (n + 2) := by
  induction n with
  | zero => rfl
  | succ n ih =>
    rw [Nat.add_right_comm n, slotStart_succ (by omega), ← ih, slotEntries_succ,
      List.length_append, List.length_replicate]
    omega

/-- Each slot has an entry for each of its distances. -/
theorem slotEntries_inSlot {n distance : ℕ} (hle : 2 ≤ distance)
    (hlt : distance < slotStart (n + 2)) :
    ∃ slot < n + 2, (slotEntries n)[distance - 2]? = some slot ∧ InSlot distance slot := by
  induction n with
  | zero => exact absurd (Nat.lt_of_lt_of_le hlt (show slotStart 2 ≤ 2 by decide)) (by omega)
  | succ n ih =>
    have hlen := slotEntries_length n
    rw [slotEntries_succ]
    by_cases hold : distance < slotStart (n + 2)
    · obtain ⟨slot, hslot, hget, hin⟩ := ih hold
      refine ⟨slot, by omega, ?_, hin⟩
      rw [List.getElem?_append_left (by omega), hget]
    · have hnext := slotStart_succ (show 2 ≤ n + 2 by omega)
      rw [Nat.add_right_comm] at hlt
      refine ⟨n + 2, by omega, ?_, by omega, by omega, hlt⟩
      rw [List.getElem?_append_right (by omega), List.getElem?_replicate, if_pos (by omega)]

theorem fastpos_inSlot {distance : ℕ} (hle : 2 ≤ distance) (hlt : distance < 2 ^ 13) :
    fastpos.getD distance 0 < 26 ∧ InSlot distance (fastpos.getD distance 0) := by
  obtain ⟨slot, hslot, hget, hin⟩ := slotEntries_inSlot (n := 24) hle hlt
  have hentry : fastpos.getD distance 0 = slot := by
    obtain ⟨k, rfl⟩ := Nat.exists_eq_add_of_le' hle
    rw [Nat.add_sub_cancel] at hget
    rw [List.getD_eq_getElem?_getD]
    show (fastposSlots[k]?).getD 0 = slot
    rw [show fastposSlots = slotEntries 24 from rfl, hget, Option.getD_some]
  rw [hentry]
  exact ⟨hslot, hin⟩

/-- Distances beyond the table are looked up without their low bits. -/
theorem fastposResult_inSlot {distance n : ℕ} (hle : 2 * 2 ^ fastposShift n ≤ distance)
    (hlt : distance < 2 ^ 13 * 2 ^ fastposShift n) :
    fastposResult distance n < 26 + 2 * fastposShift n ∧
      InSlot distance (fastposResult distance n) := by
  have hpos : 0 < 2 ^ fastposShift n := Nat.two_pow_pos _
  have hle' : 2 ≤ distance >>> fastposShift n := by
    rw [Nat.shiftRight_eq_div_pow, Nat.le_div_iff_mul_le hpos]
    exact hle
  have hlt' : distance >>> fastposShift n < 2 ^ 13 := by
    rw [Nat.shiftRight_eq_div_pow, Nat.div_lt_iff_lt_mul hpos]
    exact hlt
  obtain ⟨hslot, htwo, hstart, hend⟩ := fastpos_inSlot hle' hlt'
  unfold fastposResult
  rw [Nat.shiftRight_eq_div_pow] at *
  generalize fastpos.getD (distance / 2 ^ fastposShift n) 0 = slot at *
  refine ⟨by omega, by omega, ?_, ?_⟩
  · rw [slotStart_add htwo]
    exact (Nat.le_div_iff_mul_le hpos).mp hstart
  · rw [Nat.add_right_comm, slotStart_add (by omega)]
    exact (Nat.div_lt_iff_lt_mul hpos).mp hend

/-- The slot of a distance, whichever of the three cases it takes. -/
theorem getPosSlot_inSlot {distance : UInt32} (h : 2 ≤ distance.toNat) :
    InSlot distance.toNat (getPosSlot distance).toNat := by
  have hdistance := distance.toNat_lt
  have hofNat {slot : ℕ} (hslot : slot < 2 ^ 32) : (UInt32.ofNat slot).toNat = slot := by
    rw [UInt32.toNat_ofNat', Nat.mod_eq_of_lt hslot]
  unfold getPosSlot
  dsimp only
  split_ifs with hsmall hmiddle
  · obtain ⟨hslot, hin⟩ := fastpos_inSlot h hsmall
    rw [hofNat (by omega)]
    exact hin
  · have hge : 2 ^ 13 ≤ distance.toNat := Nat.le_of_not_lt hsmall
    have hle : 2 * 2 ^ fastposShift 1 ≤ distance.toNat := Nat.le_trans (by decide) hge
    obtain ⟨hslot, hin⟩ := fastposResult_inSlot hle (Nat.lt_of_lt_of_le hmiddle (by decide))
    rw [hofNat (Nat.lt_trans hslot (by decide))]
    exact hin
  · have hge : 2 ^ 25 ≤ distance.toNat := Nat.le_of_not_lt hmiddle
    have hle : 2 * 2 ^ fastposShift 2 ≤ distance.toNat := Nat.le_trans (by decide) hge
    obtain ⟨hslot, hin⟩ := fastposResult_inSlot hle (Nat.lt_of_lt_of_le hdistance (by decide))
    rw [hofNat (Nat.lt_trans hslot (by decide))]
    exact hin

theorem slotStart_mono {slot slot' : ℕ} (h : 2 ≤ slot) (hle : slot ≤ slot') :
    slotStart slot ≤ slotStart slot' := by
  induction slot', hle using Nat.le_induction with
  | base => exact le_rfl
  | succ slot' hle ih =>
    rw [slotStart_succ (by omega)]
    exact Nat.le_add_right_of_le ih

theorem InSlot.lt_posSlots {distance : UInt32} {slot : ℕ} (h : InSlot distance.toNat slot) :
    slot < 64 := by
  by_contra hnot
  have hmono := slotStart_mono (by decide) (Nat.le_of_not_lt hnot)
  have hstart := h.start_le
  have hlt := distance.toNat_lt
  have hlast : slotStart 64 = 2 ^ 32 := by decide
  omega

/-- The slots of the distances that need no further bits. -/
theorem getPosSlot_small {distance : UInt32} (h : (getPosSlot distance).toNat < 4) :
    getPosSlot distance = distance := by
  obtain hlt | hle := Nat.lt_or_ge distance.toNat 2
  · obtain hzero | hone : distance.toNat = 0 ∨ distance.toNat = 1 := by omega
    · obtain rfl : distance = 0 := UInt32.toNat_inj.mp hzero
      rfl
    · obtain rfl : distance = 1 := UInt32.toNat_inj.mp hone
      rfl
  · have hin := getPosSlot_inSlot hle
    apply UInt32.toNat_inj.mp
    generalize (getPosSlot distance).toNat = slot at h hin
    obtain ⟨htwo, hstart, hlt⟩ := hin
    obtain rfl | rfl : slot = 2 ∨ slot = 3 := by omega
    · have h2 : slotStart 2 = 2 := rfl
      have h3 : slotStart (2 + 1) = 3 := rfl
      omega
    · have h3 : slotStart 3 = 3 := rfl
      have h4 : slotStart (3 + 1) = 4 := rfl
      omega

theorem getPosSlot_lt (distance : UInt32) : (getPosSlot distance).toNat < 64 := by
  obtain hlt | hle := Nat.lt_or_ge distance.toNat 2
  · obtain hzero | hone : distance.toNat = 0 ∨ distance.toNat = 1 := by omega
    · obtain rfl : distance = 0 := UInt32.toNat_inj.mp hzero
      decide
    · obtain rfl : distance = 1 := UInt32.toNat_inj.mp hone
      decide
  · exact (getPosSlot_inSlot hle).lt_posSlots

theorem two_le_of_slot {distance : UInt32} (h : 4 ≤ (getPosSlot distance).toNat) :
    2 ≤ distance.toNat := by
  by_contra hnot
  obtain hzero | hone : distance.toNat = 0 ∨ distance.toNat = 1 := by omega
  · obtain rfl : distance = 0 := UInt32.toNat_inj.mp hzero
    exact absurd h (by decide)
  · obtain rfl : distance = 1 := UInt32.toNat_inj.mp hone
    exact absurd h (by decide)

/-- What encoder and decoder make of a slot. -/
theorem slot_coded : ∀ s < 64, 4 ≤ s →
    let slot := UInt32.ofNat s
    let limit := slot >>> 1 - 1
    limit.toNat = s / 2 - 1 ∧ 2 ||| (slot &&& 1) = 2 + (slot &&& 1) ∧
      2 + (slot &&& 1) = UInt32.ofNat (2 + s % 2) ∧
      ((2 + (slot &&& 1)) <<< limit).toNat = slotStart s := by
  decide

end Lzma
