import Mathlib.Data.List.Lex
import Mathlib.Data.Prod.Lex
import Zim.Lib.Streams

/-! The orders of `std::string`, which compares bytes as unsigned numbers, and of `char`. -/
namespace Cxx

instance linearOrderUInt8 : LinearOrder UInt8 where
  le_refl _ := UInt8.le_refl _
  le_trans _ _ _ := UInt8.le_trans
  lt_iff_le_not_ge a b := by
    simp only [UInt8.lt_iff_toNat_lt, UInt8.le_iff_toNat_le]
    omega
  le_antisymm _ _ := UInt8.le_antisymm
  le_total _ _ := UInt8.le_total _ _
  toDecidableLE := inferInstance
  toDecidableLT := inferInstance
  toDecidableEq := inferInstance

instance linearOrderUInt16 : LinearOrder UInt16 where
  le_refl _ := UInt16.le_refl _
  le_trans _ _ _ := UInt16.le_trans
  lt_iff_le_not_ge a b := by
    simp only [UInt16.lt_iff_toNat_lt, UInt16.le_iff_toNat_le]
    omega
  le_antisymm _ _ := UInt16.le_antisymm
  le_total _ _ := UInt16.le_total _ _
  toDecidableLE := inferInstance
  toDecidableLT := inferInstance
  toDecidableEq := inferInstance

instance linearOrderUInt32 : LinearOrder UInt32 where
  le_refl _ := UInt32.le_refl _
  le_trans _ _ _ := UInt32.le_trans
  lt_iff_le_not_ge a b := by
    simp only [UInt32.lt_iff_toNat_lt, UInt32.le_iff_toNat_le]
    omega
  le_antisymm _ _ := UInt32.le_antisymm
  le_total _ _ := UInt32.le_total _ _
  toDecidableLE := inferInstance
  toDecidableLT := inferInstance
  toDecidableEq := inferInstance

/-- The value of a `char`, which is signed. -/
def charValue (ch : UInt8) : ℤ := ch.toInt8.toInt

theorem charValue_injective : Function.Injective charValue := by
  intro a b h
  have h8 : a.toInt8 = b.toInt8 := Int8.toInt_inj.mp h
  rw [← a.toUInt8_toInt8, h8, b.toUInt8_toInt8]

/-- The order of pairs of a `char` and a `std::string`, the `char` first. -/
def charStringKey (ch : UInt8) (s : Bytes) : ℤ ×ₗ Bytes := toLex (charValue ch, s)

theorem charStringKey_lt {ch ch' : UInt8} {s s' : Bytes} :
    charStringKey ch s < charStringKey ch' s' ↔
      charValue ch < charValue ch' ∨ ch = ch' ∧ s < s' := by
  rw [charStringKey, charStringKey, Prod.Lex.toLex_lt_toLex]
  simp only [charValue_injective.eq_iff]

theorem charStringKey_le {ch : UInt8} {s s' : Bytes} :
    charStringKey ch s ≤ charStringKey ch s' ↔ s ≤ s' := by
  rw [charStringKey, charStringKey, Prod.Lex.toLex_le_toLex]
  simp

theorem charStringKey_inj {ch ch' : UInt8} {s s' : Bytes} :
    charStringKey ch s = charStringKey ch' s' ↔ ch = ch' ∧ s = s' := by
  rw [charStringKey, charStringKey, toLex_inj, Prod.mk.injEq, charValue_injective.eq_iff]

/-- The sign of `s.compare(t)`. -/
def stringCompare (s t : Bytes) : Ordering := if s < t then .lt else if t < s then .gt else .eq

section Compare
variable {s t : Bytes}

theorem stringCompare_lt_iff : stringCompare s t = .lt ↔ s < t := by
  unfold stringCompare
  split_ifs with hlt hgt
  · simp [hlt]
  · simp [hlt]
  · simp [hlt]

theorem stringCompare_gt_iff : stringCompare s t = .gt ↔ t < s := by
  unfold stringCompare
  split_ifs with hlt hgt
  · simp [not_lt_of_gt hlt]
  · simp [hgt]
  · simp [hgt]

theorem stringCompare_eq_iff : stringCompare s t = .eq ↔ s = t := by
  unfold stringCompare
  split_ifs with hlt hgt
  · simp [hlt.ne]
  · simp [hgt.ne']
  · simp [le_antisymm (not_lt.mp hgt) (not_lt.mp hlt)]

end Compare

section Cut
variable {s t : Bytes}

theorem nil_le (s : Bytes) : [] ≤ s := by
  cases s with
  | nil => exact le_rfl
  | cons a s => exact le_of_lt List.Lex.nil

theorem cons_le_cons_iff {a b : UInt8} : a :: s ≤ b :: t ↔ a < b ∨ a = b ∧ s ≤ t := by
  rw [le_iff_lt_or_eq, le_iff_lt_or_eq, List.cons_lt_cons_iff, List.cons.injEq]
  tauto

/-- The order survives the cut of both strings at their first zero. -/
theorem takeWhile_mono (h : s ≤ t) : s.takeWhile (· ≠ 0) ≤ t.takeWhile (· ≠ 0) := by
  induction s generalizing t with
  | nil => exact nil_le _
  | cons a s ih =>
    cases t with
    | nil => exact absurd h (not_le.mpr List.Lex.nil)
    | cons b t =>
      by_cases ha : a = 0
      · rw [List.takeWhile_cons_of_neg (by simpa using ha)]
        exact nil_le _
      · have hab := cons_le_cons_iff.mp h
        have hb : b ≠ 0 := by
          rintro rfl
          exact hab.elim (fun hlt => absurd hlt UInt8.not_lt_zero) fun heq => ha heq.1
        rw [List.takeWhile_cons_of_pos (by simpa using ha),
          List.takeWhile_cons_of_pos (by simpa using hb), cons_le_cons_iff]
        exact hab.imp id fun heq => ⟨heq.1, ih heq.2⟩

theorem take_mono (h : s ≤ t) (n : ℕ) : s.take n ≤ t.take n := by
  induction s generalizing t n with
  | nil =>
    rw [List.take_nil]
    exact nil_le _
  | cons a s ih =>
    cases t with
    | nil => exact absurd h (not_le.mpr List.Lex.nil)
    | cons b t =>
      cases n with
      | zero => exact le_rfl
      | succ n =>
        have hab := cons_le_cons_iff.mp h
        rw [List.take_succ_cons, List.take_succ_cons, cons_le_cons_iff]
        exact hab.imp id fun heq => ⟨heq.1, ih heq.2 n⟩
theorem take_le (s : Bytes) (n : ℕ) : s.take n ≤ s := by
  induction s generalizing n with
  | nil =>
    rw [List.take_nil]
  | cons a s ih =>
    cases n with
    | zero => exact nil_le _
    | succ n =>
      rw [List.take_succ_cons, cons_le_cons_iff]
      exact .inr ⟨rfl, ih n⟩

theorem prefix_iff_take : s <+: t ↔ t.take s.length = s := by
  rw [List.prefix_iff_eq_take, eq_comm]

end Cut

end Cxx
