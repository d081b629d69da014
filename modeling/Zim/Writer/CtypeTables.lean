import Mathlib.Tactic.Common

/-! The tables behind `zim::isalnum` (unicode.cpp), as far as they say which entries are read. -/
namespace Zim

def ctypeLookup1 : List ℕ :=
  [0, 104, 169, 257, 385, 402, 402, 498, 626, 626, 677, 755, 402, 402, 402, 402, 402, 402, 402,
  402, 402, 402, 402, 402, 402, 402, 402, 402, 402, 402, 402, 402, 402, 402, 402, 402, 402, 402,
  402, 402, 402, 402, 402, 402, 402, 402, 402, 402, 402, 402, 402, 402, 402, 402, 402, 402, 883,
  402, 402, 402, 1011, 1011, 1011, 1012, 1011, 1011, 1011, 1012]

def ctypeLookup2 : List ℕ :=
  [0, 127, 255, 382, 502, 582, 710, 837, 965, 1091, 1219, 1339, 1467, 1580, 1708, 1836, 1886,
  1886, 2013, 2140, 2267, 2394, 2521, 2647, 2774, 2900, 3026, 3152, 3279, 3406, 3534, 3662, 3790,
  3886, 4014, 4069, 4197, 4318, 4431, 4556, 4683, 4684, 4684, 4684, 4703, 4831, 4959, 5087, 5215,
  5343, 5471, 5588, 1886, 1886, 1886, 1886, 1886, 1886, 5716, 1886, 5844, 5950, 6078, 6206, 6334,
  6462, 6590, 6714, 6830, 6830, 6958, 7083, 7211, 7311, 7439, 7512, 7640, 7768, 7895, 8013, 7439,
  7439, 6830, 8138, 6830, 6830, 8266, 1886, 1886, 1886, 1886, 1886, 1886, 8394, 7439, 8424, 8552,
  8657, 8785, 8898, 9026, 9154, 7439, 7439, 4684, 4684, 4684, 4684, 4684, 4684, 4684, 4684, 4684,
  4684, 4684, 4684, 4684, 4684, 4684, 4684, 4684, 4684, 4684, 4684, 4684, 4684, 4684, 4684, 4684,
  4684, 4684, 9282, 4684, 4684, 4684, 4684, 4684, 4684, 4684, 4684, 4684, 4684, 4684, 4684, 4684,
  4684, 4684, 4684, 4684, 4684, 4684, 4684, 4684, 4684, 4684, 4684, 4684, 4684, 4684, 4684, 4684,
  4684, 4684, 4684, 4684, 4684, 4684, 4684, 4684, 4684, 4684, 4684, 4684, 4684, 4684, 4684, 4684,
  4684, 4684, 4684, 4684, 4684, 4684, 4684, 4684, 4684, 4684, 4684, 4684, 4684, 4684, 4684, 4684,
  4684, 4684, 4684, 4684, 4684, 4684, 4684, 4684, 4684, 4684, 4684, 4684, 4684, 4684, 4684, 4684,
  4684, 4684, 4684, 4684, 4684, 4684, 4684, 4684, 4684, 4684, 4684, 4684, 4684, 4684, 4684, 4684,
  4684, 4684, 4684, 4684, 4684, 4684, 4684, 9410, 4684, 4684, 4684, 4684, 4684, 4684, 4684, 4684,
  4684, 9538, 1886, 1886, 1886, 1886, 1886, 1886, 1886, 1886, 1886, 1886, 1886, 1886, 1886, 1886,
  4684, 4684, 4684, 4684, 4684, 4684, 4684, 4684, 4684, 4684, 4684, 4684, 4684, 4684, 4684, 4684,
  4684, 4684, 4684, 4684, 4684, 4684, 4684, 4684, 4684, 4684, 4684, 4684, 4684, 4684, 4684, 4684,
  4684, 4684, 4684, 4684, 4684, 4684, 4684, 4684, 4684, 4684, 4684, 4684, 4684, 4684, 4684, 9666,
  9794, 9794, 9794, 9794, 9794, 9794, 9794, 9794, 9794, 9794, 9794, 9794, 9794, 9794, 9794, 9794,
  9922, 9922, 9922, 9922, 9922, 9922, 9922, 9922, 9922, 9922, 9922, 9922, 9922, 9922, 9922, 9922,
  9922, 9922, 9922, 9922, 9922, 9922, 9922, 9922, 9922, 9922, 9922, 9922, 9922, 9922, 9922, 9922,
  9922, 9922, 9922, 9922, 9922, 9922, 9922, 9922, 9922, 9922, 9922, 9922, 9922, 9922, 9922, 9922,
  9922, 9922, 4684, 4684, 10050, 1886, 10178, 10256, 4684, 4684, 10339, 10451, 10579, 10697,
  10825, 10938, 11066, 11194, 11322, 1886, 1886, 1886, 11450, 11578, 11706, 11804, 1886, 1886,
  1886, 1886, 1886, 1886, 11932, 1886, 1886, 1886, 1886, 1886, 1886, 1886, 1886, 1886, 1886, 1886,
  1886, 1886, 1886, 1886, 1886, 1886, 1886, 1886, 1886, 1886, 1886, 1886, 1886, 1886, 1886, 1886,
  1886, 1886, 1886, 1886, 1886, 1886, 1886, 1886, 1886, 1886, 1886, 1886, 1886, 1886, 1886, 1886,
  1886, 1886, 1886, 1886, 1886, 1886, 1886, 1886, 1886, 1886, 1886, 1886, 1886, 1886, 1886, 1886,
  1886, 1886, 1886, 1886, 1886, 1886, 1886, 1886, 1886, 1886, 1886, 1886, 1886, 1886, 1886, 1886,
  1886, 1886, 1886, 1886, 1886, 1886, 1886, 1886, 1886, 1886, 1886, 1886, 1886, 1886, 1886, 1886,
  1886, 1886, 1886, 1886, 1886, 1886, 1886, 1886, 1886, 1886, 1886, 1886, 1886, 1886, 1886, 1886,
  1886, 1886, 1886, 1886, 1886, 1886, 1886, 1886, 1886, 1886, 1886, 1886, 1886, 1886, 1886, 1886,
  1886, 1886, 1886, 1886, 1886, 7439, 12060, 12188, 12313, 1886, 1886, 12441, 1886, 12569, 12695,
  12819, 12941, 12965, 13083, 13153, 13223, 1886, 1886, 1886, 1886, 1886, 1886, 1886, 1886, 1886,
  1886, 1886, 1886, 1886, 1886, 1886, 1886, 1886, 1886, 1886, 1886, 1886, 1886, 1886, 1886, 1886,
  1886, 1886, 1886, 1886, 1886, 1886, 1886, 1886, 1886, 1886, 1886, 1886, 1886, 1886, 1886, 1886,
  1886, 1886, 1886, 1886, 1886, 1886, 1886, 1886, 1886, 1886, 1886, 1886, 1886, 1886, 1886, 1886,
  1886, 1886, 1886, 1886, 1886, 1886, 1886, 1886, 1886, 1886, 1886, 1886, 1886, 1886, 1886, 1886,
  1886, 1886, 1886, 1886, 1886, 1886, 1886, 4684, 4684, 4684, 4684, 4684, 4684, 4684, 4684, 4684,
  4684, 4684, 4684, 4684, 4684, 4684, 4684, 4684, 4684, 4684, 4684, 4684, 4684, 4684, 4684, 4684,
  4684, 4684, 4684, 4684, 4684, 4684, 4684, 4684, 4684, 4684, 4684, 4684, 4684, 4684, 4684, 4684,
  4684, 4684, 4684, 4684, 4684, 4684, 4684, 4684, 4684, 4684, 4684, 4684, 4684, 4684, 4684, 4684,
  4684, 4684, 4684, 4684, 4684, 4684, 4684, 4684, 4684, 4684, 4684, 4684, 4684, 4684, 4684, 4684,
  4684, 4684, 4684, 4684, 4684, 4684, 4684, 4684, 4684, 4684, 4684, 4684, 4684, 4684, 4684, 4684,
  4684, 4684, 4684, 4684, 4684, 4684, 4684, 4684, 4684, 4684, 4684, 4684, 4684, 4684, 4684, 4684,
  4684, 4684, 4684, 4684, 4684, 4684, 4684, 4684, 4684, 4684, 4684, 4684, 4684, 4684, 4684, 4684,
  4684, 4684, 4684, 4684, 4684, 4684, 4684, 13351, 1886, 1886, 1886, 1886, 1886, 1886, 1886, 1886,
  1886, 1886, 1886, 1886, 1886, 1886, 1886, 1886, 1886, 1886, 1886, 1886, 1886, 1886, 1886, 1886,
  1886, 1886, 1886, 1886, 1886, 1886, 1886, 1886, 1886, 1886, 1886, 1886, 1886, 1886, 1886, 1886,
  1886, 1886, 1886, 1886, 1886, 1886, 1886, 1886, 1886, 1886, 1886, 1886, 1886, 1886, 1886, 1886,
  1886, 1886, 1886, 1886, 1886, 1886, 1886, 1886, 1886, 1886, 1886, 1886, 1886, 1886, 1886, 1886,
  1886, 1886, 1886, 1886, 1886, 1886, 1886, 1886, 1886, 1886, 1886, 1886, 1886, 1886, 1886, 1886,
  1886, 1886, 1886, 1886, 1886, 1886, 1886, 1886, 1886, 1886, 1886, 1886, 1886, 1886, 1886, 1886,
  1886, 1886, 1886, 1886, 1886, 1886, 1886, 1886, 4684, 4684, 4684, 4684, 13408, 1886, 1886, 1886,
  1886, 1886, 1886, 1886, 1886, 1886, 1886, 1886, 13535, 1886, 13663, 13679, 1886, 1886, 1886,
  1886, 1886, 1886, 1886, 1886, 1886, 1886, 1886, 1886, 1886, 1886, 1886, 1886, 1886, 1886, 1886,
  1886, 1886, 1886, 1886, 1886, 1886, 1886, 1886, 1886, 1886, 1886, 1886, 1886, 1886, 1886, 1886,
  1886, 1886, 1886, 1886, 1886, 1886, 1886, 1886, 1886, 1886, 1886, 1886, 1886, 1886, 1886, 1886,
  1886, 1886, 1886, 1886, 1886, 1886, 1886, 1886, 1886, 1886, 1886, 1886, 1886, 1886, 1886, 1886,
  1886, 1886, 1886, 1886, 1886, 1886, 1886, 1886, 1886, 1886, 1886, 1886, 1886, 1886, 1886, 1886,
  1886, 1886, 1886, 1886, 1886, 1886, 1886, 1886, 1886, 1886, 1886, 1886, 1886, 1886, 1886, 1886,
  1886, 1886, 1886, 1886, 1886, 1886, 1886, 1886, 1886, 1886, 1886, 1886, 1886, 1886, 1886, 1886,
  1886, 1886, 1886, 1886, 1886, 1886, 1886, 1886, 1886, 9922, 9922, 9922, 9922, 9922, 9922, 9922,
  9922, 9922, 9922, 9922, 9922, 9922, 9922, 9922, 9922, 9922, 9922, 9922, 9922, 9922, 9922, 9922,
  9922, 9922, 9922, 9922, 9922, 9922, 9922, 9922, 9922, 9922, 9922, 9922, 9922, 9922, 9922, 9922,
  9922, 9922, 9922, 9922, 9922, 9922, 9922, 9922, 9922, 9922, 9922, 9922, 9922, 9922, 9922, 9922,
  9922, 9922, 9922, 9922, 9922, 9922, 9922, 9922, 9922, 9922, 9922, 9922, 9922, 9922, 9922, 9922,
  9922, 9922, 9922, 9922, 9922, 9922, 9922, 9922, 9922, 9922, 9922, 9922, 9922, 9922, 9922, 9922,
  9922, 9922, 9922, 9922, 9922, 9922, 9922, 9922, 9922, 9922, 9922, 9922, 9922, 9922, 9922, 9922,
  9922, 9922, 9922, 9922, 9922, 9922, 9922, 9922, 9922, 9922, 9922, 9922, 9922, 9922, 9922, 9922,
  9922, 9922, 9922, 9922, 9922, 9922, 9922, 9922, 9922, 13807]

/-- The length of `ctype_data`. -/
def ctypeDataSize : ℕ := 13936

/-- `ctypeMask(ch)` reads entries that its three tables have. -/
def ReadsInside (ch : UInt32) : Prop :=
  ∃ plane block, ctypeLookup1[(ch >>> 14).toNat]? = some plane ∧
    ctypeLookup2[plane + ((ch >>> 7) &&& 127).toNat]? = some block ∧
    block + (ch &&& 127).toNat < ctypeDataSize

theorem shiftRight_lt_iff (ch : UInt32) : (ch >>> 14).toNat < 68 ↔ ch.toNat < 0x110000 := by
  rw [UInt32.toNat_shiftRight, Nat.shiftRight_eq_div_pow]
  simp only [UInt32.reduceToNat, Nat.reduceMod, Nat.reducePow]
  omega

theorem and_le (x : UInt32) : (x &&& 127).toNat ≤ 127 := by
  rw [UInt32.toNat_and]
  exact Nat.and_le_right

/-- An entry of the first table leaves room for seven bits in the second one, and an entry of that
one in the third. -/
theorem lookup_bounds : ctypeLookup1.length = 68 ∧ ctypeLookup2.length = 1140 ∧
    (∀ plane ∈ ctypeLookup1, plane + 127 < 1140) ∧
    ∀ block ∈ ctypeLookup2, block + 127 < ctypeDataSize := by
  decide +kernel

theorem readsInside_iff (ch : UInt32) : ReadsInside ch ↔ (ch >>> 14).toNat < 68 := by
  obtain ⟨hlen1, hlen2, hplanes, hblocks⟩ := lookup_bounds
  constructor
  · rintro ⟨plane, -, hplane, -⟩
    obtain ⟨hlt, -⟩ := List.getElem?_eq_some_iff.mp hplane
    exact hlen1 ▸ hlt
  · intro h
    have hentry {l : List ℕ} {i : ℕ} (hi : i < l.length) : ∃ x ∈ l, l[i]? = some x :=
      ⟨l[i], List.getElem_mem hi, List.getElem?_eq_getElem hi⟩
    obtain ⟨plane, hplane, hread1⟩ := hentry (hlen1.symm ▸ h)
    have hle2 := hplanes plane hplane
    have hbits2 := and_le (ch >>> 7)
    obtain ⟨block, hblock, hread2⟩ :=
      @hentry ctypeLookup2 (plane + ((ch >>> 7) &&& 127).toNat) (by omega)
    have hle3 := hblocks block hblock
    have hbits3 := and_le ch
    exact ⟨plane, block, hread1, hread2, by omega⟩

end Zim
