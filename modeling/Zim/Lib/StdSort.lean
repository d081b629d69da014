import Mathlib.Data.List.Sort
import Mathlib.Data.List.Perm.Basic
import Zim.Lib.StdString

/-! Sorting and searching of the C++ standard library. The order in which `std::sort` leaves
equivalent elements is not specified. -/
namespace Cxx

/-- A strict weak ordering, which `std::sort` asks for. -/
structure StrictWeak {α : Type} (comp : α → α → Bool) : Prop where
  irrefl : ∀ a, comp a a = false
  trans : ∀ a b c, comp a b = true → comp b c = true → comp a c = true
  incomp_trans : ∀ a b c, comp a b = false → comp b c = false → comp a c = false

/-- An implementation of `std::sort`. -/
structure StdSort where
  sort : {α : Type} → (α → α → Bool) → List α → List α
  perm : ∀ {α : Type} {comp : α → α → Bool}, StrictWeak comp → ∀ l, (sort comp l).Perm l
  sorted : ∀ {α : Type} {comp : α → α → Bool}, StrictWeak comp → ∀ l,
    (sort comp l).Pairwise fun a b => comp b a = false

/-- The order by a key is a strict weak ordering. -/
theorem StrictWeak.byKey {α κ : Type} [LinearOrder κ] (key : α → κ) {comp : α → α → Bool}
    (h : ∀ a b, comp a b = true ↔ key a < key b) : StrictWeak comp where
  irrefl a := by simpa using mt (h a a).mp (lt_irrefl _)
  trans a b c hab hbc := (h a c).mpr (((h a b).mp hab).trans ((h b c).mp hbc))
  incomp_trans a b c hab hbc := by
    have hab' : key b ≤ key a := not_lt.mp fun hlt => by simp [(h a b).mpr hlt] at hab
    have hbc' : key c ≤ key b := not_lt.mp fun hlt => by simp [(h b c).mpr hlt] at hbc
    simpa using mt (h a c).mp (not_lt.mpr (hbc'.trans hab'))

theorem StrictWeak.pairwise_insertionSort {α : Type} {comp : α → α → Bool} (h : StrictWeak comp)
    (l : List α) :
    (l.insertionSort fun a b => comp b a = false).Pairwise fun a b => comp b a = false := by
  have : IsTrans α fun a b => comp b a = false :=
    ⟨fun a b c hab hbc => h.incomp_trans c b a hbc hab⟩
  have : Std.Total fun a b => comp b a = false := ⟨fun a b => by
    by_contra hab
    simp only [not_or, Bool.not_eq_false] at hab
    have hself := h.trans a b a hab.2 hab.1
    simp [h.irrefl a] at hself⟩
  exact List.pairwise_insertionSort _ l

/-- A stable sort is one of the implementations. -/
def StdSort.insertion : StdSort where
  sort comp l := l.insertionSort fun a b => comp b a = false
  perm _ l := List.perm_insertionSort _ l
  sorted h l := h.pairwise_insertionSort l

/-- `std::lower_bound` in a range that `comp` and the value partition: the index of the first
element that is not less than the value. -/
def lowerBound {α β : Type} (l : List α) (value : β) (comp : α → β → Bool) : ℕ :=
  l.findIdx fun a => !comp a value

/-- In a range whose front has a property, the count of elements with it is where it ends. -/
theorem lt_countP_iff {α : Type} {p : α → Bool} {l : List α}
    (h : l.Pairwise fun a b => p b = true → p a = true) {i : ℕ} {a : α} (ha : l[i]? = some a) :
    i < l.countP p ↔ p a = true := by
  induction l generalizing i with
  | nil => cases ha
  | cons b l ih =>
    obtain ⟨hb, hl⟩ := List.pairwise_cons.mp h
    by_cases hpb : p b = true
    · rw [List.countP_cons_of_pos hpb]
      cases i with
      | zero =>
        cases ha
        simp [hpb]
      | succ i => rw [Nat.succ_lt_succ_iff, ih hl ha]
    · have hnone : ∀ c ∈ l, ¬ p c = true := fun c hc hpc => hpb (hb c hc hpc)
      have hzero : l.countP p = 0 := List.countP_eq_zero.mpr hnone
      rw [List.countP_cons_of_neg hpb, hzero]
      cases i with
      | zero =>
        cases ha
        simp [hpb]
      | succ i => simp [hnone a (List.mem_of_getElem? ha)]

/-- `std::binary_search`. -/
def binarySearch {α : Type} (l : List α) (value : α) (comp : α → α → Bool) : Bool :=
  match l[lowerBound l value comp]? with
  | some a => !comp value a
  | none => false

/-- A sorted list without repeated keys is strictly sorted. -/
theorem pairwise_lt {α κ : Type} [LinearOrder κ] {key : α → κ} {l : List α}
    (hsorted : l.Pairwise fun a b => key a ≤ key b) (hnodup : (l.map key).Nodup) :
    l.Pairwise fun a b => key a < key b := by
  have hne : l.Pairwise fun a b => key a ≠ key b := List.pairwise_map.mp hnodup
  exact (hsorted.and hne).imp fun h => lt_of_le_of_ne h.1 h.2

section ByKey
variable {α κ : Type} [LinearOrder κ] {key : α → κ} {comp : α → α → Bool}
  (hcomp : ∀ a b, comp a b = true ↔ key a < key b) {l : List α}
include hcomp

theorem StdSort.sort_perm (std : StdSort) : (std.sort comp l).Perm l :=
  std.perm (StrictWeak.byKey key hcomp) l

theorem StdSort.sort_sorted (std : StdSort) :
    (std.sort comp l).Pairwise fun a b => key a ≤ key b :=
  (std.sorted (StrictWeak.byKey key hcomp) l).imp fun {a b} h =>
    not_lt.mp fun hlt => by simp [(hcomp b a).mpr hlt] at h

/-- A search that fails in a sorted range has no element with the key. -/
theorem binarySearch_eq_false (hl : l.Pairwise fun a b => key a ≤ key b) {v : α}
    (h : binarySearch l v comp = false) : ∀ b ∈ l, key b ≠ key v := by
  intro b hb heq
  have hnot (a : α) : (!comp a v) = true ↔ key v ≤ key a := by
    rw [Bool.not_eq_true', ← Bool.not_eq_true, hcomp, not_lt]
  have hlt : l.findIdx (fun a => !comp a v) < l.length :=
    List.findIdx_lt_length_of_exists ⟨b, hb, (hnot b).mpr heq.ge⟩
  have hfirst := (hnot _).mp (List.findIdx_getElem (w := hlt))
  obtain ⟨j, hj, rfl⟩ := List.getElem_of_mem hb
  have hle : l.findIdx (fun a => !comp a v) ≤ j := by
    by_contra hlt'
    have hcomp' := List.not_of_lt_findIdx (Nat.lt_of_not_le hlt')
    rw [(hnot _).mpr heq.ge] at hcomp'
    cases hcomp'
  have hkey : key l[l.findIdx fun a => !comp a v] ≤ key l[j] := by
    rcases Nat.eq_or_lt_of_le hle with heq' | hlt'
    · simp only [heq', le_refl]
    · exact List.pairwise_iff_getElem.mp hl _ _ hlt hj hlt'
  rw [binarySearch, lowerBound, List.getElem?_eq_getElem hlt] at h
  simp only [Bool.not_eq_eq_eq_not, Bool.not_false, hcomp] at h
  exact absurd h (not_lt.mpr (hkey.trans heq.le))

omit hcomp in
theorem lowerBound_spec {β : Type} {value : β} {comp : α → β → Bool} {a : α}
    (ha : l[lowerBound l value comp]? = some a) : comp a value = false := by
  obtain ⟨hlt, rfl⟩ := List.getElem?_eq_some_iff.mp ha
  have hfirst : (!comp l[lowerBound l value comp] value) = true := List.findIdx_getElem (w := hlt)
  rwa [Bool.not_eq_true'] at hfirst

/-- A search that succeeds ends at an element with the key. -/
theorem lowerBound_hit {v : α} (h : binarySearch l v comp = true) :
    ∃ a, l[lowerBound l v comp]? = some a ∧ key a = key v := by
  unfold binarySearch at h
  cases ha : l[lowerBound l v comp]? with
  | none =>
    rw [ha] at h
    cases h
  | some a =>
    rw [ha] at h
    have hle : ¬ key v < key a := fun hlt => by simp [(hcomp v a).mpr hlt] at h
    have hge : ¬ key a < key v := fun hlt => by
      have hfalse := lowerBound_spec ha
      rw [(hcomp a v).mpr hlt] at hfalse
      cases hfalse
    exact ⟨a, rfl, le_antisymm (not_lt.mp hle) (not_lt.mp hge)⟩

/-- The search for a key that is there succeeds. -/
theorem binarySearch_iff (hl : l.Pairwise fun a b => key a ≤ key b) {v : α} :
    binarySearch l v comp = true ↔ ∃ b ∈ l, key b = key v := by
  constructor
  · intro h
    obtain ⟨a, ha, hkey⟩ := lowerBound_hit hcomp h
    exact ⟨a, List.mem_of_getElem? ha, hkey⟩
  · rintro ⟨b, hb, hkey⟩
    by_contra h
    exact binarySearch_eq_false hcomp hl (eq_false_of_ne_true h) b hb hkey

end ByKey
end Cxx
