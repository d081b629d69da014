import Mathlib.Data.List.Perm.Subperm
import Mathlib.Data.List.Nodup

/-! Singly linked lists whose cells lie at the indices of an array. -/
namespace LinkedSegment
variable {κ α : Type}

/-- The cells met from address `a` on, up to the address `b`. -/
def Segment (addr : ℕ → κ) (next : α → κ) : κ → List (ℕ × α) → κ → Prop
  | a, [], b => a = b
  | a, (i, c) :: cells, b => a = addr i ∧ Segment addr next (next c) cells b

/-- Every cell lies in the array under its index. -/
def Stored (store : List α) (cells : List (ℕ × α)) : Prop :=
  ∀ p ∈ cells, store[p.1]? = some p.2

section Segments
variable {addr : ℕ → κ} {next : α → κ}

theorem segment_append {a b : κ} {cells more : List (ℕ × α)} :
    Segment addr next a (cells ++ more) b ↔
      ∃ m, Segment addr next a cells m ∧ Segment addr next m more b := by
  induction cells generalizing a with
  | nil => simp [Segment]
  | cons p cells ih => simp [Segment, ih, and_assoc]

theorem segment_concat {a b : κ} {cells : List (ℕ × α)} {i : ℕ} {c : α} :
    Segment addr next a (cells ++ [(i, c)]) b ↔
      Segment addr next a cells (addr i) ∧ next c = b := by
  simp [segment_append, Segment]

end Segments

section Store
variable {store : List α} {cells : List (ℕ × α)}

theorem Stored.lt (h : Stored store cells) {p : ℕ × α} (hp : p ∈ cells) : p.1 < store.length :=
  (List.getElem?_eq_some_iff.mp (h p hp)).1

theorem Stored.append (h : Stored store cells) (more : List α) : Stored (store ++ more) cells :=
  fun p hp => by rw [List.getElem?_append_left (h.lt hp), h p hp]

/-- Writing a cell elsewhere leaves a list as it is. -/
theorem Stored.set (h : Stored store cells) {j : ℕ} (hj : j ∉ cells.map Prod.fst) (c : α) :
    Stored (store.set j c) cells := by
  intro p hp
  have hne : j ≠ p.1 := fun he => hj (he ▸ List.mem_map_of_mem hp)
  rw [List.getElem?_set_ne hne, h p hp]

theorem stored_append {more : List (ℕ × α)} :
    Stored store (cells ++ more) ↔ Stored store cells ∧ Stored store more := by
  simp only [Stored, List.mem_append, or_imp, forall_and]

/-- A list without a cell met twice is not longer than the array. -/
theorem Stored.length_le (h : Stored store cells) (hn : (cells.map Prod.fst).Nodup) :
    cells.length ≤ store.length := by
  have hsub : cells.map Prod.fst ⊆ List.range store.length := by
    intro i hi
    obtain ⟨p, hp, rfl⟩ := List.mem_map.mp hi
    exact List.mem_range.mpr (h.lt hp)
  simpa using (List.subperm_of_subset hn hsub).length_le

end Store
end LinkedSegment
