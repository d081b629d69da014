import Mathlib.Data.List.Basic
import Mathlib.Data.List.Range

/-! Positions of the parts of a concatenation. -/
namespace Chunks
variable {α : Type}

/-- Where chunk `i` begins. -/
def start (chunks : List (List α)) (i : ℕ) : ℕ := (chunks.take i).flatten.length

/-- Where the chunks begin. -/
def starts (chunks : List (List α)) : List ℕ := (List.range chunks.length).map (start chunks)

@[simp] theorem start_zero (chunks : List (List α)) : start chunks 0 = 0 := by simp [start]

@[simp] theorem start_length (chunks : List (List α)) :
    start chunks chunks.length = chunks.flatten.length := by simp [start]

theorem start_succ {chunks : List (List α)} {i : ℕ} {c : List α} (h : chunks[i]? = some c) :
    start chunks (i + 1) = start chunks i + c.length := by
  simp [start, List.take_add_one, h]

theorem start_append {chunks : List (List α)} (more : List (List α)) {i : ℕ}
    (h : i ≤ chunks.length) : start (chunks ++ more) i = start chunks i := by
  rw [start, List.take_append_of_le_length h, start]

theorem start_le (chunks : List (List α)) (i : ℕ) : start chunks i ≤ chunks.flatten.length := by
  have h : chunks.flatten = (chunks.take i).flatten ++ (chunks.drop i).flatten := by
    rw [← List.flatten_append, List.take_append_drop]
  rw [h, start, List.length_append]
  exact Nat.le_add_right _ _

/-- What begins at the position of a chunk is this chunk. -/
theorem drop_start {chunks : List (List α)} {i : ℕ} {c : List α} (h : chunks[i]? = some c) :
    chunks.flatten.drop (start chunks i) = c ++ (chunks.drop (i + 1)).flatten := by
  obtain ⟨hi, rfl⟩ := List.getElem?_eq_some_iff.mp h
  have hsplit : chunks.flatten = (chunks.take i).flatten ++ (chunks.drop i).flatten := by
    rw [← List.flatten_append, List.take_append_drop]
  rw [hsplit, start, List.drop_left, List.drop_eq_getElem_cons hi, List.flatten_cons]

@[simp] theorem starts_nil : starts ([] : List (List α)) = [] := rfl

@[simp] theorem starts_length (chunks : List (List α)) :
    (starts chunks).length = chunks.length := by simp [starts]

theorem starts_concat (chunks : List (List α)) (c : List α) :
    starts (chunks ++ [c]) = starts chunks ++ [chunks.flatten.length] := by
  have hfront : (List.range chunks.length).map (start (chunks ++ [c])) = starts chunks :=
    List.map_congr_left fun i hi => start_append [c] (List.mem_range.mp hi).le
  have hlast : start (chunks ++ [c]) chunks.length = chunks.flatten.length := by
    rw [start_append [c] le_rfl, start_length]
  rw [starts, List.length_append, List.length_singleton, List.range_succ, List.map_append, hfront,
    List.map_singleton, hlast]

theorem getElem?_starts {chunks : List (List α)} {i : ℕ} (h : i < chunks.length) :
    (starts chunks)[i]? = some (start chunks i) := by simp [starts, h]

end Chunks
