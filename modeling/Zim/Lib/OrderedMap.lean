import Mathlib.Order.Lattice
import Mathlib.Data.List.Basic

/-! Maps as lists of their entries in the order of the keys. -/
namespace OrderedMap
variable {κ ν : Type} [LinearOrder κ]

def find (k : κ) : List (κ × ν) → Option ν
  | [] => none
  | (k', v) :: m => if k = k' then some v else find k m

/-- Sets the value of a key. -/
def put (k : κ) (v : ν) : List (κ × ν) → List (κ × ν)
  | [] => [(k, v)]
  | (k', v') :: m =>
    if k < k' then (k, v) :: (k', v') :: m
    else if k' < k then (k', v') :: put k v m
    else (k, v) :: m

theorem put_cons (k k' : κ) (v v' : ν) (m : List (κ × ν)) : put k v ((k', v') :: m) =
    if k < k' then (k, v) :: (k', v') :: m
    else if k' < k then (k', v') :: put k v m
    else (k, v) :: m := rfl

theorem find_put (k j : κ) (v : ν) (m : List (κ × ν)) :
    find j (put k v m) = if j = k then some v else find j m := by
  induction m with
  | nil => rfl
  | cons e m ih =>
    obtain ⟨k', v'⟩ := e
    rw [put_cons]
    by_cases hlt : k < k'
    · rw [if_pos hlt]
      rfl
    rw [if_neg hlt]
    by_cases hgt : k' < k
    · rw [if_pos hgt, find, find, ih]
      by_cases hj : j = k'
      · rw [if_pos hj, if_pos hj, if_neg fun h => ne_of_lt hgt (hj.symm.trans h)]
      · rw [if_neg hj, if_neg hj]
    · obtain rfl : k = k' := le_antisymm (not_lt.mp hgt) (not_lt.mp hlt)
      rw [if_neg hgt, find, find]
      by_cases hj : j = k
      · rw [if_pos hj, if_pos hj]
      · simp only [if_neg hj]

/-- A key above all others comes last. -/
theorem put_last {k : κ} {m : List (κ × ν)} (h : ∀ e ∈ m, e.1 < k) (v : ν) :
    put k v m = m ++ [(k, v)] := by
  induction m with
  | nil => rfl
  | cons e m ih =>
    obtain ⟨k', v'⟩ := e
    have hlt : k' < k := h _ List.mem_cons_self
    rw [put_cons, if_neg (lt_asymm hlt), if_pos hlt, ih fun e he => h e (List.mem_cons_of_mem _ he),
      List.cons_append]

/-- The keys in their order. -/
def keys (m : List (κ × ν)) : List κ := m.map Prod.fst

/-- The key behind `k`. -/
def next (k : κ) (m : List (κ × ν)) : Option κ := (keys m).find? fun j => k < j

theorem find_isSome_iff {k : κ} {m : List (κ × ν)} : (find k m).isSome ↔ k ∈ keys m := by
  induction m with
  | nil => simp [find, keys]
  | cons e m ih =>
    obtain ⟨k', v⟩ := e
    rw [find, keys, List.map_cons, List.mem_cons]
    by_cases h : k = k'
    · simp [h]
    · rw [if_neg h, ih]
      simp [h, keys]

theorem mem_keys_put {k j : κ} {v : ν} {m : List (κ × ν)} :
    j ∈ keys (put k v m) ↔ j = k ∨ j ∈ keys m := by
  rw [← find_isSome_iff, ← find_isSome_iff, find_put]
  by_cases h : j = k
  · simp [h]
  · simp [h]

theorem pairwise_keys_put {m : List (κ × ν)} (h : (keys m).Pairwise (· < ·)) (k : κ) (v : ν) :
    (keys (put k v m)).Pairwise (· < ·) := by
  induction m with
  | nil => exact List.pairwise_singleton _ _
  | cons e m ih =>
    obtain ⟨k', v'⟩ := e
    obtain ⟨hfirst, hrest⟩ := List.pairwise_cons.mp h
    rw [put_cons]
    by_cases hlt : k < k'
    · rw [if_pos hlt]
      refine List.pairwise_cons.mpr ⟨fun j hj => ?_, h⟩
      rcases List.mem_cons.mp hj with rfl | hj
      · exact hlt
      · exact hlt.trans (hfirst j hj)
    rw [if_neg hlt]
    by_cases hgt : k' < k
    · rw [if_pos hgt]
      refine List.pairwise_cons.mpr ⟨fun j hj => ?_, ih hrest⟩
      rcases mem_keys_put.mp hj with rfl | hj
      · exact hgt
      · exact hfirst j hj
    · obtain rfl : k = k' := le_antisymm (not_lt.mp hgt) (not_lt.mp hlt)
      rwa [if_neg hgt]

theorem next_getElem {m : List (κ × ν)} (h : (keys m).Pairwise (· < ·)) {i : ℕ} {k : κ}
    (hi : (keys m)[i]? = some k) : next k m = (keys m)[i + 1]? := by
  unfold next
  generalize keys m = ks at h hi
  induction ks generalizing i with
  | nil => cases hi
  | cons j ks ih =>
    obtain ⟨hfirst, hrest⟩ := List.pairwise_cons.mp h
    cases i with
    | zero =>
      obtain rfl : j = k := by simpa using hi
      rw [List.find?_cons_of_neg (by simp), List.getElem?_cons_succ, ← List.head?_eq_getElem?]
      cases ks with
      | nil => rfl
      | cons j' ks =>
        rw [List.find?_cons_of_pos (by simpa using hfirst j' List.mem_cons_self), List.head?_cons]
    | succ i =>
      rw [List.getElem?_cons_succ] at hi
      have hlt : j < k := hfirst k (List.mem_of_getElem? hi)
      rw [List.find?_cons_of_neg (by simpa using hlt.le), ih hrest hi, List.getElem?_cons_succ]

end OrderedMap
