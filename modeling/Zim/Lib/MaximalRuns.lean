import Mathlib.Data.List.TakeWhile

/-! The maximal runs of elements with a property in a list. -/
namespace MaximalRuns
variable {α : Type} (p : α → Bool)

/-- A run that has come to its end, if it is one. -/
def close : ℕ → List α → List (ℕ × List α)
  | _, [] => []
  | i, a :: w => [(i, a :: w)]

/-- The runs of `w ++ l` where all elements of `w` have the property; `i` is the index of its
first element. -/
def runsFrom : ℕ → List α → List α → List (ℕ × List α)
  | i, w, [] => close i w
  | i, w, a :: l =>
    if p a then runsFrom i (w ++ [a]) l else close i w ++ runsFrom (i + w.length + 1) [] l

/-- The runs of a list, each with its index. -/
def runs (l : List α) : List (ℕ × List α) := runsFrom p 0 [] l

/-- `w` is the longest piece with the property at the index `i`, and cannot be continued to
the front. -/
structure IsRun (l : List α) (i : ℕ) (w : List α) : Prop where
  ne_nil : w ≠ []
  longest : w = (l.drop i).takeWhile p
  first : 0 < i → ∀ a, l[i - 1]? = some a → p a = false

@[simp] theorem close_nil (i : ℕ) : close i ([] : List α) = [] := rfl

theorem close_of_ne {w : List α} (h : w ≠ []) (i : ℕ) : close i w = [(i, w)] := by
  cases w with
  | nil => exact absurd rfl h
  | cons a w => rfl

theorem mem_close {i j : ℕ} {w x : List α} : (j, x) ∈ close i w ↔ w ≠ [] ∧ j = i ∧ x = w := by
  cases w <;> simp [close]

variable {p}

/-- In a list that has `w` behind `u`, no run begins inside `w` or at its end. -/
theorem IsRun.start {u w v x : List α} {j : ℕ} (h : IsRun p (u ++ w ++ v) j x)
    (hw : ∀ a ∈ w, p a = true) (hj : u.length ≤ j) : j = u.length ∨ u.length + w.length < j := by
  by_contra hne
  have hlt : j - 1 - u.length < w.length := by omega
  have hget : (u ++ w ++ v)[j - 1]? = some w[j - 1 - u.length] := by
    rw [List.append_assoc, List.getElem?_append_right (by omega),
      List.getElem?_append_left (by omega), List.getElem?_eq_getElem hlt]
  have hfalse := h.first (by omega) _ hget
  rw [hw _ (List.getElem_mem hlt)] at hfalse
  cases hfalse

theorem mem_runsFrom {u w l x : List α} {j : ℕ} (hu : ∀ a, u.getLast? = some a → p a = false)
    (hw : ∀ a ∈ w, p a = true) :
    (j, x) ∈ runsFrom p u.length w l ↔ u.length ≤ j ∧ IsRun p (u ++ w ++ l) j x := by
  have hbefore (v : List α) (hpos : 0 < u.length) (a : α)
      (ha : (u ++ v)[u.length - 1]? = some a) : p a = false := by
    rw [List.getElem?_append_left (by omega), ← List.getLast?_eq_getElem?] at ha
    exact hu a ha
  induction l generalizing u w with
  | nil =>
    rw [runsFrom, mem_close, List.append_nil]
    constructor
    · rintro ⟨hne, rfl, rfl⟩
      refine ⟨le_rfl, hne, ?_, hbefore x⟩
      rw [List.drop_left, List.takeWhile_eq_self_iff.mpr hw]
    · rintro ⟨hj, hrun⟩
      have hdrop := hrun.longest
      rcases IsRun.start (v := []) (by rwa [List.append_nil]) hw hj with rfl | hlt
      · rw [List.drop_left, List.takeWhile_eq_self_iff.mpr hw] at hdrop
        exact ⟨hdrop ▸ hrun.ne_nil, rfl, hdrop⟩
      · rw [List.drop_eq_nil_of_le (by rw [List.length_append]; omega)] at hdrop
        exact absurd hdrop hrun.ne_nil
  | cons a l ih =>
    by_cases ha : p a = true
    · have hw' : ∀ b ∈ w ++ [a], p b = true := by
        intro b hb
        rcases List.mem_append.mp hb with hb | hb
        · exact hw b hb
        · exact List.mem_singleton.mp hb ▸ ha
      have hsame : u ++ (w ++ [a]) ++ l = u ++ w ++ a :: l := by simp
      rw [runsFrom, if_pos ha, ← hsame]
      exact ih hu hw' hbefore
    · have ha' : p a = false := eq_false_of_ne_true ha
      have hsame : (u ++ w ++ [a]) ++ [] ++ l = u ++ w ++ a :: l := by simp
      have hlen : (u ++ w ++ [a]).length = u.length + w.length + 1 := by
        simp only [List.length_append, List.length_singleton]
      have htake : ((u ++ w ++ a :: l).drop u.length).takeWhile p = w := by
        rw [List.append_assoc, List.drop_left, List.takeWhile_append_of_pos hw,
          List.takeWhile_cons_of_neg ha, List.append_nil]
      have hrest : (j, x) ∈ runsFrom p (u.length + w.length + 1) [] l ↔
          u.length + w.length + 1 ≤ j ∧ IsRun p (u ++ w ++ a :: l) j x := by
        rw [← hlen, ← hsame]
        refine ih (by simp [ha']) nofun ?_
        intro v _ b hb
        simp only [hlen, Nat.add_sub_cancel] at hb
        rw [List.getElem?_append_left (by simp), List.getElem?_append_right (by simp)] at hb
        simp only [List.length_append, Nat.sub_self, List.getElem?_cons_zero,
          Option.some.injEq] at hb
        exact hb ▸ ha'
      rw [runsFrom, if_neg ha, List.mem_append, mem_close]
      constructor
      · rintro (⟨hne, rfl, rfl⟩ | hmem)
        · refine ⟨le_rfl, hne, htake.symm, ?_⟩
          rw [List.append_assoc]
          exact hbefore _
        · obtain ⟨hj, hrun⟩ := hrest.mp hmem
          exact ⟨by omega, hrun⟩
      · rintro ⟨hj, hrun⟩
        rcases hrun.start hw hj with rfl | hlt
        · have hx := hrun.longest.trans htake
          exact .inl ⟨hx ▸ hrun.ne_nil, rfl, hx⟩
        · exact .inr (hrest.mpr ⟨hlt, hrun⟩)

/-- The runs of a list are its maximal ones. -/
theorem mem_runs {l x : List α} {j : ℕ} : (j, x) ∈ runs p l ↔ IsRun p l j x := by
  have h := @mem_runsFrom α p [] [] l x j nofun nofun
  simp only [List.length_nil, Nat.zero_le, true_and, List.nil_append] at h
  exact h

theorem runsFrom_le {i j : ℕ} {w l x : List α} (h : (j, x) ∈ runsFrom p i w l) : i ≤ j := by
  induction l generalizing i w with
  | nil => exact (mem_close.mp h).2.1.ge
  | cons a l ih =>
    rw [runsFrom] at h
    split_ifs at h with ha
    · exact ih h
    · rcases List.mem_append.mp h with h | h
      · exact (mem_close.mp h).2.1.ge
      · have := ih h
        omega

/-- The runs are in their order, and between two of them there is something else. -/
theorem pairwise_runsFrom (i : ℕ) (w l : List α) :
    (runsFrom p i w l).Pairwise fun r s => r.1 + r.2.length < s.1 := by
  have hclose (i : ℕ) (w : List α) :
      (close i w).Pairwise fun r s => r.1 + r.2.length < s.1 := by
    cases w with
    | nil => exact .nil
    | cons a w => exact List.pairwise_singleton _ _
  induction l generalizing i w with
  | nil => exact hclose i w
  | cons a l ih =>
    rw [runsFrom]
    split_ifs with ha
    · exact ih i _
    · refine List.pairwise_append.mpr ⟨hclose i w, ih _ _, ?_⟩
      rintro ⟨j, x⟩ hr ⟨k, y⟩ hs
      obtain ⟨-, rfl, rfl⟩ := mem_close.mp hr
      exact runsFrom_le hs

end MaximalRuns
